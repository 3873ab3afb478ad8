import Vgi.Catalog.Discipline

/-!
# Loads and lookups

What each program that fills a set keeps, and what it returns, given the discipline of `Vgi.Catalog.Discipline`: a
listing or a table that is fetched is published only if it is not older than the last invalidation that covers it, and
what is found is not older either.

* `spec_getTable`, `spec_scan`: what a lookup of a table and a listing return;
* `spec_ensureLoaded`: a load disturbs nothing that lasts.
-/

namespace Vgi.Catalog

open Prog Function Option World EntrySet

variable {H : Host} {i a : ℕ} {ctx : Context} {X : SetId} {k : EntryKind} {name : Bytes} {c : Bytes → ℕ}
  {F P : World → Prop} {g : World}

/-! ## Rules for the sections -/

/-- A calm section. -/
theorem meets_calm {β : Type} {label : Input} {f : World → World × β} {Q : β → World → Prop}
    (hQ : ∀ b, (discipline H).Stable i (Q b))
    (h : ∀ g, g.Quiet H i label → g.Inv → P g → (f g).1.Inv ∧ g.Calm (f g).1 ∧ Q (f g).2 (f g).1) :
    Runs H i Q (critical label f) P :=
  meets_critical hQ fun g ha hg hp => ⟨(h g ha hg hp).1, (h g ha hg hp).2.1.moves i, (h g ha hg hp).2.2⟩

/-- The versions and the etag are in no assertion. -/
theorem World.Inv.idle (hg : g.Inv) (version : ℤ) (etag : Option Bytes) (once : Bool) :
    { g with knownVersion := version, contentsEtag := etag, contentsLoadedOnce := once }.Inv :=
  { hg with schemas := fun x hx => { hg.schemas x hx with } }

theorem World.calm_idle (g : World) (version : ℤ) (etag : Option Bytes) (once : Bool) :
    g.Calm { g with knownVersion := version, contentsEtag := etag, contentsLoadedOnce := once } :=
  { Calm.refl g with }

theorem meets_idle {β : Type} {f : World → World × β} (hP : Kept H i P) (h : ∀ g, ∃ version etag once,
      (f g).1 = { g with knownVersion := version, contentsEtag := etag, contentsLoadedOnce := once }) :
    Runs H i (fun _ => P) (critical .locked f) P := by
  refine meets_calm (fun _ => hP.stable) fun g _ hg hp => ?_
  obtain ⟨version, etag, once, heq⟩ := h g
  rw [heq]
  exact ⟨hg.idle version etag once, g.calm_idle version etag once, hP.calm (g.calm_idle version etag once) hp⟩

/-! ## What is in a set -/

/-- The entry that is found, if there is one, is not too old. -/
def Recent (c : Bytes → ℕ) (name : Bytes) (r : Option Entry) : Prop := ∀ e, r = some e → c (lower name) ≤ e.sentAt

theorem recent_none : Recent c name none := fun _ he => by cases he

theorem recent_some {e : Entry} (h : c (lower name) ≤ e.sentAt) : Recent c name (some e) := fun _ he => some.inj he ▸ h

theorem World.Inv.find (hg : g.Inv) (h : Above X c g) : Recent c name ((g.sets X).find name) := fun _ he =>
  (h.le _).trans (hg.entries X h.live _ (mem_of_find he))

theorem World.Inv.bound_le_clock (hg : g.Inv) (hX : X.Live g) (n : Bytes) : g.bound X n ≤ g.clock := by
  cases X with
  | schemas => exact hg.since .schemas n
  | inSchema a k => exact max_le (hg.since _ n) (hg.sent a hX)

theorem World.since_le_bound (n : Bytes) : (g.sets X).since n ≤ g.bound X n := by
  cases X with
  | schemas => exact le_rfl
  | inSchema a k => exact le_max_left ..

/-- The generation is known. -/
theorem World.Inv.atGen (hg : g.Inv) (hX : X.Live g) : AtGen X (g.sets X).generation g.clock none g :=
  ⟨hX, le_rfl, fun _ => hg.invalidatedAt X, nofun⟩

variable {began : ℕ}

/-- The generation was known before the request. -/
theorem World.Inv.atGen_sent (hg : g.Inv) {gen : ℕ} (h : AtGen X gen began none g) :
    AtGen X gen began (some g.clock) g := by
  refine { h with sent := fun _ t ht n => ?_ }
  cases ht
  exact hg.bound_le_clock h.live n

/-- What is known of a set when the generation has been read. -/
def Pinned (X : SetId) (gen : ℕ) (sentAt : Option ℕ) (g : World) : Prop := ∃ began, AtGen X gen began sentAt g

variable {sentAt : Option ℕ}

theorem lasting_pinned {gen : ℕ} : Lasting (Pinned X gen sentAt) :=
  fun _ _ _ hm h => h.imp fun _ h => lasting_atGen hm h

/-- What a lookup begins with. -/
def Glanced (X : SetId) (c : Bytes → ℕ) (name : Bytes) : Glance → World → Prop
  | .known r, _ => ∀ e, r = some e → c (lower name) ≤ e.sentAt
  | .unknown _ preGen began, g => AtGen X preGen began none g

theorem lasting_glanced (gl : Glance) : Lasting (Glanced X c name gl) := by
  rcases gl with r | ⟨eager, preGen, began⟩
  exacts [lasting_const _, lasting_atGen]

theorem spec_look : Runs H i (fun gl g => Above X c g ∧ Glanced X c name gl g) (look H ctx X name) (Above X c) := by
  refine meets_calm (fun gl => (lasting_above.and (lasting_glanced gl)).stable) fun g ha hg hp => ?_
  rw [beginLookup]
  rcases hfn : (g.sets X).find name with _ | e <;> dsimp only
  · split_ifs with hms
    · exact ⟨hg, .refl g, hp, recent_none⟩
    obtain ⟨hinv, hcl⟩ := hg.beginLoad hp.live ha
    have hab := (lasting_above).kept (H := H) (i := i) |>.calm hcl hp
    generalize beginLoad H X ctx.trustEmptyKinds g = begun at hinv hcl hab ⊢
    obtain ⟨g', _ | _⟩ := begun
    · exact ⟨hinv, hcl, hab, recent_none⟩
    · exact ⟨hinv, hcl, hab, hinv.atGen hab.live⟩
  · exact ⟨hg, .refl g, hp, hfn ▸ hg.find hp⟩

/-- What a second look finds, and the generation then. -/
def Rechecked (X : SetId) (c : Bytes → ℕ) (name : Bytes) (r : Option Entry × ℕ) (g : World) : Prop :=
  Above X c g ∧ Pinned X r.2 none g ∧ Recent c name r.1

theorem spec_recheck : Runs H i (Rechecked X c name) (recheck X name) (Above X c) :=
  meets_calm (fun _ => (lasting_above.and (lasting_pinned.and (lasting_const _))).stable) fun g _ hg hp =>
    ⟨hg, .refl g, hp, ⟨g.clock, hg.atGen hp.live⟩, hg.find hp⟩

/-! ## Listings -/

/-- A listing is not older than what the set has been invalidated by. -/
theorem spec_takeEntries {R : ℕ → World → Prop} (hP : (discipline H).Stable i P)
    (hR : ∀ t, (discipline H).Stable i (R t)) (hlv : ∀ g, P g → a < g.nextAddress)
    (htk : ∀ g, P g → P (g.takeSeed a k))
    (hsn : ∀ g t, g.Inv → P g → (∀ n, g.bound (.inSchema a k) n ≤ t) → R t g) :
    Ends H i (fun r => R r.2) P (takeEntries a k) P := by
  have hcl : Runs H i (fun r g => r.elim (P g) fun l => R l.2 g) (claimSeed a k) P := by
    refine meets_critical (fun r => ?_) fun g _ hg hp => ?_
    · rcases r with _ | l
      exacts [hP, hR l.2]
    rcases hhs : g.hasSeed (.inSchema a k) with _ | _ <;> rcases (g.schemaAt a).seed with _ | seed
    on_goal 4 =>
      refine ⟨hg.takeSeed a k, moves_takeSeed a k, hsn _ _ (hg.takeSeed a k) (htk g hp) fun n => ?_⟩
      rw [bound_takeSeed]
      exact max_le (hg.seed a k (hlv g hp) hhs n) le_rfl
    all_goals exact ⟨hg, .refl i g, hp⟩
  refine hcl.liftE fun r => ?_
  rcases r with _ | listing
  · exact meets_requestListing (fun r => hR r.2) hP (fun g => .refl i g)
      (fun g reply _ hg hp => hsn g g.clock hg hp fun n => hg.bound_le_clock (X := .inSchema a k) (hlv g hp) n)
      fun _ _ hp => hp
  · exact meets_return fun _ _ h => h

/-! ## Tables -/

/-- A step that publishes what is not too old. -/
theorem World.Inv.publish (hg : g.Inv) {f : EntrySet → EntrySet} (hX : (SetId.inSchema a k).Live g)
    (hf : (g.sets (.inSchema a k)).Tame (f (g.sets (.inSchema a k)))) {sentAt : ℕ}
    (hen : ∀ x ∈ (f (g.sets (.inSchema a k))).entries, x ∈ (g.sets (.inSchema a k)).entries ∨ x.2.sentAt = sentAt)
    (hms : ∀ m ∈ (f (g.sets (.inSchema a k))).missing, m ∈ (g.sets (.inSchema a k)).missing)
    (hsn : ∀ n, g.bound (.inSchema a k) n ≤ sentAt) : (g.mapSet (.inSchema a k) f).Inv := by
  refine hg.mapSet hX hf.since hf.invalidatedAt (fun x hx => ?_) (fun m hm => .inl (hms m hm)) fun h => by cases h
  refine (hen x hx).imp_right fun h => ⟨?_, by simp⟩
  rw [h]
  exact hsn x.1

/-- What is known of a set that is about to be filled. -/
def Due (X : SetId) (c : Bytes → ℕ) (gen began : ℕ) (sentAt : Option ℕ) (g : World) : Prop :=
  Above X c g ∧ AtGen X gen began sentAt g

theorem lasting_due {gen : ℕ} : Lasting (Due X c gen began sentAt) := lasting_above.and lasting_atGen

variable {preGen : ℕ}

theorem spec_publishAll {listing : List EntryInfo × ℕ} :
    Runs H i (fun _ => Above (.inSchema a k) c) (publishAll (.inSchema a k) listing preGen began)
      (Due (.inSchema a k) c preGen began (some listing.2)) := by
  refine meets_calm (fun _ => lasting_above.stable) fun g _ hg hp => ?_
  split_ifs with hsm
  · have hgn : (g.sets (.inSchema a k)).generation = preGen := of_decide_eq_true (Bool.and_eq_true_iff.1 hsm).1
    have htm := tame_foldl (s := g.sets (.inSchema a k)) listing.2 listing.1
    have hcl := calm_mapSet (f := fun s => listing.1.foldl (fun s t => s.createEntry (buildEntry t listing.2)) s) htm
    have hinv := hg.publish (f := fun s => listing.1.foldl (fun s t => s.createEntry (buildEntry t listing.2)) s)
      hp.1.live htm (fun _ => mem_foldl_createEntry) (fun _ => missing_foldl_createEntry)
      (hp.2.sent hgn listing.2 rfl)
    have hmr := hcl.trans (calm_markLoaded (X := .inSchema a k) began)
    refine ⟨hinv.markLoaded (live_of_calm hcl hp.1.live) ?_, hmr, lasting_above (hmr.moves i) hp.1⟩
    rw [(hcl.sets _).invalidatedAt]
    exact hp.2.began hgn
  · exact ⟨hg, .refl g, hp.1⟩

theorem spec_loadTables :
    Ends H i (Rechecked (.inSchema a .table) c name) (fun _ => True) (loadTables H a name preGen began)
      (Due (.inSchema a .table) c preGen began none) := by
  have htk : Ends H i (fun r => Due (.inSchema a .table) c preGen began (some r.2))
      (Due (.inSchema a .table) c preGen began none) (takeEntries a .table)
      (Due (.inSchema a .table) c preGen began none) := by
    refine spec_takeEntries lasting_due.stable (fun t => lasting_due.stable) (fun g hp => hp.1.live)
      (fun g => lasting_due (moves_takeSeed (j := i) a .table)) fun g t _ hp hbd => ?_
    refine ⟨hp.1, hp.2.live, hp.2.le, hp.2.began, fun _ t' ht' => ?_⟩
    cases ht'
    exact hbd
  have hbl : Ends H i (fun r => Due (.inSchema a .table) c preGen began (some r.2)) (fun _ => True) (buildAll H a)
      (Due (.inSchema a .table) c preGen began none) := by
    refine htk.tryE fun listing => ?_
    split_ifs
    · exact meets_return fun _ _ => id
    · exact meets_throw fun _ _ _ => trivial
  refine hbl.tryE fun listing => ?_
  exact spec_publishAll.liftE fun _ => spec_recheck.lift fun _ => True

theorem spec_cacheMissing {sentAt : ℕ} :
    Runs H i (fun _ _ => True) (cacheMissing H (.inSchema a k) name preGen sentAt)
      fun g => Pinned (.inSchema a k) preGen (some sentAt) g := by
  refine meets_calm (fun _ => Discipline.stable_const True) fun g _ hg hp => ?_
  obtain ⟨began, hat⟩ := hp
  have htm : (g.sets (.inSchema a k)).Tame ((g.sets (.inSchema a k)).cacheMissing H name preGen sentAt) :=
    tame_cacheMissing
  refine ⟨hg.mapSet (f := (·.cacheMissing H name preGen sentAt)) hat.live htm.since htm.invalidatedAt
    (fun x hx => .inl ?_) (fun m hm => ?_) nofun,
    calm_mapSet (f := (·.cacheMissing H name preGen sentAt)) htm, trivial⟩
  · rwa [entries_cacheMissing] at hx
  rcases mem_cacheMissing hm with hm | ⟨hgn, hsn⟩
  · exact .inl hm
  · right
    rw [hsn]
    exact (since_le_bound m.1).trans (hat.sent hgn sentAt rfl m.1)

theorem spec_publishTable {t : EntryInfo} {sentAt : ℕ} :
    Runs H i (fun r _ => Recent c name r) (publishTable (.inSchema a k) name (buildEntry t sentAt) preGen)
      fun g => Above (.inSchema a k) c g ∧ Pinned (.inSchema a k) preGen (some sentAt) g := by
  refine meets_calm (fun _ => Discipline.stable_const _) fun g _ hg hp => ?_
  obtain ⟨hab, began, hat⟩ := hp
  split_ifs with hgn
  · exact ⟨hg, .refl g, recent_none⟩
  have hsn := hat.sent (not_not.1 hgn) sentAt rfl
  rcases hfn : (g.sets (.inSchema a k)).find name with _ | e <;> dsimp only
  · have htm := tame_insert (s := g.sets (.inSchema a k)) (lower name) (buildEntry t sentAt)
    refine ⟨hg.publish hab.live htm (fun x hx => ?_) (fun m hm => List.mem_of_mem_filter hm) hsn, calm_mapSet htm,
      recent_some ((hab.le _).trans (hsn _))⟩
    rcases List.mem_cons.1 hx with rfl | hx
    exacts [.inr rfl, .inl hx]
  · exact ⟨hg, .refl g, hfn ▸ hg.find hab⟩

theorem spec_fetchTable :
    Ends H i (fun r _ => Recent c name r) (fun _ => True) (fetchTable H a name preGen)
      fun g => Above (.inSchema a .table) c g ∧ Pinned (.inSchema a .table) preGen none g := by
  have hreq : Ends H i (fun r g => Above (.inSchema a .table) c g ∧
      Pinned (.inSchema a .table) preGen (some r.2) g) (fun _ => True) (requestTable name)
        fun g => Above (.inSchema a .table) c g ∧ Pinned (.inSchema a .table) preGen none g :=
    meets_requestTable (fun r => (lasting_above.and lasting_pinned).stable) (Discipline.stable_const True)
      (fun g => .refl i g) (fun g _ _ hg hp => ⟨hp.1, hp.2.imp fun _ h => hg.atGen_sent h⟩) fun _ _ _ => trivial
  rw [fetchTable]
  split_ifs
  · refine hreq.tryE fun r => ?_
    obtain ⟨_ | t, sentAt⟩ := r
    · exact (spec_cacheMissing.pre fun _ _ hp => hp.2).liftE fun _ => meets_return fun _ _ _ => recent_none
    · dsimp only
      split_ifs
      · exact spec_publishTable.lift fun _ => True
      · exact meets_throw fun _ _ _ => trivial
  · exact meets_return fun _ _ _ => recent_none

theorem spec_getTable :
    Ends H i (fun r _ => Recent c name r) (fun _ => True) (getTable H ctx a name) (Above (.inSchema a .table) c) := by
  refine spec_look.liftE fun gl => ?_
  rcases gl with r | ⟨eager, preGen, began⟩
  · exact meets_return fun _ _ h => h.2
  refine Meets.tryE (R := Rechecked (.inSchema a .table) c name) (E := fun _ => True) ?_ fun r => ?_
  · split_ifs
    · exact spec_loadTables
    · exact meets_return fun _ _ h => ⟨h.1, ⟨began, h.2⟩, recent_none⟩
  · obtain ⟨_ | e, gen⟩ := r
    · exact spec_fetchTable.pre fun _ _ h => ⟨h.1, h.2.1⟩
    · exact meets_return fun _ _ h => h.2.2

/-! ## Loads -/

/-- A load goes on, which what lasts is kept by. -/
def Filling (F : World → Prop) (i : ℕ) (X : SetId) (began : ℕ) (sentAt : Option ℕ) (g : World) : Prop :=
  F g ∧ Holding i X began sentAt g

/-- The lock is still to be given back. -/
def Stopped (F : World → Prop) (i : ℕ) (X : SetId) (g : World) : Prop := F g ∧ Locked i X g

theorem Filling.stopped (h : Filling F i X began sentAt g) : Stopped F i X g := ⟨h.1, h.2.locked⟩

section Lasting

variable (hF : Lasting F)

include hF

theorem kept_filling : Kept H i (Filling F i X began sentAt) := hF.kept.and kept_holding

theorem kept_stopped : Kept H i (Stopped F i X) := hF.kept.and kept_locked

theorem spec_loadEach {sentAt : ℕ} (ts : List EntryInfo) :
    Ends H i (fun _ => Filling F i (.inSchema a k) began (some sentAt)) (Stopped F i (.inSchema a k))
      (loadEach H a k sentAt ts) (Filling F i (.inSchema a k) began (some sentAt)) := by
  induction ts with
  | nil => exact meets_return fun _ _ => id
  | cons t ts ih =>
    refine Meets.thenE ?_ fun _ => ih
    rw [loadEntry]
    split_ifs
    · refine Meets.lift (meets_calm (fun _ => (kept_filling hF).stable) fun g _ hg hp => ?_) _
      have htm := tame_createEntry (s := g.sets (.inSchema a k)) (buildEntry t sentAt)
      have hcl := calm_mapSet (f := (·.createEntry (buildEntry t sentAt))) htm
      refine ⟨hg.publish (f := (·.createEntry (buildEntry t sentAt))) hp.2.live htm (fun x hx => ?_)
        (fun m => missing_createEntry) (hp.2.sent sentAt rfl), hcl, (kept_filling (H := H) hF).calm hcl hp⟩
      rcases mem_createEntry hx with hx | rfl
      exacts [.inl hx, .inr rfl]
    · exact meets_throw fun _ _ h => h.stopped
    · exact meets_return fun _ _ h => h

theorem spec_loadEntries :
    Ends H i (fun _ => Filling F i (.inSchema a k) began none) (Stopped F i (.inSchema a k)) (loadEntries H a k)
      (Filling F i (.inSchema a k) began none) := by
  have htk := spec_takeEntries (H := H) (P := Filling F i (.inSchema a k) began none)
    (R := fun t => Filling F i (.inSchema a k) began (some t)) (kept_filling hF).stable
    (fun t => (kept_filling hF).stable) (fun g hp => hp.2.live)
    (fun g hp => ⟨hF (moves_takeSeed (j := i) a k) hp.1, hp.2.tame (moves_takeSeed (j := i) a k) (.refl _)⟩)
    fun g t _ hp hbd => by
      refine ⟨hp.1, hp.2.live, hp.2.lock, hp.2.began, fun t' ht' => ?_⟩
      cases ht'
      exact hbd
  refine htk.bindE (fun listing => ?_) fun _ _ _ h => h.stopped
  refine (spec_loadEach hF listing.1).post fun r g _ h => ?_
  rcases r with _ | _
  · exact h
  · exact ⟨h.1, h.2.live, h.2.lock, h.2.began, nofun⟩

end Lasting

/-! ## The load of the schemas -/

section Schemas

variable {began : ℕ}

/-- A snapshot, if there is one, is not older than any invalidation. -/
def Taken (F : World → Prop) (i began : ℕ) (r : Option (Contents × ℕ)) (g : World) : Prop :=
  F g ∧ LoadingSchemas i began (r.map Prod.snd) g

theorem kept_taken (hF : Lasting F) (r : Option (Contents × ℕ)) : Kept H i (Taken F i began r) :=
  hF.kept.and kept_loadingSchemas

/-- What is sent now is not too old. -/
theorem World.Inv.loadingSchemas (hg : g.Inv) (h : LoadingSchemas i began none g) :
    LoadingSchemas i began (some g.clock) g := by
  refine ⟨h.holding, fun t ht => ?_⟩
  cases ht
  exact ⟨le_rfl, hg.floor⟩

theorem Taken.forget {r : Option (Contents × ℕ)} (h : Taken F i began r g) : Taken F i began none g :=
  ⟨h.1, h.2.holding, nofun⟩

theorem spec_adopt (hP : Kept H i P) (version : ℤ) : Runs H i (fun _ => P) (adopt version) P := by
  rw [adopt]
  split_ifs
  · exact meets_pure fun _ _ => id
  · refine meets_idle hP fun g => ?_
    rw [adoptVersion]
    split_ifs
    exacts [⟨_, _, _, rfl⟩, ⟨_, _, _, rfl⟩]

theorem spec_forgetEtag (hP : Kept H i P) : Runs H i (fun _ => P) forgetEtag P := meets_idle hP fun _ => ⟨_, _, _, rfl⟩

section

variable (hF : Lasting F)

include hF

theorem spec_fetchContents (n : ℕ) : Runs H i (Taken F i began) (fetchContents n) (Taken F i began none) := by
  have hno : Runs H i (Taken F i began) (do forgetEtag; return none) (Taken F i began none) :=
    (spec_forgetEtag (kept_taken hF none)).bind fun _ => meets_pure fun _ _ => id
  induction n with
  | zero => exact hno
  | succ n ih =>
    have hreq : Runs H i (Taken F i began) requestContents (Taken F i began none) := by
      refine meets_allowed (fun r => (kept_taken hF r).stable) fun g input g' r _ hg hp heq => ?_
      cases input with
      | contents reply =>
        cases heq
        exact ⟨hg, .refl i g, hp.1, hg.loadingSchemas hp.2⟩
      | failed =>
        cases heq
        exact ⟨hg, .refl i g, hp⟩
      | _ => cases heq
    refine hreq.bind fun r => ?_
    rcases r with _ | reply
    · exact hno
    · refine (spec_adopt (kept_taken hF (some reply)) _).bind fun current => ?_
      rcases current with _ | _
      · exact ih.pre fun _ _ h => h.forget
      · exact (meets_idle (kept_taken hF (some reply)) fun _ => ⟨_, _, _, rfl⟩).bind fun _ => meets_pure fun _ _ h => h

theorem spec_takePending : Runs H i (fun r => Taken F i began r.1) takePending (Taken F i began none) := by
  refine meets_critical (fun r => (kept_taken hF r.1).stable) fun g _ hg hp => ?_
  have hm : g.Moves i { g with pending := none, contentsLoadedOnce := true } :=
    { Moves.refl i g with pending := fun c hc => by cases hc }
  refine ⟨{ hg with schemas := fun x hx => { hg.schemas x hx with }, pending := fun c hc => by cases hc }, hm,
    hF hm hp.1, hp.2.holding.tame hm (.refl _), fun t ht => ?_⟩
  obtain ⟨c, hc, rfl⟩ := map_eq_some_iff.1 ht
  exact hg.pending c hc

theorem spec_reloadContents (r : AttachResult) (reload : Bool) :
    Runs H i (Taken F i began) (reloadContents r reload) (Taken F i began none) := by
  have hP : Kept H i (Taken F i began none) := kept_taken hF none
  have hus : Runs H i (fun _ => Taken F i began none) (reloadUsesCatalogContents r) (Taken F i began none) := by
    rw [reloadUsesCatalogContents]
    split_ifs
    · exact meets_pure fun _ _ => id
    · refine (meets_idle hP fun _ => ⟨_, _, _, rfl⟩).bind fun version => ?_
      split_ifs
      · exact meets_pure fun _ _ => id
      · exact meets_idle hP fun _ => ⟨_, _, _, rfl⟩
  refine Meets.bind (R := fun _ => Taken F i began none) ?_ fun uses => ?_
  · split_ifs
    exacts [hus, meets_pure fun _ _ h => h]
  · rcases uses with _ | _
    exacts [meets_pure fun _ _ => id, spec_fetchContents hF 2]

theorem spec_takeCatalogContents : Runs H i (Taken F i began) (takeCatalogContents H ctx) (Taken F i began none) := by
  rw [takeCatalogContents]
  rcases H.attachResult with _ | r <;> dsimp only
  · exact meets_pure fun _ _ => id
  split_ifs
  · exact meets_pure fun _ _ => id
  refine (spec_takePending hF).bind fun taken => ?_
  obtain ⟨pending, once⟩ := taken
  rcases ctx.useCatalogContents with _ | _ <;> rcases pending with _ | pending
  · exact (spec_forgetEtag (kept_taken hF none)).bind fun _ => meets_pure fun _ _ => id
  · exact (spec_forgetEtag (kept_taken hF _)).bind fun _ => meets_pure fun _ _ h => h.forget
  · exact spec_reloadContents hF r once
  · exact meets_pure fun _ _ h => h

theorem spec_publishSchema (r : Contents × ℕ) (info : SchemaInfo) (seed : Option SchemaContents) :
    Runs H i (fun _ => Taken F i began (some r)) (publishSchema info seed r.2) (Taken F i began (some r)) := by
  refine meets_critical (fun _ => (kept_taken hF _).stable) fun g _ hg hp => ?_
  obtain ⟨hcl, hfl⟩ := hp.2.sent r.2 rfl
  have hm : g.Moves i (g.withSchema info seed r.2) := moves_withSchema
  exact ⟨hg.withSchema hcl hfl, hm, hF hm hp.1, hp.2.holding.tame hm (tame_withSchema _), hp.2.sent⟩

theorem spec_loadSchemas :
    Ends H i (fun _ => Taken F i began none) (Taken F i began none) (loadSchemas H ctx) (Taken F i began none) := by
  refine (spec_takeCatalogContents hF).liftE fun r => ?_
  rcases r with _ | snapshot
  · have hreq : Ends H i (fun r => Taken F i began (some ({}, r.2))) (Taken F i began none)
        requestSchemas (Taken F i began none) := by
      refine meets_allowed (fun r => ?_) fun g input g' r _ hg hp heq => ?_
      · rcases r with _ | r
        exacts [(kept_taken hF _).stable, (kept_taken hF _).stable]
      cases input with
      | schemas reply =>
        cases heq
        exact ⟨hg, .refl i g, hp.1, hg.loadingSchemas hp.2⟩
      | failed =>
        cases heq
        exact ⟨hg, .refl i g, hp⟩
      | _ => cases heq
    refine hreq.thenE fun reply => ?_
    have hall := meets_forEach (I := fun _ => Taken F i began (some ({}, reply.2))) reply.1 fun info _ =>
      spec_publishSchema (H := H) hF ({}, reply.2) info none
    exact (hall.post fun _ _ _ h => h.forget).lift _
  · have hall := meets_forEach (I := fun _ => Taken F i began (some snapshot)) snapshot.1.schemas fun schema _ =>
      spec_publishSchema (H := H) hF snapshot schema.info (some schema)
    exact (hall.post fun _ _ _ h => h.forget).lift _

end

end Schemas

theorem spec_load (hF : Lasting F) :
    Ends H i (fun _ => Filling F i X began none) (Stopped F i X) (load H ctx X) (Filling F i X began none) := by
  unfold load
  split_ifs
  · cases X with
    | schemas =>
      refine ((spec_loadSchemas hF).pre fun g _ h => ⟨h.1, h.2, nofun⟩).post fun r g _ h => ?_
      rcases r with _ | _
      exacts [⟨h.1, h.2.holding.locked⟩, ⟨h.1, h.2.holding⟩]
    | inSchema a k => exact spec_loadEntries hF
  · exact meets_return fun _ _ h => h

theorem spec_loadLocked (hF : Lasting F) :
    Runs H i (fun _ => Stopped F i X) (loadLocked H ctx X).run (Stopped F i X) := by
  have hrc : Runs H i (fun r g => Stopped F i X g ∧ ∀ began, r = some began → Holding i X began none g)
      (recheckLoaded X) (Stopped F i X) := by
    refine meets_calm (fun r => (kept_stopped hF).stable.and ?_) fun g _ hg hp => ⟨hg, .refl g, hp, ?_⟩
    · intro g g' j hj hg hg' hm h began hr
      exact kept_holding.stable hj hg hg' hm (h began hr)
    intro began hr
    obtain rfl : g.clock = began := by
      split_ifs at hr
      exact some.inj hr
    exact ⟨hp.2.live, hp.2.lock, hg.invalidatedAt X, nofun⟩
  refine hrc.liftE fun r => ?_
  rcases r with _ | began
  · exact meets_return fun _ _ h => h.1
  refine ((spec_load hF).pre fun _ _ h => ⟨h.1.1, h.2 began rfl⟩).bindE (fun _ => ?_) fun _ _ _ => id
  refine ((meets_calm (Q := fun _ => Stopped F i X) (fun _ => (kept_stopped hF).stable)
    fun g _ hg hp => ?_).lift (Stopped F i X)).post fun r _ _ h => ?_
  · have hcl := calm_markLoaded (g := g) (X := X) began
    exact ⟨hg.markLoaded hp.2.live hp.2.began, hcl, (kept_stopped (H := H) hF).calm hcl hp.stopped⟩
  · rcases r with _ | _ <;> exact h

/-- A load disturbs nothing. -/
theorem spec_ensureLoaded (hF : Lasting F) (hlv : ∀ g, F g → X.Live g) :
    Runs H i (fun _ => F) (ensureLoaded H i ctx X).run F := by
  have hnd : Runs H i (fun _ => F) (needsLoad H ctx X) F := by
    refine meets_calm (fun _ => hF.stable) fun g ha hg hp => ?_
    split_ifs
    · exact ⟨hg, .refl g, hp⟩
    · obtain ⟨hinv, hcl⟩ := hg.beginLoad (hlv g hp) ha
      exact ⟨hinv, hcl, hF.kept (H := H) (i := i) |>.calm hcl hp⟩
  have hlc : Runs H i (fun _ => Stopped F i X) (lockLoad i X) F := by
    refine meets_atomic (fun _ => (kept_stopped hF).stable) fun g input g' b hg hp heq => ?_
    obtain ⟨⟨-, hfr⟩, heq⟩ := ite_none_right_eq_some.1 heq
    obtain ⟨rfl, -⟩ := Prod.mk.inj (some.inj heq)
    have hm : g.Moves i (g.mapSet X ({ · with loadLock := some i })) := moves_mapSet
      ⟨le_rfl, fun _ => ⟨rfl, rfl⟩, fun _ => le_rfl, fun _ _ h => absurd (hfr.symm.trans h) (by simp),
        fun _ _ h => ⟨h, rfl⟩⟩
    refine ⟨hg.mapSet_same (hlv g hp) rfl rfl rfl rfl fun _ => rfl, hm, hF hm hp, lasting_live hm (hlv g hp), ?_⟩
    rw [sets_mapSet_self]
  have hun : Runs H i (fun _ => F) (unlockLoad X) (Stopped F i X) := by
    refine meets_critical (fun _ => hF.stable) fun g _ hg hp => ?_
    have hm : g.Moves i (g.mapSet X ({ · with loadLock := none })) := moves_mapSet
      ⟨le_rfl, fun _ => ⟨rfl, rfl⟩, fun _ => le_rfl,
        fun _ hne h => absurd (some.inj (h.symm.trans hp.2.lock)) hne, fun _ _ h => ⟨h, rfl⟩⟩
    exact ⟨hg.mapSet_same (f := ({ · with loadLock := none })) hp.2.live rfl rfl rfl rfl fun _ => rfl, hm, hF hm hp.1⟩
  refine (hnd.liftE fun needed => ?_)
  rcases needed with _ | _
  · exact meets_return fun _ _ => id
  · exact meets_holding (hlc.lift F) (spec_loadLocked hF) (fun _ => hun) fun _ _ _ h => h

theorem spec_scan : Ends H i (fun r _ => ∀ x ∈ r, c x.1 ≤ x.2.sentAt) (fun _ => True) (scan H i ctx X) (Above X c) := by
  have hls : Runs H i (fun r _ => ∀ x ∈ r, c x.1 ≤ x.2.sentAt) (listed X) (Above X c) :=
    meets_calm (fun _ => Discipline.stable_const _) fun g _ hg hp =>
      ⟨hg, .refl g, fun x hx => (hp.le x.1).trans (hg.entries X hp.live x hx)⟩
  refine Meets.tryE (E := fun _ => True) ?_ fun _ => hls.lift fun _ => True
  refine (spec_ensureLoaded lasting_above fun _ h => h.live).post fun r _ _ h => ?_
  rcases r with _ | _
  exacts [trivial, h]

end Vgi.Catalog
