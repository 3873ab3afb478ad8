import Vgi.Catalog.Load

/-!
# Invalidations are final

Threads look up schemas, tables and views, list them, and invalidate what is known of them, in any interleaving. What
a lookup or a listing yields is not to have been asked for before an invalidation that was over when it began, and a
set is to be marked as loaded only by a load that began after the last invalidation.

A load publishes what it was sent whatever has happened to the set meanwhile (`dropped_view_found`), and so do the
lookup of a view and a new snapshot of the catalog; `DropEntry` leaves the seed; a count of zero is trusted for ever.

* `invalidations_final`: it is so if nothing of this is under way when a set is invalidated.
-/

namespace Vgi.Catalog

open Prog Function List Discipline World

/-! ## The calls -/

/-- What invalidates a set. -/
inductive Change
  | harvestEntries
  | clearEntries
  | harvestEntry (name : Bytes)
  | dropEntry (name : Bytes)

def Change.run (X : SetId) : Change → Program Unit
  | harvestEntries => Catalog.harvestEntries X
  | clearEntries => Catalog.clearEntries X
  | harvestEntry name => Catalog.harvestEntry X name
  | dropEntry name => Catalog.dropEntry X name

/-- What is in a schema is looked up, listed or invalidated through the entry that is found for the schema. -/
inductive CatalogCall
  | getSchema (ctx : Context) (name : Bytes)
  | scanSchemas (ctx : Context)
  | getEntry (ctx : Context) (schema : Bytes) (kind : EntryKind) (name : Bytes)
  | scan (ctx : Context) (schema : Bytes) (kind : EntryKind)
  | change (ctx : Context) (schema : Bytes) (kind : EntryKind) (op : Change)
  | changeSchemas (op : Change)
  | clearCache
  | revalidateContents

/-- What a call has yielded, and the times of the invalidations that were over when it began. -/
structure Answer where
  since : Path → ℕ
  yielded : List (Path × Entry) := []

/-- Nothing is older than an invalidation that was over. -/
def Answer.Current (ans : Answer) : Prop := ∀ y ∈ ans.yielded, ans.since y.1 ≤ y.2.sentAt

/-- The times when a call begins. -/
def begin : Program (Path → ℕ) := critical .locked fun g => (g, g.floor)

def schemaPath (name : Bytes) : Path := ⟨lower name, none⟩

def entryPath (schema : Bytes) (kind : EntryKind) (name : Bytes) : Path := ⟨lower schema, some (kind, lower name)⟩

/-- What is done in the schema, if there is one. -/
def inSchema (H : Host) (i : ℕ) (ctx : Context) (schema : Bytes) (act : ℕ → M (List (Path × Entry))) :
    M (List (Path × Entry)) := do
  match ← getSchema H i ctx schema with
  | none => return []
  | some e => act e.address

def CatalogCall.run (H : Host) (i : ℕ) : CatalogCall → M (List (Path × Entry))
  | getSchema ctx name => do
    let r ← Catalog.getSchema H i ctx name
    return r.toList.map (schemaPath name, ·)
  | scanSchemas ctx => do
    let entries ← Catalog.scan H i ctx .schemas
    return entries.map fun x => (⟨x.1, none⟩, x.2)
  | getEntry ctx schema kind name => inSchema H i ctx schema fun a => do
    let r ← Catalog.getEntry H i ctx a kind name
    return r.toList.map (entryPath schema kind name, ·)
  | scan ctx schema kind => inSchema H i ctx schema fun a => do
    let entries ← Catalog.scan H i ctx (.inSchema a kind)
    return entries.map fun x => (⟨lower schema, some (kind, x.1)⟩, x.2)
  | change ctx schema kind op => inSchema H i ctx schema fun a => do
    op.run (.inSchema a kind)
    return []
  | changeSchemas op => do
    op.run .schemas
    return []
  | clearCache => do
    Catalog.clearCache none
    return []
  | revalidateContents => do
    Catalog.revalidateContents i
    return []

def CatalogCall.main (H : Host) (i : ℕ) (call : CatalogCall) : Program (Except Unit Answer) := do
  let since ← begin
  let r ← (call.run H i).run
  return r.map fun yielded => { since, yielded }

/-- The threads that use the catalog. -/
def catalogThreads (H : Host) := threads (CatalogCall.main H)

/-- Nothing is under way that an invalidation comes too late for. -/
abbrev quiet (H : Host) : Threads.Rule World (CatalogCall × Program (Except Unit Answer)) CatalogCall Input where
  spawn _ _ := True
  step g i _ input := g.Quiet H i input

instance (g : World) (X : SetId) : Decidable (X.Sole g) := by
  rcases X <;> infer_instance

instance (X : SetId) (g : World) : Decidable (g.Still X) :=
  decidable_of_iff' _ (World.still_iff X g)

instance (H : Host) (i : ℕ) (g : World) : DecidablePred (g.Quiet H i) := fun input => by
  rcases input <;> infer_instance

variable {H : Host} {i a : ℕ} {ctx : Context} {X : SetId} {k : EntryKind} {name : Bytes} {c : Bytes → ℕ}
  {F : World → Prop} {g : World}

/-! ## Views -/

/-- The thread is about to publish a view, and what it publishes is not too old. -/
theorem spec_publishView {t : EntryInfo} {sentAt : ℕ} :
    Runs H i (fun r _ => Recent c name r) (publishView i (.inSchema a k) name (buildEntry t sentAt))
      fun g => Above (.inSchema a k) c g ∧ Fetching i (.inSchema a k) sentAt g := by
  refine meets_critical (fun _ => stable_const _) fun g _ hg hp => ?_
  obtain ⟨hab, hft⟩ := hp
  have her : ∀ j, j ≠ i → j ∈ (g.sets (.inSchema a k)).fetching → j ∈ (g.sets (.inSchema a k)).fetching.erase i :=
    fun j hj hmem => (mem_erase_of_ne hj).2 hmem
  rcases hfn : (g.sets (.inSchema a k)).find name with _ | e <;> dsimp only
  · refine ⟨hg.mapSet hab.live rfl rfl (fun x hx => ?_) (fun m hm => .inl (mem_of_mem_filter hm))
      nofun, moves_mapSet ⟨Nat.le_succ _, fun _ => ⟨rfl, rfl⟩, fun _ => le_rfl,
        fun _ _ h => ⟨h, rfl, rfl⟩, fun j hj hmem => ⟨her j hj hmem, rfl⟩⟩,
        recent_some ((hab.le _).trans (hft.sent _))⟩
    rcases mem_cons.1 hx with rfl | hx
    exacts [.inr ⟨hft.sent _, by simp⟩, .inl hx]
  · exact ⟨hg.mapSet hab.live rfl rfl (fun x hx => .inl hx) (fun m hm => .inl (mem_of_mem_filter hm))
      nofun, moves_mapSet ⟨le_rfl, fun _ => ⟨rfl, rfl⟩, fun _ => le_rfl,
        fun _ _ h => ⟨h, rfl, rfl⟩, fun j hj hmem => ⟨her j hj hmem, rfl⟩⟩, hfn ▸ hg.find hab⟩

/-- A reply for a view: it is about to be published, if it can be. -/
def Replied (H : Host) (i : ℕ) (X : SetId) (c : Bytes → ℕ) (preGen : ℕ) (r : Option EntryInfo × ℕ) (g : World) : Prop :=
  Above X c g ∧ Pinned X preGen (some r.2) g ∧ (r.1.any H.parses = true → Fetching i X r.2 g)

theorem spec_requestView {preGen : ℕ} :
    Ends H i (Replied H i (.inSchema a k) c preGen) (fun _ => True) (requestView H i (.inSchema a k) name)
      fun g => Above (.inSchema a k) c g ∧ Pinned (.inSchema a k) preGen none g := by
  refine meets_allowed (fun r => ?_) fun g input g' r _ hg hp heq => ?_
  · rcases r with _ | r
    · exact stable_const True
    · exact lasting_above.stable.and (lasting_pinned.stable.and (Discipline.Stable.imp fun _ => stable_fetching))
  · obtain ⟨hab, began, hat⟩ := hp
    cases input with
    | fetched n reply =>
      obtain ⟨rfl, hf⟩ := Option.ite_none_right_eq_some.1 heq
      cases hf
      have hpn : Pinned (.inSchema a k) preGen (some g.clock) g := ⟨began, hg.atGen_sent hat⟩
      split_ifs with hpr
      · have hm : g.Moves i (g.mapSet (.inSchema a k) fun s => { s with fetching := i :: s.fetching }) :=
          moves_mapSet ⟨le_rfl, fun _ => ⟨rfl, rfl⟩, fun _ => le_rfl, fun _ _ h => ⟨h, rfl, rfl⟩,
            fun _ _ h => ⟨mem_cons_of_mem i h, rfl⟩⟩
        refine ⟨hg.mapSet_same hab.live rfl rfl rfl rfl fun h => (by cases h), hm, lasting_above hm hab,
          lasting_pinned hm hpn, fun _ => ⟨lasting_live hm hab.live, ?_, fun n => ?_⟩⟩
        · rw [sets_mapSet_self]
          exact mem_cons_self
        · rw [bound_mapSet rfl]
          exact hg.bound_le_clock hab.live n
      · exact ⟨hg, .refl i g, hab, hpn, fun h => absurd h hpr⟩
    | failed =>
      cases heq
      exact ⟨hg, .refl i g, trivial⟩
    | _ => cases heq

theorem spec_fetchView {preGen : ℕ} :
    Ends H i (fun r _ => Recent c name r) (fun _ => True) (fetchView H i a name preGen)
      fun g => Above (.inSchema a .view) c g ∧ Pinned (.inSchema a .view) preGen none g := by
  rw [fetchView]
  split_ifs
  · refine spec_requestView.tryE fun r => ?_
    obtain ⟨_ | t, sentAt⟩ := r
    · exact (spec_cacheMissing.pre fun _ _ hp => hp.2.1).liftE fun _ => meets_return fun _ _ _ => recent_none
    · dsimp only
      split_ifs with hpr
      · exact (spec_publishView.pre fun _ _ h => ⟨h.1, h.2.2 hpr⟩).lift fun _ => True
      · exact meets_return fun _ _ _ => recent_none
  · exact meets_return fun _ _ _ => recent_none

theorem spec_getView :
    Ends H i (fun r _ => Recent c name r) (fun _ => True) (getView H i ctx a name) (Above (.inSchema a .view) c) := by
  refine spec_look.liftE fun gl => ?_
  rcases gl with r | ⟨eager, preGen, began⟩
  · exact meets_return fun _ _ h => h.2
  refine Meets.tryE (R := Rechecked (.inSchema a .view) c name) (E := fun _ => True) ?_ fun r => ?_
  · split_ifs
    · refine Meets.tryE (E := fun _ => True) ?_ fun _ => spec_recheck.lift fun _ => True
      refine ((spec_ensureLoaded lasting_above fun _ h => h.live).pre fun _ _ h => h.1).post fun r _ _ h => ?_
      rcases r with _ | _
      exacts [trivial, h]
    · exact meets_return fun _ _ h => ⟨h.1, ⟨began, h.2⟩, recent_none⟩
  · obtain ⟨_ | e, gen⟩ := r
    · exact spec_fetchView.pre fun _ _ h => ⟨h.1, h.2.1⟩
    · exact meets_return fun _ _ h => h.2.2

/-! ## Schemas -/

variable {σ : Path → ℕ}

/-- The schema entry that is found is not too old, and neither will be what is found in it. -/
def FoundSchema (σ : Path → ℕ) (name : Bytes) (r : Option Entry) (g : World) : Prop :=
  ∀ e, r = some e → σ (schemaPath name) ≤ e.sentAt ∧
    ∀ k, Above (.inSchema e.address k) (fun n => σ ⟨lower name, some (k, n)⟩) g

theorem lasting_foundSchema (r : Option Entry) : Lasting (FoundSchema σ name r) :=
  fun _ _ _ hm h e he => ⟨(h e he).1, fun k => lasting_above hm ((h e he).2 k)⟩

theorem World.Inv.above_schemas (hg : g.Inv) (h : Begun σ g) : Above .schemas (fun n => σ ⟨n, none⟩) g :=
  ⟨trivial, fun n => (h ⟨n, none⟩).trans (hg.schemaFloor n).le⟩

theorem World.Inv.foundSchema (hg : g.Inv) (h : Begun σ g) : FoundSchema σ name ((g.sets .schemas).find name) g := by
  intro e he
  have hsc := hg.schemas _ (EntrySet.mem_of_find he)
  exact ⟨hg.find (hg.above_schemas h) e he, fun k => ⟨hsc.live, fun n => (h _).trans (hsc.floor k n)⟩⟩

theorem foundSchema_none : FoundSchema σ name none g := fun e he => by cases he

theorem spec_getSchema : Ends H i (FoundSchema σ name) (fun _ => True) (getSchema H i ctx name) (Begun σ) := by
  have hlk : Runs H i (fun r g => Begun σ g ∧ ∀ found, r = some found → FoundSchema σ name found g)
      (lookSchema H ctx name) (Begun σ) := by
    refine meets_calm (fun r => lasting_begun.stable.and ?_) fun g ha hg hp => ?_
    · exact Lasting.stable fun _ _ _ hm h found hr => lasting_foundSchema found hm (h found hr)
    have hfnd : FoundSchema σ name ((g.sets .schemas).find name) g := hg.foundSchema hp
    rcases hfn : (g.sets .schemas).find name with _ | e
    · obtain ⟨hinv, hcl⟩ := hg.beginLoad (X := .schemas) trivial ha
      have hbg := lasting_begun (hcl.moves i) hp
      generalize beginLoad H .schemas ctx.trustEmptyKinds g = begun at hinv hcl hbg ⊢
      obtain ⟨g', _ | _⟩ := begun
      · refine ⟨hinv, hcl, hbg, fun found hr => ?_⟩
        cases hr
        exact foundSchema_none
      · exact ⟨hinv, hcl, hbg, nofun⟩
    · refine ⟨hg, .refl g, hp, fun found hr => ?_⟩
      cases hr
      rwa [hfn] at hfnd
  have hrc : Runs H i (fun r => FoundSchema σ name r.1) (recheck .schemas name) (Begun σ) :=
    meets_calm (fun r => (lasting_foundSchema r.1).stable) fun g _ hg hp => ⟨hg, .refl g, hg.foundSchema hp⟩
  refine hlk.liftE fun r => ?_
  rcases r with _ | found
  · refine Meets.tryE (R := fun _ => Begun σ) (E := fun _ => True) ?_ fun _ => ?_
    · refine ((spec_ensureLoaded (X := .schemas) lasting_begun fun _ _ => trivial).pre fun _ _ h => h.1).post
        fun r _ _ h => ?_
      rcases r with _ | _
      exacts [trivial, h]
    · exact hrc.liftE fun _ => meets_return fun _ _ => id
  · exact meets_return fun _ _ h => h.2 found rfl

/-! ## Invalidations -/

/-- An invalidation has begun. -/
def Started (X : SetId) (began : ℕ) (g : World) : Prop := X.Live g ∧ began ≤ g.clock

theorem lasting_started {began : ℕ} : Lasting (Started X began) :=
  fun _ _ _ hm h => ⟨lasting_live hm h.1, h.2.trans hm.clock⟩

theorem spec_discardSeed : Runs H i (fun began => Started X began) (discardSeed X) fun g => X.Live g := by
  refine meets_critical (fun _ => lasting_started.stable) fun g _ hg hX => ?_
  cases X with
  | schemas => exact ⟨hg.tick, .of_tick (.refl i g.tick), trivial, le_rfl⟩
  | inSchema a k => exact ⟨hg.tick.takeSeed a k, .of_tick (moves_takeSeed a k), hX, le_rfl⟩

/-- A step that invalidates, with nothing under way that it comes too late for. -/
theorem World.Still.invalidate (hst : g.Still X) (hg : g.Inv) (hX : X.Live g) {scope : Option Bytes} {began : ℕ}
    (hbg : began ≤ g.clock) {f : EntrySet → EntrySet} (hf : (g.sets X).Removes scope (f (g.sets X))) :
    (g.invalidate X scope began f).Inv ∧ g.Moves i (g.invalidate X scope began f) := by
  refine ⟨hg.invalidate hf hX hbg hst.seed hst.sole fun c hc => ?_,
    moves_invalidate hf hst.load hst.schemas hst.fetching fun r hr => ?_⟩
  · exact absurd (hst.pending.symm.trans hc) (by simp)
  · exact absurd (hst.revalidating ▸ hr) not_mem_nil

theorem World.Still.tick (h : g.Still X) : g.tick.Still X := by
  refine { h with sole := ?_ }
  cases X with
  | schemas => trivial
  | inSchema a k => exact h.sole

theorem spec_change (op : Change) : Runs H i (fun _ _ => True) (op.run X) fun g => X.Live g := by
  have hinv : ∀ {scope : Option Bytes} {f : EntrySet → EntrySet} began,
      (∀ s, EntrySet.Removes scope s (f s)) → Runs H i (fun _ _ => True)
        (critical (.invalidate X) fun g => (g.invalidate X scope began f, ())) (Started X began) := fun began hf =>
    meets_critical (fun _ => stable_const True) fun g ha hg hp =>
      have h := Still.invalidate ha hg hp.1 hp.2 (hf (g.sets X))
      ⟨h.1, h.2, trivial⟩
  cases op with
  | harvestEntries => exact spec_discardSeed.bind fun began => hinv began fun _ => EntrySet.removes_clear
  | clearEntries => exact spec_discardSeed.bind fun began => hinv began fun _ => EntrySet.removes_clear
  | harvestEntry n => exact spec_discardSeed.bind fun began => hinv began fun _ => EntrySet.removes_harvest n
  | dropEntry n =>
    refine meets_critical (fun _ => stable_const True) fun g ha hg hX => ?_
    have hX' : X.Live g.tick := by
      cases X with
      | schemas => trivial
      | inSchema a k => exact hX
    have h := Still.invalidate (i := i) (f := (·.drop n)) (Still.tick ha) hg.tick hX' le_rfl (EntrySet.removes_drop n)
    exact ⟨h.1, h.2.of_tick, trivial⟩

/-- The cache is cleared; a snapshot that is to be handed over afterwards is not too old. -/
theorem spec_clearCache (began : Option ℕ) :
    Runs H i (fun _ g => ∀ b, began = some b → Revalidating i b g) (clearCache began)
      fun g => ∀ b, began = some b → Revalidating i b g := by
  have hst : (discipline H).Stable i fun g => ∀ b, began = some b → Revalidating i b g :=
    fun g g' j hj hg hg' hm h b hb => kept_revalidating.stable hj hg hg' hm (h b hb)
  have hpn : Runs H i (fun b g => (∀ b', began = some b' → Revalidating i b' g) ∧ Clearing i b g ∧
      ∀ b', began = some b' → b' = b) (clearPending began) fun g => ∀ b, began = some b → Revalidating i b g := by
    refine meets_critical (fun b => hst.and (stable_clearing.and (stable_const _))) fun g ha hg hp => ?_
    have hot : ∀ r ∈ g.revalidating, r.1 ≠ i → ∀ b, b ≤ r.2 := fun r hr hne => absurd (ha r hr) hne
    rcases began with _ | b
    · have hinv : { g.tick with pending := none }.Inv :=
        { hg.tick with
          schemas := fun x hx => { hg.schemas x hx with }
          pending := fun c hc => by cases hc }
      refine ⟨hinv, Moves.of_tick { Moves.refl i g.tick with pending := fun c hc => by cases hc },
        fun b hb => (by cases hb), ⟨le_rfl, fun c hc => (by cases hc), fun r hr hne => hot r hr hne _⟩,
        nofun⟩
    · have hinv : { g with pending := none }.Inv :=
        { hg with
          schemas := fun x hx => { hg.schemas x hx with }
          pending := fun c hc => by cases hc }
      have hb := hp b rfl
      refine ⟨hinv, { Moves.refl i g with pending := fun c hc => by cases hc }, fun b' hb' => ?_,
        ⟨hg.revalidating _ hb.mem, fun c hc => (by cases hc), fun r hr hne => hot r hr hne _⟩, fun b' hb' => ?_⟩
      · cases hb'
        exact { hb with }
      · exact (Option.some.inj hb').symm
  refine hpn.bind fun b => ?_
  refine meets_critical (fun _ => hst) fun g ha hg hp => ?_
  obtain ⟨hrv, hcl, hbg⟩ := hp
  have hf := EntrySet.removes_clear (s := g.sets .schemas)
  refine ⟨hg.invalidate hf trivial hcl.clock rfl trivial hcl.pending,
    moves_invalidate hf ha ha hg.views hcl.revalidating, fun b' hb' => ?_⟩
  obtain rfl := hbg b' hb'
  refine ⟨(hrv b' hb').mem, fun p => ?_⟩
  change (if g.covers .schemas none p then max (g.floor p) b' else g.floor p) ≤ b'
  split_ifs
  exacts [max_le ((hrv b' hb').floor p) le_rfl, (hrv b' hb').floor p]

theorem spec_handOver (reply : Contents × ℕ) (current : Bool) :
    Runs H i (fun _ _ => True) (handOver i reply current) (Revalidating i reply.2) := by
  refine meets_critical (fun _ => stable_const True) fun g _ hg hp => ?_
  refine ⟨{ hg with
      schemas := fun x hx => { hg.schemas x hx with }
      pending := fun c hc => ?_
      revalidating := fun r hr => hg.revalidating r (mem_of_mem_erase hr) },
    { Moves.refl i g with
      revalidating := fun r hr hne => ⟨(mem_erase_of_ne fun h => hne (congrArg Prod.fst h)).2 hr, id⟩
      started := fun r hr => .inl (mem_of_mem_erase hr)
      pending := fun c hc => ?_ }, trivial⟩
  · rcases current with _ | _
    · exact hg.pending c hc
    · cases hc
      exact ⟨hg.revalidating _ hp.mem, hp.floor⟩
  · rcases current with _ | _
    · exact .inl hc
    · cases hc
      exact .inr hp.mem

theorem spec_revalidateContents : Runs H i (fun _ _ => True) (revalidateContents i) fun _ => True := by
  have htr : Kept H i fun _ => True := (lasting_const True).kept
  have hreq : Runs H i (fun r g => ∀ c, r = some c → c.1.notModified = false → Revalidating i c.2 g)
      (requestRevalidation i) fun _ => True := by
    refine meets_allowed (fun r => ?_) fun g input g' r _ hg _ heq => ?_
    · exact fun g g' j hj hg hg' hm h c hc hmod => kept_revalidating.stable hj hg hg' hm (h c hc hmod)
    cases input with
    | contents reply =>
      cases heq
      split_ifs with hmod
      · refine ⟨hg, .refl i g, fun c hc hmod' => ?_⟩
        cases hc
        exact absurd hmod (Bool.eq_false_iff.1 hmod')
      · refine ⟨{ hg with
            schemas := fun x hx => { hg.schemas x hx with }
            revalidating := fun r hr => ?_ },
          { Moves.refl i g with
            revalidating := fun r hr _ => ⟨mem_cons_of_mem _ hr, id⟩
            started := fun r hr => ?_ }, fun c hc _ => ?_⟩
        · rcases mem_cons.1 hr with rfl | hr
          exacts [le_rfl, hg.revalidating r hr]
        · rcases mem_cons.1 hr with rfl | hr
          exacts [.inr le_rfl, .inl hr]
        · cases hc
          exact ⟨mem_cons_self, hg.floor⟩
    | failed =>
      cases heq
      exact ⟨hg, .refl i g, nofun⟩
    | _ => cases heq
  refine hreq.bind fun r => ?_
  rcases r with _ | reply
  · exact (spec_forgetEtag htr).pre fun _ _ _ => trivial
  dsimp only
  split_ifs with hmod
  · exact ((spec_adopt htr _).pre fun _ _ _ => trivial).bind fun _ => meets_pure fun _ _ _ => trivial
  have had := spec_adopt (H := H) (P := Revalidating i reply.2) kept_revalidating reply.1.catalogVersion
  refine (had.pre fun _ _ h => h reply rfl (Bool.eq_false_iff.2 hmod)).bind fun current => ?_
  refine ((spec_clearCache (some reply.2)).pre fun _ _ h b hb => ?_).bind fun _ =>
    (spec_handOver reply current).pre fun _ _ h => h reply.2 rfl
  cases hb
  exact h

/-! ## All calls -/

/-- What is yielded is not too old. -/
def Current (σ : Path → ℕ) (yielded : List (Path × Entry)) : Prop := ∀ y ∈ yielded, σ y.1 ≤ y.2.sentAt

theorem current_toList {p : Path} {r : Option Entry} (h : ∀ e, r = some e → σ p ≤ e.sentAt) :
    Current σ (r.toList.map (p, ·)) := by
  intro y hy
  obtain ⟨e, he, rfl⟩ := List.mem_map.1 hy
  exact h e (Option.mem_toList.1 he)

theorem spec_inSchema {act : ℕ → M (List (Path × Entry))}
    (h : ∀ a, Ends H i (fun r _ => Current σ r) (fun _ => True) (act a)
      fun g => ∀ k, Above (.inSchema a k) (fun n => σ ⟨lower name, some (k, n)⟩) g) :
    Ends H i (fun r _ => Current σ r) (fun _ => True) (inSchema H i ctx name act) (Begun σ) := by
  refine spec_getSchema.tryE fun r => ?_
  rcases r with _ | e
  · exact meets_return nofun
  · exact (h e.address).pre fun _ _ hfn => (hfn e rfl).2

/-- A program that yields nothing. -/
theorem meets_unit {p : Program Unit} {P : World → Prop} (h : Runs H i (fun _ _ => True) p P) :
    Ends H i (fun r _ => Current σ r) (fun _ => True) (do ExceptT.lift p; return [] : M (List (Path × Entry))) P :=
  h.liftE fun _ => meets_return fun _ _ _ _ hy => absurd hy not_mem_nil

theorem spec_getEntry :
    Ends H i (fun r _ => Recent c name r) (fun _ => True) (getEntry H i ctx a k name) (Above (.inSchema a k) c) := by
  cases k with
  | table => exact spec_getTable
  | view => exact spec_getView

theorem spec_run (call : CatalogCall) : Ends H i (fun r _ => Current σ r) (fun _ => True) (call.run H i) (Begun σ) := by
  cases call with
  | getSchema ctx name =>
    exact spec_getSchema.tryE fun r => meets_return fun _ _ h => current_toList fun e he => (h e he).1
  | scanSchemas ctx =>
    refine (spec_scan.pre fun g hg h => Inv.above_schemas hg h).tryE fun r => meets_return fun _ _ h y hy => ?_
    obtain ⟨x, hx, rfl⟩ := List.mem_map.1 hy
    exact h x hx
  | getEntry ctx schema kind name =>
    rw [CatalogCall.run]
    refine spec_inSchema fun a => ?_
    refine (spec_getEntry.pre fun _ _ h => h kind).tryE fun r => ?_
    exact meets_return fun _ _ h => current_toList h
  | scan ctx schema kind =>
    rw [CatalogCall.run]
    refine spec_inSchema fun a => ?_
    refine (spec_scan.pre fun _ _ h => h kind).tryE fun r => meets_return fun _ _ h y hy => ?_
    obtain ⟨x, hx, rfl⟩ := List.mem_map.1 hy
    exact h x hx
  | change ctx schema kind op =>
    exact spec_inSchema fun a => meets_unit ((spec_change op).pre fun _ _ h => (h kind).live)
  | changeSchemas op => exact meets_unit ((spec_change op).pre fun _ _ _ => trivial)
  | clearCache =>
    exact meets_unit (((spec_clearCache none).pre fun _ _ _ b hb => by cases hb).post fun _ _ _ _ => trivial)
  | revalidateContents => exact meets_unit (spec_revalidateContents.pre fun _ _ _ => trivial)

theorem spec_main (i : ℕ) (call : CatalogCall) : Runs H i
    (fun r _ => ∀ ans, r = .ok ans → ans.Current) (call.main H i) fun _ => True := by
  have hbg : Runs H i Begun begin fun _ => True :=
    meets_calm (fun _ => lasting_begun.stable) fun g _ hg _ => ⟨hg, .refl g, fun _ => le_rfl⟩
  refine hbg.bind fun σ => (spec_run call).bind fun r => meets_pure fun _ _ h ans han => ?_
  rcases r with _ | yielded
  · cases han
  · cases han
    exact h

theorem World.inv_start (version : ℤ) : Inv { knownVersion := version } where
  entries _ _ _ hx := absurd hx not_mem_nil
  missing _ _ hm := absurd hm not_mem_nil
  since _ _ := le_rfl
  invalidatedAt _ := le_rfl
  floor _ := le_rfl
  sent _ ha := absurd ha (Nat.not_lt_zero _)
  seed _ _ ha := absurd ha (Nat.not_lt_zero _)
  schemas _ hx := absurd hx not_mem_nil
  schemaFloor _ := rfl
  pending _ hc := by cases hc
  revalidating _ hr := absurd hr not_mem_nil
  marks _ hm := absurd hm not_mem_nil
  fresh _ _ _ := rfl
  views := rfl

/-- In every interleaving in which nothing is under way that an invalidation comes too late for: what lookups and
    listings yield was asked for after the invalidations that were over when they began, sets are marked as loaded only
    by loads that began after the last invalidation, and no absence is remembered from before. -/
theorem invalidations_final {H : Host} {version : ℤ} {acts : List (Threads.Act CatalogCall Input)}
    {s : Threads.Config World (CatalogCall × Program (Except Unit Answer))}
    (hquiet : (catalogThreads H).machine.Along (quiet H).At ⟨{ knownVersion := version }, []⟩ acts)
    (hrun : (catalogThreads H).machine.run ⟨{ knownVersion := version }, []⟩ acts = some s) :
    (∀ (i : ℕ) (call : CatalogCall) (ans : Answer), s.locals[i]? = some (call, .ret (.ok ans)) → ans.Current) ∧
      (∀ m ∈ s.shared.marks, m.invalidatedAt ≤ m.began) ∧
      ∀ X, ∀ m ∈ (s.shared.sets X).missing, (s.shared.sets X).since m.1 ≤ m.2 := by
  obtain ⟨hinv, hlc⟩ := run_meets (fun i call _ => spec_main i call)
    (inv_start version) hquiet hrun
  exact ⟨fun i call ans h => hlc i call _ h ans rfl, hinv.marks, hinv.missing⟩

/-! ## A dropped view -/

/-- The schemas are listed, and nothing comes with them. -/
def listing : Host where attachResult := some { supportsCatalogContents := false }

def views : SetId := .inSchema 0 .view

/-- Views of the schema `s` are listed. The schemas are loaded, and the request for the views is answered. -/
def listViews : List (Threads.Act CatalogCall Input) :=
  [.spawn (.scan {} (ascii "s") .view), .step 0 .locked, .step 0 (.look .schemas true), .step 0 (.look .schemas true),
    .step 0 .locked, .step 0 .locked, .step 0 (.schemas [{ name := ascii "s" }]), .step 0 .locked, .step 0 .locked,
    .step 0 .locked, .step 0 .locked, .step 0 (.look views true), .step 0 .locked, .step 0 .locked, .step 0 .locked,
    .step 0 (.listing [{ name := ascii "v" }])]

/-- The entry of the view is made, the set is marked as loaded, and listed. -/
def publishViews : List (Threads.Act CatalogCall Input) :=
  [.step 0 .locked, .step 0 .locked, .step 0 .locked, .step 0 .locked]

def dropView : List (Threads.Act CatalogCall Input) :=
  [.spawn (.change {} (ascii "s") .view (.dropEntry (ascii "v"))), .step 1 .locked, .step 1 (.look .schemas true),
    .step 1 (.invalidate views)]

def lookUpView : List (Threads.Act CatalogCall Input) :=
  [.spawn (.getEntry {} (ascii "s") .view (ascii "v")), .step 2 .locked, .step 2 (.look .schemas true),
    .step 2 (.look views true)]

theorem invalidations_final_listed : ∃ s ans, (catalogThreads listing).machine.run ⟨{}, []⟩
      (listViews ++ publishViews ++ dropView ++ lookUpView) = some s ∧ s.locals[0]? =
        some (.scan {} (ascii "s") .view, .ret (.ok ans)) ∧ ans.yielded.length = 1 ∧ ans.Current := by
  have hqt : (catalogThreads listing).machine.Along (quiet listing).At ⟨{}, []⟩
      (listViews ++ publishViews ++ dropView ++ lookUpView) := by decide +kernel
  exact ⟨_, _, rfl, rfl, rfl, (invalidations_final hqt rfl).1 0 _ _ rfl⟩

/-- The view is dropped while the views are listed, and is found afterwards. It was asked for before the drop. The set
    is marked as loaded as well. -/
theorem dropped_view_found : ∃ s e ans, (catalogThreads listing).machine.run ⟨{}, []⟩
      (listViews ++ dropView ++ publishViews ++ lookUpView) = some s ∧
    s.locals[2]? = some (.getEntry {} (ascii "s") .view (ascii "v"), .ret (.ok ans)) ∧
    ans.yielded = [(entryPath (ascii "s") .view (ascii "v"), e)] ∧
    e.sentAt < ans.since (entryPath (ascii "s") .view (ascii "v")) ∧
    ∃ m ∈ s.shared.marks, m.began < m.invalidatedAt :=
  ⟨_, _, _, rfl, rfl, rfl, by decide, _, mem_cons_self, by decide⟩

end Vgi.Catalog
