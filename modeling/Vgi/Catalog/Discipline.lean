import Vgi.Catalog.Set

/-!
# What the catalog sets keep

The threads of the catalog keep an invariant (`World.Inv`): an entry is not older than the last invalidation that
covers it, a set was loaded by a load that began after the last invalidation, and what is not published yet, as the
seed of a schema or a snapshot that was handed over, is not older either. Each step is one of those that the others
can rely on (`World.Moves`). This is so if every step meets a condition (`World.Quiet`), which is about the steps that
invalidate something: no load of the set and none of the schemas is going on then, no view is about to be published
and no snapshot about to be handed over.
-/

namespace Vgi.Catalog

open Prog Function List EntrySet

/-! ## The condition -/

/-- No other entry for the same schema is in use. -/
abbrev SetId.Sole (g : World) : SetId → Prop
  | .schemas => True
  | .inSchema a _ => ∀ x ∈ (g.sets .schemas).entries, x.1 = lower (g.schemaAt a).info.name → x.2.address = a

/-- Nothing is under way that an invalidation of the set comes too late for. -/
@[mk_iff] structure World.Still (X : SetId) (g : World) : Prop where
  load : (g.sets X).loadLock = none
  schemas : (g.sets .schemas).loadLock = none
  fetching : (g.sets X).fetching = []
  seed : g.hasSeed X = false
  pending : g.pending = none
  revalidating : g.revalidating = []
  sole : X.Sole g

/-- The condition on a step of the thread. A set that has been invalidated is not taken to be empty because of a count
    from before. -/
abbrev World.Quiet (H : Host) (i : ℕ) (g : World) : Input → Prop
  | .look X trust => (g.resolve H X).shouldBypassRpc X trust = true → (g.sets X).invalidatedAt = 0
  | .invalidate X => g.Still X
  | .clearPending => ∀ r ∈ g.revalidating, r.1 = i
  | .clear => (g.sets .schemas).loadLock = none
  | _ => True

/-! ## The invariant -/

/-- The set is that of the schemas, or of a schema entry that has been made. -/
def SetId.Live (g : World) : SetId → Prop
  | .schemas => True
  | .inSchema a _ => a < g.nextAddress

/-- What is in a set under this name is not older than this. -/
def World.bound (g : World) : SetId → Bytes → ℕ
  | .schemas, n => (g.sets .schemas).since n
  | .inSchema a k, n => max ((g.sets (.inSchema a k)).since n) (g.schemaAt a).sentAt

/-- The entry is that of a schema. What is found there is not older than the last invalidation. -/
structure World.IsSchema (g : World) (x : Bytes × Entry) : Prop where
  live : x.2.address < g.nextAddress
  name : lower (g.schemaAt x.2.address).info.name = x.1
  sent : (g.schemaAt x.2.address).sentAt = x.2.sentAt
  floor : ∀ k n, g.floor ⟨x.1, some (k, n)⟩ ≤ g.bound (.inSchema x.2.address k) n

structure World.Inv (g : World) : Prop where
  entries : ∀ X, X.Live g → ∀ x ∈ (g.sets X).entries, g.bound X x.1 ≤ x.2.sentAt
  missing : ∀ X, ∀ m ∈ (g.sets X).missing, (g.sets X).since m.1 ≤ m.2
  since : ∀ X n, (g.sets X).since n ≤ g.clock
  invalidatedAt : ∀ X, (g.sets X).invalidatedAt ≤ g.clock
  floor : ∀ p, g.floor p ≤ g.clock
  sent : ∀ a, a < g.nextAddress → (g.schemaAt a).sentAt ≤ g.clock
  seed : ∀ a k, a < g.nextAddress → g.hasSeed (.inSchema a k) = true →
    ∀ n, (g.sets (.inSchema a k)).since n ≤ (g.schemaAt a).sentAt
  schemas : ∀ x ∈ (g.sets .schemas).entries, g.IsSchema x
  schemaFloor : ∀ s, g.floor ⟨s, none⟩ = (g.sets .schemas).since s
  pending : ∀ c, g.pending = some c → c.2 ≤ g.clock ∧ ∀ p, g.floor p ≤ c.2
  revalidating : ∀ r ∈ g.revalidating, r.2 ≤ g.clock
  marks : ∀ m ∈ g.marks, m.invalidatedAt ≤ m.began
  /-- There is nothing in the sets of schema entries that are still to be made. -/
  fresh : ∀ a k, g.nextAddress ≤ a → g.sets (.inSchema a k) = {}
  views : (g.sets .schemas).fetching = []

/-! ## The steps -/

/-- A step of thread `j` on a set. Those that load the set, or are about to publish a view, are not disturbed. -/
structure EntrySet.Moves (j : ℕ) (s s' : EntrySet) : Prop where
  generation : s.generation ≤ s'.generation
  same : s'.generation = s.generation → s'.since = s.since ∧ s'.invalidatedAt = s.invalidatedAt
  since : ∀ n, s.since n ≤ s'.since n
  lock : ∀ i, i ≠ j → s.loadLock = some i →
    s'.loadLock = some i ∧ s'.since = s.since ∧ s'.invalidatedAt = s.invalidatedAt
  fetch : ∀ i, i ≠ j → i ∈ s.fetching → i ∈ s'.fetching ∧ s'.since = s.since

/-- A step of thread `j`. -/
structure World.Moves (j : ℕ) (g g' : World) : Prop where
  clock : g.clock ≤ g'.clock
  address : g.nextAddress ≤ g'.nextAddress
  schemaAt : ∀ a, a < g.nextAddress →
    (g'.schemaAt a).sentAt = (g.schemaAt a).sentAt ∧ (g'.schemaAt a).info = (g.schemaAt a).info
  sets : ∀ X, (g.sets X).Moves j (g'.sets X)
  floor : ∀ p, g.floor p ≤ g'.floor p
  /-- Who loads the schemas, or has a snapshot to hand over, has nothing that is too old for it. -/
  loading : ∀ i, i ≠ j → (g.sets .schemas).loadLock = some i → g'.floor = g.floor
  revalidating : ∀ r ∈ g.revalidating, r.1 ≠ j →
    r ∈ g'.revalidating ∧ ((∀ p, g.floor p ≤ r.2) → ∀ p, g'.floor p ≤ r.2)
  started : ∀ r ∈ g'.revalidating, r ∈ g.revalidating ∨ g.clock ≤ r.2
  pending : ∀ c, g'.pending = some c → g.pending = some c ∨ (j, c.2) ∈ g.revalidating

variable {g : World} {X : SetId} {i j : ℕ}

theorem EntrySet.Moves.refl (j : ℕ) (s : EntrySet) : s.Moves j s :=
  ⟨le_rfl, fun _ => ⟨rfl, rfl⟩, fun _ => le_rfl, fun _ _ h => ⟨h, rfl, rfl⟩, fun _ _ h => ⟨h, rfl⟩⟩

theorem World.Moves.refl (j : ℕ) (g : World) : g.Moves j g :=
  ⟨le_rfl, le_rfl, fun _ _ => ⟨rfl, rfl⟩, fun X => .refl j (g.sets X), fun _ => le_rfl, fun _ _ _ => rfl,
    fun _ hr _ => ⟨hr, id⟩, fun _ hr => .inl hr, fun _ hc => .inl hc⟩

variable {g' : World}

/-- A step that begins an invalidation as well. -/
theorem World.Moves.of_tick (h : g.tick.Moves j g') : g.Moves j g' :=
  { h with
    clock := (Nat.le_succ g.clock).trans h.clock
    started := fun r hr => (h.started r hr).imp_right fun hc => (Nat.le_succ g.clock).trans hc }

/-- A change of a set that is not an invalidation, and does not concern the locks. -/
structure EntrySet.Tame (s s' : EntrySet) : Prop where
  generation : s.generation ≤ s'.generation
  since : s'.since = s.since
  invalidatedAt : s'.invalidatedAt = s.invalidatedAt
  loadLock : s'.loadLock = s.loadLock
  fetching : s'.fetching = s.fetching

namespace EntrySet

variable {s s' s'' : EntrySet}

theorem Tame.refl (s : EntrySet) : s.Tame s := ⟨le_rfl, rfl, rfl, rfl, rfl⟩

theorem Tame.trans (h : s.Tame s') (h' : s'.Tame s'') : s.Tame s'' :=
  ⟨h.generation.trans h'.generation, h'.since.trans h.since, h'.invalidatedAt.trans h.invalidatedAt,
    h'.loadLock.trans h.loadLock, h'.fetching.trans h.fetching⟩

theorem Tame.moves (h : s.Tame s') (j : ℕ) : s.Moves j s' where
  generation := h.generation
  same _ := ⟨h.since, h.invalidatedAt⟩
  since n := (congrFun h.since n).ge
  lock _ _ hi := ⟨h.loadLock.trans hi, h.since, h.invalidatedAt⟩
  fetch _ _ hi := ⟨h.fetching.symm ▸ hi, h.since⟩

theorem tame_resolve (threshold : ℤ) (estimate : Option ℤ) : s.Tame (s.resolve threshold estimate) := by
  rw [resolve]
  split_ifs
  exacts [.refl s, ⟨le_rfl, rfl, rfl, rfl, rfl⟩]

theorem tame_insert (key : Bytes) (e : Entry) : s.Tame (s.insert key e) :=
  ⟨Nat.le_succ s.generation, rfl, rfl, rfl, rfl⟩

theorem tame_createEntry (e : Entry) : s.Tame (s.createEntry e) := by
  rw [createEntry]
  split_ifs
  exacts [⟨le_rfl, rfl, rfl, rfl, rfl⟩, tame_insert _ e]

variable {name : Bytes} {preGen sentAt : ℕ}

theorem tame_cacheMissing {H : Host} : s.Tame (s.cacheMissing H name preGen sentAt) := by
  rw [cacheMissing]
  split_ifs
  exacts [.refl s, ⟨le_rfl, rfl, rfl, rfl, rfl⟩, ⟨le_rfl, rfl, rfl, rfl, rfl⟩]

theorem tame_foldl (sentAt : ℕ) (ts : List EntryInfo) :
    s.Tame (ts.foldl (fun s t => s.createEntry (buildEntry t sentAt)) s) := by
  induction ts generalizing s with
  | nil => exact .refl s
  | cons t ts ih => exact (tame_createEntry (buildEntry t sentAt)).trans ih

theorem mem_createEntry {e : Entry} {x : Bytes × Entry} (h : x ∈ (s.createEntry e).entries) :
    x ∈ s.entries ∨ x = (lower e.name, e) := by
  rw [createEntry] at h
  split_ifs at h
  · exact .inl h
  · exact (mem_cons.1 h).symm

variable {m : Bytes × ℕ}

theorem missing_createEntry {e : Entry} (h : m ∈ (s.createEntry e).missing) : m ∈ s.missing := by
  rw [createEntry] at h
  split_ifs at h <;> exact mem_of_mem_filter h

theorem mem_foldl_createEntry {ts : List EntryInfo} {x : Bytes × Entry}
    (h : x ∈ (ts.foldl (fun s t => s.createEntry (buildEntry t sentAt)) s).entries) :
    x ∈ s.entries ∨ x.2.sentAt = sentAt := by
  induction ts generalizing s with
  | nil => exact .inl h
  | cons t ts ih =>
    rcases ih h with hx | hx
    · rcases mem_createEntry hx with hx | rfl
      exacts [.inl hx, .inr rfl]
    · exact .inr hx

theorem missing_foldl_createEntry {ts : List EntryInfo}
    (h : m ∈ (ts.foldl (fun s t => s.createEntry (buildEntry t sentAt)) s).missing) : m ∈ s.missing := by
  induction ts generalizing s with
  | nil => exact h
  | cons t ts ih => exact missing_createEntry (ih h)

/-- A name is remembered as missing only if nothing has happened since the generation was read. -/
theorem mem_cacheMissing {H : Host} (h : m ∈ (s.cacheMissing H name preGen sentAt).missing) :
    m ∈ s.missing ∨ (s.generation = preGen ∧ m.2 = sentAt) := by
  rw [cacheMissing] at h
  split_ifs at h with h₁
  · exact .inl h
  all_goals
    have hgn : s.generation = preGen := by
      by_contra hne
      exact h₁ (by simp [hne])
  · exact .inr ⟨hgn, congrArg Prod.snd (mem_singleton.1 h)⟩
  · rcases mem_cons.1 h with rfl | h
    exacts [.inr ⟨hgn, rfl⟩, .inl (mem_of_mem_filter h)]

theorem entries_cacheMissing {H : Host} : (s.cacheMissing H name preGen sentAt).entries = s.entries := by
  rw [cacheMissing]
  split_ifs <;> rfl

/-- What an invalidation does to a set, for a name or for all. -/
structure Removes (scope : Option Bytes) (s s' : EntrySet) : Prop where
  entries : ∀ x ∈ s'.entries, x ∈ s.entries ∧ scope.all (· = x.1) = false
  missing : s'.missing = []
  generation : s.generation < s'.generation
  since : s'.since = s.since
  invalidatedAt : s'.invalidatedAt = s.invalidatedAt
  fetching : s'.fetching = s.fetching

theorem removes_clear : s.Removes none s.clear := ⟨nofun, rfl, Nat.lt_succ_self _, rfl, rfl, rfl⟩

theorem removes_drop (name : Bytes) : s.Removes (some (lower name)) (s.drop name) := by
  refine ⟨fun x hx => ?_, rfl, Nat.lt_succ_self _, rfl, rfl, rfl⟩
  obtain ⟨hmem, hne⟩ := mem_filter.1 hx
  exact ⟨hmem, decide_eq_false (of_decide_eq_true hne).symm⟩

theorem removes_harvest (name : Bytes) : s.Removes (some (lower name)) (s.harvest name) := { removes_drop name with }

theorem mem_of_find {e : Entry} (h : s.find name = some e) : (lower name, e) ∈ s.entries := by
  obtain ⟨l₁, l₂, hl, -⟩ := lookup_eq_some_iff.1 h
  exact hl ▸ mem_append_right l₁ mem_cons_self

end EntrySet

namespace World

variable {f : EntrySet → EntrySet}

@[simp]
theorem sets_mapSet_self : (g.mapSet X f).sets X = f (g.sets X) := update_self ..

theorem sets_mapSet_of_ne {Y : SetId} (h : Y ≠ X) : (g.mapSet X f).sets Y = g.sets Y := update_of_ne h ..

/-- What holds of the set that is replaced, and of the others as they were, holds of all. -/
theorem forall_sets {p : SetId → EntrySet → Prop} {s : EntrySet} (hsl : p X s) (hot : ∀ Y, Y ≠ X → p Y (g.sets Y)) :
    ∀ Y, p Y (update g.sets X s Y) :=
  (forall_update_iff g.sets p).2 ⟨hsl, hot⟩

theorem moves_mapSet (h : (g.sets X).Moves j (f (g.sets X))) : g.Moves j (g.mapSet X f) where
  __ := Moves.refl j g
  sets := forall_sets h fun _ _ => .refl j _

theorem since_mapSet (h : (f (g.sets X)).since = (g.sets X).since) (Y : SetId) :
    ((g.mapSet X f).sets Y).since = (g.sets Y).since := by
  rcases eq_or_ne Y X with rfl | hY
  · rw [sets_mapSet_self, h]
  · rw [sets_mapSet_of_ne hY]

theorem bound_mapSet (h : (f (g.sets X)).since = (g.sets X).since) (Y : SetId) (n : Bytes) :
    (g.mapSet X f).bound Y n = g.bound Y n := by
  have hY := congrFun (since_mapSet h Y) n
  cases Y with
  | schemas => exact hY
  | inSchema a k => exact congrArg (max · (g.schemaAt a).sentAt) hY

/-- A change of a set that is not an invalidation: what is new in it is not too old. -/
theorem Inv.mapSet (hg : g.Inv) (hX : X.Live g) (hsn : (f (g.sets X)).since = (g.sets X).since)
    (hat : (f (g.sets X)).invalidatedAt = (g.sets X).invalidatedAt)
    (hen : ∀ x ∈ (f (g.sets X)).entries, x ∈ (g.sets X).entries ∨ (g.bound X x.1 ≤ x.2.sentAt ∧ X ≠ .schemas))
    (hms : ∀ m ∈ (f (g.sets X)).missing, m ∈ (g.sets X).missing ∨ (g.sets X).since m.1 ≤ m.2)
    (hvw : X = .schemas → (f (g.sets X)).fetching = (g.sets X).fetching) : (g.mapSet X f).Inv where
  entries Y hY x hx := by
    rw [bound_mapSet hsn]
    rcases eq_or_ne Y X with rfl | hne
    · rw [sets_mapSet_self] at hx
      exact (hen x hx).elim (hg.entries Y hY x) And.left
    · rw [sets_mapSet_of_ne hne] at hx
      exact hg.entries Y hY x hx
  missing := by
    refine forall_sets (p := fun _ s => ∀ m ∈ s.missing, s.since m.1 ≤ m.2) (fun m hm => ?_) fun Y _ => hg.missing Y
    rw [hsn]
    exact (hms m hm).elim (hg.missing X m) id
  since Y n := by
    rw [since_mapSet hsn]
    exact hg.since Y n
  invalidatedAt := forall_sets (p := fun _ s => s.invalidatedAt ≤ g.clock) (hat ▸ hg.invalidatedAt X) fun Y _ =>
    hg.invalidatedAt Y
  __ := hg
  seed a k ha hk n := by
    rw [since_mapSet hsn]
    exact hg.seed a k ha hk n
  schemas x hx := by
    have hold : x ∈ (g.sets .schemas).entries := by
      rcases eq_or_ne .schemas X with rfl | hne
      · rw [sets_mapSet_self] at hx
        exact (hen x hx).elim id fun h => absurd rfl h.2
      · rwa [sets_mapSet_of_ne hne] at hx
    have h := hg.schemas x hold
    refine { h with floor := fun k n => ?_ }
    rw [bound_mapSet hsn]
    exact h.floor k n
  schemaFloor s := by
    rw [since_mapSet hsn]
    exact hg.schemaFloor s
  fresh a k ha := by
    rcases eq_or_ne (.inSchema a k) X with rfl | hne
    · exact absurd hX (not_lt.2 ha)
    · rw [sets_mapSet_of_ne hne]
      exact hg.fresh a k ha
  views := by
    rcases eq_or_ne .schemas X with rfl | hne
    · rw [sets_mapSet_self, hvw rfl]
      exact hg.views
    · rw [sets_mapSet_of_ne hne]
      exact hg.views

/-- A change of a set that nothing is new in. -/
theorem Inv.mapSet_same (hg : g.Inv) (hX : X.Live g) (htm : (f (g.sets X)).since = (g.sets X).since)
    (hat : (f (g.sets X)).invalidatedAt = (g.sets X).invalidatedAt)
    (hen : (f (g.sets X)).entries = (g.sets X).entries) (hms : (f (g.sets X)).missing = (g.sets X).missing)
    (hvw : X = .schemas → (f (g.sets X)).fetching = (g.sets X).fetching) : (g.mapSet X f).Inv :=
  hg.mapSet hX htm hat (fun _ hx => .inl (hen ▸ hx)) (fun _ hm => .inl (hms ▸ hm)) hvw

variable {began : ℕ}

theorem Inv.markLoaded (hg : g.Inv) (hX : X.Live g) (h : (g.sets X).invalidatedAt ≤ began) :
    (g.markLoaded X began).Inv := by
  have hset := hg.mapSet_same (f := ({ · with isLoaded := true })) hX rfl rfl rfl rfl fun _ => rfl
  refine { hset with schemas := fun x hx => { hset.schemas x hx with }, marks := fun m hm => ?_ }
  rcases mem_cons.1 hm with rfl | hm
  exacts [h, hg.marks m hm]

/-- A step that is tame in all sets, and leaves the rest as it is. -/
structure Calm (g g' : World) : Prop where
  sets : ∀ Y, (g.sets Y).Tame (g'.sets Y)
  clock : g'.clock = g.clock
  address : g'.nextAddress = g.nextAddress
  schemaAt : g'.schemaAt = g.schemaAt
  floor : g'.floor = g.floor
  revalidating : g'.revalidating = g.revalidating
  pending : g'.pending = g.pending

theorem Calm.refl (g : World) : g.Calm g := ⟨fun Y => .refl (g.sets Y), rfl, rfl, rfl, rfl, rfl, rfl⟩

theorem Calm.trans {g'' : World} (h : g.Calm g') (h' : g'.Calm g'') : g.Calm g'' :=
  ⟨fun Y => (h.sets Y).trans (h'.sets Y), h'.clock.trans h.clock, h'.address.trans h.address,
    h'.schemaAt.trans h.schemaAt, h'.floor.trans h.floor, h'.revalidating.trans h.revalidating,
    h'.pending.trans h.pending⟩

theorem Calm.moves (h : g.Calm g') (j : ℕ) : g.Moves j g' where
  clock := h.clock.ge
  address := h.address.ge
  schemaAt a _ := by rw [h.schemaAt]; exact ⟨rfl, rfl⟩
  sets Y := (h.sets Y).moves j
  floor p := (congrFun h.floor p).ge
  loading _ _ _ := h.floor
  revalidating r hr _ := ⟨h.revalidating ▸ hr, fun hle => h.floor ▸ hle⟩
  started r hr := .inl (h.revalidating ▸ hr)
  pending c hc := .inl (h.pending ▸ hc)

theorem calm_mapSet (h : (g.sets X).Tame (f (g.sets X))) : g.Calm (g.mapSet X f) where
  __ := Calm.refl g
  sets := forall_sets h fun _ _ => .refl _

theorem calm_markLoaded (began : ℕ) : g.Calm (g.markLoaded X began) := by
  have htm : (g.sets X).Tame { g.sets X with isLoaded := true } := ⟨le_rfl, rfl, rfl, rfl, rfl⟩
  exact { calm_mapSet (f := ({ · with isLoaded := true })) htm with }

theorem calm_resolve (H : Host) (X : SetId) (g : World) : g.Calm (g.resolve H X) := by
  rw [resolve]
  split_ifs
  exacts [.refl g, calm_mapSet (tame_resolve _ _)]

theorem Inv.resolve {H : Host} (hg : g.Inv) (hX : X.Live g) : (g.resolve H X).Inv := by
  have hset : ∀ t e, ((g.sets X).resolve t e).entries = (g.sets X).entries ∧
      ((g.sets X).resolve t e).missing = (g.sets X).missing := by
    intro t e
    rw [EntrySet.resolve]
    split_ifs <;> exact ⟨rfl, rfl⟩
  rw [World.resolve]
  split_ifs
  · exact hg
  · exact hg.mapSet_same hX (EntrySet.tame_resolve _ _).since (EntrySet.tame_resolve _ _).invalidatedAt (hset _ _).1
      (hset _ _).2 fun _ => (EntrySet.tame_resolve _ _).fetching

theorem live_of_calm (h : g.Calm g') (hX : X.Live g) : X.Live g' := by
  cases X with
  | schemas => trivial
  | inSchema a k => exact hX.trans_eq h.address.symm

/-- A load begins, or the set is taken to be empty, which it may be only if it has never been invalidated. -/
theorem Inv.beginLoad {H : Host} {trust : Bool} (hg : g.Inv) (hX : X.Live g)
    (hqt : (g.resolve H X).shouldBypassRpc X trust = true → (g.sets X).invalidatedAt = 0) :
    (beginLoad H X trust g).1.Inv ∧ g.Calm (beginLoad H X trust g).1 := by
  have hcl := calm_resolve H X g
  have hres := hg.resolve (H := H) hX
  rw [Catalog.beginLoad]
  split_ifs with hbp
  · have hat : ∀ n, ((g.resolve H X).sets X).invalidatedAt ≤ n := fun n => by
      rw [(hcl.sets X).invalidatedAt, hqt hbp]
      exact Nat.zero_le n
    cases X with
    | schemas => exact ⟨hres.markLoaded trivial (hat _), hcl.trans (calm_markLoaded _)⟩
    | inSchema a k => exact ⟨hres.markLoaded (live_of_calm hcl hX) (hat _), hcl.trans (calm_markLoaded _)⟩
  · exact ⟨hres, hcl⟩

/-! ## Schemas and seeds -/

variable {a : ℕ} {k : EntryKind}

theorem schemaAt_takeSeed_self : (g.takeSeed a k).schemaAt a = (g.schemaAt a).take k := update_self ..

theorem schemaAt_takeSeed_of_ne {b : ℕ} (h : b ≠ a) : (g.takeSeed a k).schemaAt b = g.schemaAt b := update_of_ne h ..

theorem schemaAt_takeSeed (a b : ℕ) (k : EntryKind) : ((g.takeSeed a k).schemaAt b).sentAt = (g.schemaAt b).sentAt ∧
    ((g.takeSeed a k).schemaAt b).info = (g.schemaAt b).info := by
  rcases eq_or_ne b a with rfl | hne
  · rw [schemaAt_takeSeed_self]
    exact ⟨rfl, rfl⟩
  · rw [schemaAt_takeSeed_of_ne hne]
    exact ⟨rfl, rfl⟩

theorem hasSeed_takeSeed {b : ℕ} {k' : EntryKind} (h : (g.takeSeed a k).hasSeed (.inSchema b k') = true) :
    g.hasSeed (.inSchema b k') = true := by
  rcases eq_or_ne b a with rfl | hne
  · rw [hasSeed, schemaAt_takeSeed_self, Bool.and_eq_true, decide_eq_true_eq] at h
    rw [hasSeed, Bool.and_eq_true, decide_eq_true_eq]
    exact ⟨h.1, fun hk => h.2 (mem_cons_of_mem k hk)⟩
  · rwa [hasSeed, schemaAt_takeSeed_of_ne hne] at h

theorem bound_takeSeed (a : ℕ) (k : EntryKind) (Y : SetId) (n : Bytes) : (g.takeSeed a k).bound Y n = g.bound Y n := by
  cases Y with
  | schemas => rfl
  | inSchema b k' => exact congrArg (max _) (schemaAt_takeSeed a b k).1

theorem Inv.takeSeed (hg : g.Inv) (a : ℕ) (k : EntryKind) : (g.takeSeed a k).Inv where
  __ := hg
  entries Y hY x hx := by
    rw [bound_takeSeed]
    exact hg.entries Y hY x hx
  sent b hb := (schemaAt_takeSeed a b k).1.trans_le (hg.sent b hb)
  seed b k' hb hk n := by
    rw [(schemaAt_takeSeed a b k).1]
    exact hg.seed b k' hb (hasSeed_takeSeed hk) n
  schemas x hx := by
    have h := hg.schemas x hx
    obtain ⟨hsn, hin⟩ := schemaAt_takeSeed (g := g) a x.2.address k
    refine ⟨h.live, hin ▸ h.name, hsn.trans h.sent, fun k' n => ?_⟩
    rw [bound_takeSeed]
    exact h.floor k' n

theorem moves_takeSeed (a : ℕ) (k : EntryKind) : g.Moves j (g.takeSeed a k) where
  __ := Moves.refl j g
  schemaAt b _ := schemaAt_takeSeed a b k

theorem Inv.tick (hg : g.Inv) : g.tick.Inv where
  __ := hg
  since Y n := (hg.since Y n).trans (Nat.le_succ g.clock)
  invalidatedAt Y := (hg.invalidatedAt Y).trans (Nat.le_succ g.clock)
  floor p := (hg.floor p).trans (Nat.le_succ g.clock)
  sent a ha := (hg.sent a ha).trans (Nat.le_succ g.clock)
  schemas x hx := { hg.schemas x hx with }
  pending c hc := (hg.pending c hc).imp_left fun h => h.trans (Nat.le_succ g.clock)
  revalidating r hr := (hg.revalidating r hr).trans (Nat.le_succ g.clock)

section WithSchema

variable {info : SchemaInfo} {seed : Option SchemaContents} {sentAt : ℕ}

theorem schemaAt_withSchema_self :
    (g.withSchema info seed sentAt).schemaAt g.nextAddress = { info, seed, sentAt } := update_self ..

theorem schemaAt_withSchema_of_lt (ha : a < g.nextAddress) :
    (g.withSchema info seed sentAt).schemaAt a = g.schemaAt a := update_of_ne ha.ne ..

theorem sets_withSchema (Y : SetId) : (g.withSchema info seed sentAt).sets Y = (g.mapSet .schemas
    (·.createEntry { name := info.name, address := g.nextAddress, sentAt })).sets Y := rfl

theorem tame_withSchema (Y : SetId) : (g.sets Y).Tame ((g.withSchema info seed sentAt).sets Y) :=
  (calm_mapSet (f := (·.createEntry { name := info.name, address := g.nextAddress, sentAt }))
    (tame_createEntry _)).sets Y

theorem bound_withSchema {Y : SetId} (hY : Y.Live g) (n : Bytes) :
    (g.withSchema info seed sentAt).bound Y n = g.bound Y n := by
  have htm : (g.sets Y).Tame ((g.withSchema info seed sentAt).sets Y) := tame_withSchema Y
  have hsn := congrFun htm.since n
  cases Y with
  | schemas => exact hsn
  | inSchema a k => exact congrArg₂ max hsn (congrArg SchemaEntry.sentAt (schemaAt_withSchema_of_lt hY))

/-- A schema entry is made from what is not older than any invalidation. -/
theorem Inv.withSchema (hg : g.Inv) (hsn : sentAt ≤ g.clock) (hfl : ∀ p, g.floor p ≤ sentAt) :
    (g.withSchema info seed sentAt).Inv where
  entries Y hY x hx := by
    rcases Y with _ | ⟨a, k⟩
    · rw [bound_withSchema (Y := .schemas) trivial]
      rcases mem_createEntry hx with hx | rfl
      · exact hg.entries .schemas trivial x hx
      · exact (hg.schemaFloor _).symm.trans_le (hfl _)
    · rw [sets_withSchema, sets_mapSet_of_ne (by simp)] at hx
      rcases (Nat.lt_succ_iff.1 hY).lt_or_eq with ha | rfl
      · rw [bound_withSchema (Y := .inSchema a k) ha]
        exact hg.entries (.inSchema a k) ha x hx
      · rw [hg.fresh g.nextAddress k le_rfl] at hx
        exact absurd hx not_mem_nil
  missing Y m hm := by
    rw [(tame_withSchema Y).since]
    rcases eq_or_ne Y .schemas with rfl | hne
    · rw [sets_withSchema, sets_mapSet_self] at hm
      exact hg.missing .schemas m (missing_createEntry hm)
    · rw [sets_withSchema, sets_mapSet_of_ne hne] at hm
      exact hg.missing Y m hm
  since Y n := by
    rw [(tame_withSchema Y).since]
    exact hg.since Y n
  invalidatedAt Y := by
    rw [(tame_withSchema Y).invalidatedAt]
    exact hg.invalidatedAt Y
  __ := hg
  sent a ha := by
    rcases (Nat.lt_succ_iff.1 ha).lt_or_eq with ha | rfl
    · rw [schemaAt_withSchema_of_lt ha]
      exact hg.sent a ha
    · rw [schemaAt_withSchema_self]
      exact hsn
  seed a k ha hk n := by
    rw [(tame_withSchema _).since]
    rcases (Nat.lt_succ_iff.1 ha).lt_or_eq with ha | rfl
    · rw [hasSeed, schemaAt_withSchema_of_lt ha] at hk
      rw [schemaAt_withSchema_of_lt ha]
      exact hg.seed a k ha hk n
    · rw [hg.fresh g.nextAddress k le_rfl]
      exact Nat.zero_le _
  schemas x hx := by
    rcases mem_createEntry hx with hx | rfl
    · have h := hg.schemas x hx
      refine ⟨h.live.trans (Nat.lt_succ_self _), ?_, ?_, fun k n => ?_⟩
      · rw [schemaAt_withSchema_of_lt h.live]
        exact h.name
      · rw [schemaAt_withSchema_of_lt h.live]
        exact h.sent
      · rw [bound_withSchema (Y := .inSchema x.2.address k) h.live]
        exact h.floor k n
    · refine ⟨Nat.lt_succ_self _, ?_, ?_, fun k n => ?_⟩
      · rw [schemaAt_withSchema_self]
      · rw [schemaAt_withSchema_self]
      · refine (hfl _).trans (le_trans ?_ (le_max_right ..))
        rw [schemaAt_withSchema_self]
  schemaFloor s := by
    rw [(tame_withSchema _).since]
    exact hg.schemaFloor s
  fresh a k ha := by
    exact hg.fresh a k (Nat.le_of_succ_le ha)
  views := by
    rw [(tame_withSchema .schemas).fetching]
    exact hg.views

theorem moves_withSchema : g.Moves j (g.withSchema info seed sentAt) where
  __ := Moves.refl j g
  address := Nat.le_succ _
  schemaAt a ha := by
    rw [schemaAt_withSchema_of_lt ha]
    exact ⟨rfl, rfl⟩
  sets Y := (tame_withSchema Y).moves j

end WithSchema

/-! ## Invalidations -/

theorem sets_invalidate_self {scope : Option Bytes} :
    (g.invalidate X scope began f).sets X = (f (g.sets X)).cover scope began := update_self ..

theorem sets_invalidate_of_ne {scope : Option Bytes} {Y : SetId} (h : Y ≠ X) :
    (g.invalidate X scope began f).sets Y = g.sets Y := update_of_ne h ..

section Invalidate

variable {scope : Option Bytes} {began : ℕ} (hf : (g.sets X).Removes scope (f (g.sets X)))

include hf

theorem since_invalidate_self (n : Bytes) :
    ((g.invalidate X scope began f).sets X).since n =
      if scope.all (· = n) then max ((g.sets X).since n) began else (g.sets X).since n := by
  rw [sets_invalidate_self, cover, hf.since]

/-- The times only go up. -/
theorem since_le_invalidate (Y : SetId) (n : Bytes) :
    (g.sets Y).since n ≤ ((g.invalidate X scope began f).sets Y).since n := by
  rcases eq_or_ne Y X with rfl | hne
  · rw [since_invalidate_self hf]
    split_ifs
    exacts [le_max_left .., le_rfl]
  · rw [sets_invalidate_of_ne hne]

theorem bound_le_invalidate (Y : SetId) (n : Bytes) : g.bound Y n ≤ (g.invalidate X scope began f).bound Y n := by
  have hY : _ ≤ ((g.invalidate X scope began f).sets Y).since n := since_le_invalidate hf Y n
  cases Y with
  | schemas => exact hY
  | inSchema a k => exact max_le_max hY le_rfl

/-- What is not removed has the same bound. -/
theorem bound_invalidate_of_not (Y : SetId) {n : Bytes} (hn : Y = X → scope.all (· = n) = false) :
    (g.invalidate X scope began f).bound Y n = g.bound Y n := by
  have hY : ((g.invalidate X scope began f).sets Y).since n = (g.sets Y).since n := by
    rcases eq_or_ne Y X with rfl | hne
    · rw [since_invalidate_self hf, if_neg (Bool.eq_false_iff.1 (hn rfl))]
    · rw [sets_invalidate_of_ne hne]
  cases Y with
  | schemas => exact hY
  | inSchema a k => exact congrArg (max · (g.schemaAt a).sentAt) hY

/-- What the invalidation of a schema covers is not what is left there. -/
theorem floor_le_bound (hsl : X.Sole g) {x : Bytes × Entry}
    (hx : x ∈ ((g.invalidate X scope began f).sets .schemas).entries) (h : g.IsSchema x)
    (hold : x ∈ (g.sets .schemas).entries) (k : EntryKind) (n : Bytes) :
    (g.invalidate X scope began f).floor ⟨x.1, some (k, n)⟩ ≤
      (g.invalidate X scope began f).bound (.inSchema x.2.address k) n := by
  have hle : g.floor ⟨x.1, some (k, n)⟩ ≤ (g.invalidate X scope began f).bound (.inSchema x.2.address k) n :=
    (h.floor k n).trans (bound_le_invalidate hf (.inSchema x.2.address k) n)
  change (if g.covers X scope ⟨x.1, some (k, n)⟩ then max (g.floor _) began else g.floor _) ≤ _
  split_ifs with hcv
  · refine max_le hle ?_
    cases X with
    | schemas => exact absurd hcv (Bool.eq_false_iff.1 (hf.entries x hx).2)
    | inSchema a k' =>
      -- the entry in use is the one that is invalidated
      obtain ⟨hnm, hent⟩ := Bool.and_eq_true_iff.1 hcv
      obtain ⟨hk, hsc⟩ := Bool.and_eq_true_iff.1 hent
      obtain rfl : k = k' := of_decide_eq_true hk
      obtain rfl := hsl x hold (of_decide_eq_true hnm)
      refine le_trans ?_ (le_max_left ..)
      rw [since_invalidate_self hf, if_pos hsc]
      exact le_max_right ..
  · exact hle

/-- An invalidation that has nothing under way that it comes too late for. -/
theorem Inv.invalidate (hg : g.Inv) (hX : X.Live g) (hbg : began ≤ g.clock) (hsd : g.hasSeed X = false)
    (hsl : X.Sole g) (hpn : ∀ c, g.pending = some c → began ≤ c.2) : (g.invalidate X scope began f).Inv where
  entries Y hY x hx := by
    rcases eq_or_ne Y X with rfl | hne
    · rw [sets_invalidate_self] at hx
      obtain ⟨hmem, hsc⟩ := hf.entries x hx
      rw [bound_invalidate_of_not hf Y fun _ => hsc]
      exact hg.entries Y hY x hmem
    · rw [sets_invalidate_of_ne hne] at hx
      rw [bound_invalidate_of_not hf Y fun h => absurd h hne]
      exact hg.entries Y hY x hx
  missing := forall_sets (p := fun _ s => ∀ m ∈ s.missing, s.since m.1 ≤ m.2)
    (fun _ hm => absurd (hf.missing ▸ hm) not_mem_nil) fun Y _ => hg.missing Y
  since Y n := by
    rcases eq_or_ne Y X with rfl | hne
    · rw [since_invalidate_self hf]
      split_ifs
      exacts [max_le (hg.since Y n) hbg, hg.since Y n]
    · rw [sets_invalidate_of_ne hne]
      exact hg.since Y n
  invalidatedAt := forall_sets (p := fun _ s => s.invalidatedAt ≤ g.clock)
    (max_le (hf.invalidatedAt ▸ hg.invalidatedAt X) hbg) fun Y _ => hg.invalidatedAt Y
  floor p := by
    change (if g.covers X scope p then max (g.floor p) began else g.floor p) ≤ g.clock
    split_ifs
    exacts [max_le (hg.floor p) hbg, hg.floor p]
  __ := hg
  seed a k ha hk n := by
    rcases eq_or_ne (.inSchema a k) X with rfl | hne
    · exact absurd hk (Bool.eq_false_iff.1 hsd)
    · rw [sets_invalidate_of_ne hne]
      exact hg.seed a k ha hk n
  schemas x hx := by
    have hold : x ∈ (g.sets .schemas).entries := by
      rcases eq_or_ne .schemas X with rfl | hne
      · rw [sets_invalidate_self] at hx
        exact (hf.entries x hx).1
      · rwa [sets_invalidate_of_ne hne] at hx
    have h := hg.schemas x hold
    exact { h with floor := floor_le_bound hf hsl hx h hold }
  schemaFloor s := by
    change (if g.covers X scope ⟨s, none⟩ then max (g.floor _) began else g.floor _) = _
    cases X with
    | schemas => rw [since_invalidate_self hf, hg.schemaFloor s]; rfl
    | inSchema a k =>
      rw [sets_invalidate_of_ne (by simp), if_neg (by simp [covers])]
      exact hg.schemaFloor s
  pending c hc := by
    refine ⟨(hg.pending c hc).1, fun p => ?_⟩
    change (if g.covers X scope p then max (g.floor p) began else g.floor p) ≤ c.2
    split_ifs
    exacts [max_le ((hg.pending c hc).2 p) (hpn c hc), (hg.pending c hc).2 p]
  fresh a k ha := by
    rcases eq_or_ne (.inSchema a k) X with rfl | hne
    · exact absurd hX (not_lt.2 ha)
    · rw [sets_invalidate_of_ne hne]
      exact hg.fresh a k ha
  views := by
    rcases eq_or_ne .schemas X with rfl | hne
    · rw [sets_invalidate_self]
      exact hf.fetching.trans hg.views
    · rw [sets_invalidate_of_ne hne]
      exact hg.views

theorem moves_invalidate (hld : (g.sets X).loadLock = none) (hsc : (g.sets .schemas).loadLock = none)
    (hft : (g.sets X).fetching = [])
    (hrv : ∀ r ∈ g.revalidating, r.1 ≠ j → began ≤ r.2) : g.Moves j (g.invalidate X scope began f) where
  __ := Moves.refl j g
  sets Y := by
    rcases eq_or_ne Y X with rfl | hne
    · refine ⟨?_, fun h => ?_, since_le_invalidate hf Y, fun i _ hi => ?_, fun i _ hi => ?_⟩
      · rw [sets_invalidate_self]
        exact hf.generation.le
      · rw [sets_invalidate_self] at h
        exact absurd h hf.generation.ne'
      · exact absurd (hld.symm.trans hi) (by simp)
      · exact absurd (hft ▸ hi) not_mem_nil
    · rw [sets_invalidate_of_ne hne]
      exact .refl j _
  floor p := by
    change _ ≤ if g.covers X scope p then max (g.floor p) began else g.floor p
    split_ifs
    exacts [le_max_left .., le_rfl]
  loading i _ hi := absurd (hsc.symm.trans hi) (by simp)
  revalidating r hr hj := by
    refine ⟨hr, fun hle p => ?_⟩
    change (if g.covers X scope p then max (g.floor p) began else g.floor p) ≤ r.2
    split_ifs
    exacts [max_le (hle p) (hrv r hr hj), hle p]

end Invalidate

end World

/-! ## Assertions -/

/-- All threads keep the invariant, and do nothing else than they may, if their steps meet the condition. -/
abbrev discipline (H : Host) : Discipline World Input where
  inv := World.Inv
  guar := World.Moves
  allowed i g := g.Quiet H i

/-- A program of the thread that yields what meets `Q`. -/
abbrev Runs (H : Host) (i : ℕ) {β : Type} (Q : β → World → Prop) (c : Program β) (P : World → Prop) : Prop :=
  Meets (discipline H) i Q c P

/-- A program that can fail. -/
abbrev Ends (H : Host) (i : ℕ) {β : Type} (R : β → World → Prop) (E : World → Prop) (c : M β) (P : World → Prop) :
    Prop :=
  Runs H i (Outcome R E) c.run P

/-- An assertion that no thread disturbs, the own one included. -/
def Lasting (F : World → Prop) : Prop := ∀ ⦃g g' : World⦄ ⦃j : ℕ⦄, g.Moves j g' → F g → F g'

variable {H : Host} {g' : World} {c : Bytes → ℕ} {F : World → Prop}

theorem Lasting.stable (h : Lasting F) : (discipline H).Stable i F := fun _ _ _ _ _ _ hm hf => h hm hf

theorem Lasting.and {F' : World → Prop} (h : Lasting F) (h' : Lasting F') : Lasting fun g => F g ∧ F' g :=
  fun _ _ _ hm hf => ⟨h hm hf.1, h' hm hf.2⟩

theorem lasting_const (p : Prop) : Lasting fun _ => p := fun _ _ _ _ hp => hp

theorem lasting_live : Lasting fun g => X.Live g := by
  intro g g' j hm hX
  cases X with
  | schemas => trivial
  | inSchema a k => exact hX.trans_le hm.address

namespace World.Moves

variable (h : g.Moves j g')

include h

theorem bound_le (hX : X.Live g) (n : Bytes) : g.bound X n ≤ g'.bound X n := by
  cases X with
  | schemas => exact (h.sets .schemas).since n
  | inSchema a k => exact max_le_max ((h.sets _).since n) (h.schemaAt a hX).1.ge

theorem bound_eq (hX : X.Live g) (hsn : (g'.sets X).since = (g.sets X).since) (n : Bytes) :
    g'.bound X n = g.bound X n := by
  cases X with
  | schemas => exact congrFun hsn n
  | inSchema a k => exact congrArg₂ max (congrFun hsn n) (h.schemaAt a hX).1

end World.Moves

/-- What is found in the set is not older than this. -/
structure Above (X : SetId) (c : Bytes → ℕ) (g : World) : Prop where
  live : X.Live g
  le : ∀ n, c n ≤ g.bound X n

theorem lasting_above : Lasting (Above X c) := fun _ _ _ hm h =>
  ⟨lasting_live hm h.live, fun n => (h.le n).trans (hm.bound_le h.live n)⟩

/-- As long as the generation is the same, nothing has been invalidated since the load began, and what was sent for it
    then is not too old. -/
structure AtGen (X : SetId) (gen began : ℕ) (sentAt : Option ℕ) (g : World) : Prop where
  live : X.Live g
  le : gen ≤ (g.sets X).generation
  began : (g.sets X).generation = gen → (g.sets X).invalidatedAt ≤ began
  sent : (g.sets X).generation = gen → ∀ t, sentAt = some t → ∀ n, g.bound X n ≤ t

variable {began : ℕ} {sentAt : Option ℕ}

theorem lasting_atGen {gen : ℕ} : Lasting (AtGen X gen began sentAt) := by
  intro g g' j hm h
  have hset := hm.sets X
  have hsm : (g'.sets X).generation = gen → (g.sets X).generation = gen := fun heq =>
    le_antisymm (heq ▸ hset.generation) h.le
  refine ⟨lasting_live hm h.live, h.le.trans hset.generation, fun heq => ?_, fun heq t ht n => ?_⟩
  · rw [(hset.same (heq.trans (hsm heq).symm)).2]
    exact h.began (hsm heq)
  · rw [hm.bound_eq h.live (hset.same (heq.trans (hsm heq).symm)).1]
    exact h.sent (hsm heq) t ht n

/-- An assertion that no other thread disturbs, and no calm step of the own one. -/
structure Kept (H : Host) (i : ℕ) (P : World → Prop) : Prop where
  stable : (discipline H).Stable i P
  calm : ∀ ⦃g g' : World⦄, g.Calm g' → P g → P g'

theorem Lasting.kept (h : Lasting F) : Kept H i F := ⟨h.stable, fun _ _ hc hf => h (hc.moves i) hf⟩

theorem Kept.and {P Q : World → Prop} (hP : Kept H i P) (hQ : Kept H i Q) : Kept H i fun g => P g ∧ Q g :=
  ⟨hP.stable.and hQ.stable, fun _ _ hc h => ⟨hP.calm hc h.1, hQ.calm hc h.2⟩⟩

/-- The thread has the lock for loads, and nothing is invalidated meanwhile. -/
structure Holding (i : ℕ) (X : SetId) (began : ℕ) (sentAt : Option ℕ) (g : World) : Prop where
  live : X.Live g
  lock : (g.sets X).loadLock = some i
  began : (g.sets X).invalidatedAt ≤ began
  sent : ∀ t, sentAt = some t → ∀ n, g.bound X n ≤ t

/-- A step of the own thread that is tame in the set. -/
theorem Holding.tame (h : Holding i X began sentAt g) (hm : g.Moves j g')
    (hset : (g.sets X).Tame (g'.sets X)) : Holding i X began sentAt g' := by
  refine ⟨lasting_live hm h.live, hset.loadLock.trans h.lock, hset.invalidatedAt ▸ h.began, fun t ht n => ?_⟩
  rw [hm.bound_eq h.live hset.since]
  exact h.sent t ht n

theorem kept_holding : Kept H i (Holding i X began sentAt) := by
  refine ⟨fun g g' j hj _ _ hm h => ?_, fun g g' hc h => h.tame (hc.moves i) (hc.sets X)⟩
  obtain ⟨hlc, hsn, hat⟩ := (hm.sets X).lock i hj.symm h.lock
  refine ⟨lasting_live hm h.live, hlc, hat ▸ h.began, fun t ht n => ?_⟩
  rw [hm.bound_eq h.live hsn]
  exact h.sent t ht n

/-- The thread has the lock for loads. -/
structure Locked (i : ℕ) (X : SetId) (g : World) : Prop where
  live : X.Live g
  lock : (g.sets X).loadLock = some i

theorem kept_locked : Kept H i (Locked i X) :=
  ⟨fun _ _ _ hj _ _ hm h => ⟨lasting_live hm h.live, ((hm.sets X).lock i hj.symm h.lock).1⟩,
    fun _ _ hc h => ⟨World.live_of_calm hc h.live, (hc.sets X).loadLock.trans h.lock⟩⟩

theorem Holding.locked (h : Holding i X began sentAt g) : Locked i X g := { h with }

/-- The schemas are loaded, from what is not older than any invalidation. -/
structure LoadingSchemas (i began : ℕ) (sentAt : Option ℕ) (g : World) : Prop where
  holding : Holding i .schemas began none g
  sent : ∀ t, sentAt = some t → t ≤ g.clock ∧ ∀ p, g.floor p ≤ t

theorem kept_loadingSchemas : Kept H i (LoadingSchemas i began sentAt) := by
  refine ⟨fun g g' j hj hg hg' hm h => ?_, fun g g' hc h => ⟨kept_holding (H := H).calm hc h.holding, ?_⟩⟩
  · refine ⟨kept_holding.stable hj hg hg' hm h.holding, fun t ht => ⟨(h.sent t ht).1.trans hm.clock, ?_⟩⟩
    rw [hm.loading i hj.symm h.holding.lock]
    exact (h.sent t ht).2
  · rw [hc.clock, hc.floor]
    exact h.sent

/-- A view that is about to be published is not too old. -/
structure Fetching (i : ℕ) (X : SetId) (sentAt : ℕ) (g : World) : Prop where
  live : X.Live g
  mem : i ∈ (g.sets X).fetching
  sent : ∀ n, g.bound X n ≤ sentAt

theorem stable_fetching {sentAt : ℕ} : (discipline H).Stable i (Fetching i X sentAt) := by
  intro g g' j hj _ _ hm h
  obtain ⟨hmem, hsn⟩ := (hm.sets X).fetch i hj.symm h.mem
  refine ⟨lasting_live hm h.live, hmem, fun n => ?_⟩
  rw [hm.bound_eq h.live hsn]
  exact h.sent n

/-- A snapshot that is about to be handed over is not too old. -/
structure Revalidating (i sentAt : ℕ) (g : World) : Prop where
  mem : (i, sentAt) ∈ g.revalidating
  floor : ∀ p, g.floor p ≤ sentAt

theorem kept_revalidating {sentAt : ℕ} : Kept H i (Revalidating i sentAt) := by
  refine ⟨fun g g' j hj _ _ hm h => ?_, fun g g' hc h => ⟨hc.revalidating ▸ h.mem, hc.floor ▸ h.floor⟩⟩
  obtain ⟨hmem, hfl⟩ := hm.revalidating (i, sentAt) h.mem hj.symm
  exact ⟨hmem, hfl h.floor⟩

/-- The cache is cleared. What is handed over meanwhile has been asked for after this has begun. -/
structure Clearing (i began : ℕ) (g : World) : Prop where
  clock : began ≤ g.clock
  pending : ∀ c, g.pending = some c → began ≤ c.2
  revalidating : ∀ r ∈ g.revalidating, r.1 ≠ i → began ≤ r.2

theorem stable_clearing : (discipline H).Stable i (Clearing i began) := by
  intro g g' j hj _ _ hm h
  refine ⟨h.clock.trans hm.clock, fun c hc => ?_, fun r hr hne => ?_⟩
  · rcases hm.pending c hc with hc | hmem
    exacts [h.pending c hc, h.revalidating _ hmem hj]
  · rcases hm.started r hr with hr | hcl
    exacts [h.revalidating r hr hne, h.clock.trans hcl]

/-- The times of the invalidations when a lookup began. -/
def Begun (σ : Path → ℕ) (g : World) : Prop := ∀ p, σ p ≤ g.floor p

theorem lasting_begun {σ : Path → ℕ} : Lasting (Begun σ) := fun _ _ _ hm h p => (h p).trans (hm.floor p)

end Vgi.Catalog
