import Vgi.Exchange.MemoRefines

/-!
# The registry of memo arenas

The arenas of a database, each under the name of its function (`Registry`), with the SQLite file behind them: an arena
that is not in memory is filled from the file when it is asked for, and what is stored in an arena is persisted there.
Executions ask for an arena, probe it and store in it, in any interleaving; an arena that the registry has dropped lives
on with the executions that hold it. Clearing the cache of a catalog leaves all of that alone.

The state carries, beside what the program has, when each slot was stored and when each catalog's cache was cleared.

* `Inv`: what the arenas in the registry, the arenas of the executions and the files can answer was stored after the
  clears that the asking execution started after, as long as a clear finds nothing that could still be served;
* `Inv.step`: each step keeps it;
* `cleared_memos_unserved`: so no execution is answered from before such a clear.
-/

namespace Vgi.MemoRegistry

open List Option Function VgiMemoArena

variable {ρ : Type} (fp : Bytes)

/-! ## The model -/

/-- A row of the table `slots` in the SQLite file of the directory `dir`. -/
structure PersistedSlot (ρ : Type) where
  dir : Bytes
  staticFp : Bytes
  inputBlob : Bytes
  schema : Option Bytes
  rows : List ρ
  /-- In seconds of the wall clock, negative for never. -/
  expiresUnix : ℤ
  validator : ArenaValidator
  /-- When it was stored. -/
  storedAt : ℕ

def PersistedSlot.isExpired (p : PersistedSlot ρ) (nowUnix : ℤ) : Bool :=
  0 ≤ p.expiresUnix && p.expiresUnix ≤ nowUnix

/-- An arena, as the registry and the executions share it. -/
structure MemoObject (ρ : Type) where
  arena : VgiMemoArena ρ := {}
  schema : Option Bytes := none
  /-- The directory it persists to, and its name there. -/
  persistence : Option (Bytes × Bytes) := none
  /-- When the slot of a key was stored. -/
  storedAt : Bytes → ℕ := fun _ => 0

structure RegistryEntry where
  object : ℕ
  bytes : ℤ
  lastUsed : ℕ

structure Registry where
  arenas : AList fun _ : Bytes => RegistryEntry := ∅
  totalBytes : ℤ := 0
  maxBytes : ℤ := 256 * 1024 * 1024
  tick : ℕ := 0
  /-- The directory of the open SQLite file. -/
  backend : Option Bytes := none
  backendDir : Bytes := []

open Registry

/-- One execution of the function with this name. -/
structure Execution where
  staticFp : Bytes
  /-- When the catalog's cache had last been cleared as the execution started. -/
  floor : ℕ
  object : Option ℕ := none

/-- A value that an execution got from a memo. -/
structure MemoAnswer where
  key : Bytes
  floor : ℕ
  storedAt : ℕ
deriving DecidableEq

structure World (ρ : Type) where
  registry : Registry := {}
  objects : List (MemoObject ρ) := []
  disk : List (PersistedSlot ρ) := []
  executions : List Execution := []
  /-- The steady clock, in nanoseconds. -/
  clock : ℤ := 0
  /-- The wall clock, in seconds. -/
  clockUnix : ℤ := 0
  /-- How many clears there were. -/
  time : ℕ := 0
  clearedAt : Bytes → ℕ := fun _ => 0
  answers : List MemoAnswer := []

/-! ### Eviction -/

namespace Registry

variable (r : Registry)

def erase : Registry :=
  match r.arenas.lookup fp with
  | none => r
  | some e => { r with arenas := r.arenas.erase fp, totalBytes := r.totalBytes - e.bytes }

/-- The arena that was not used for the longest time. -/
def coldest (keep : Bytes) : Option Bytes :=
  ((r.arenas.entries.filter fun x => x.1 ≠ keep).argmin fun x => x.2.lastUsed).map (·.1)

/-- Evict while the registry is over its budget. There are at most as many rounds as arenas. -/
def evictColdest (keep : Bytes) : ℕ → Registry → Registry
  | 0, r => r
  | n + 1, r =>
    if r.totalBytes ≤ r.maxBytes then r
    else
      match r.coldest keep with
      | none => r
      | some fp => evictColdest keep n (r.erase fp)

def evictToFitLocked (keep : Bytes) : Registry :=
  -- an arena that is over the budget alone is not kept either
  let r := match r.arenas.lookup keep with
    | some e => if r.maxBytes < e.bytes then r.erase keep else r
    | none => r
  r.evictColdest keep r.arenas.entries.length

def fit (keep : Bytes) : Registry :=
  if r.maxBytes < r.totalBytes then r.evictToFitLocked keep else r

/-- Put an arena under a name. -/
def emplace (object : ℕ) (bytes : ℤ) : Registry :=
  fit { r with
    arenas := r.arenas.insert fp { object, bytes, lastUsed := r.tick }
    totalBytes := r.totalBytes + bytes } fp

/-- Account for the bytes of an arena, if it is still the one under this name. -/
def noteFootprintDelta (delta : ℤ) (object : ℕ) : Registry :=
  match r.arenas.lookup fp with
  | none => r
  | some e =>
    if e.object ≠ object then r
    else
      fit { r with
        arenas := r.arenas.insert fp { e with bytes := e.bytes + delta, lastUsed := r.tick + 1 }
        tick := r.tick + 1
        totalBytes := r.totalBytes + delta } fp

def setMaxBytes (maxBytes : ℤ) : Registry := fit { r with maxBytes } []

/-- Open the file of a directory. `opens` is whether that succeeds. -/
def ensureSqliteBackend (dir : Bytes) (opens : Bool) : Registry :=
  if dir = r.backendDir then r
  else
    { r with
      backend := if dir.isEmpty || !opens then none else some dir
      backendDir := dir
      -- the arenas persist to the old directory
      arenas := ∅
      totalBytes := 0 }

def releaseBackend : Registry :=
  { r with arenas := ∅, totalBytes := 0, backend := none, backendDir := [] }

/-- Mark the arena under a name as used. -/
def touch (e : RegistryEntry) : Registry :=
  { r with arenas := r.arenas.insert fp { e with lastUsed := r.tick } }

end Registry

/-! ### The file -/

/-- Take up a persisted slot, unless the key has one. -/
def MemoObject.loadSlot (clock clockUnix : ℤ) (o : MemoObject ρ) (p : PersistedSlot ρ) : MemoObject ρ :=
  let v := o.arena.resolveValidator p.validator
  let s : VgiMemoSlot :=
    { rowStart := o.arena.baseRows, length := p.rows.length, validatorRef := v.1
      expiresAt := if p.expiresUnix < 0 then clock else clock + (p.expiresUnix - clockUnix) * nsPerSecond
      neverExpires := p.expiresUnix < 0 }
  let taken := (o.arena.slots.lookup p.inputBlob).isSome
  { o with
    schema := o.schema.or p.schema
    arena := { v.2 with
      base := o.arena.base ++ p.rows
      baseRows := o.arena.baseRows + p.rows.length
      slots := if taken then o.arena.slots else o.arena.slots.insert p.inputBlob s }
    storedAt := if taken then o.storedAt else Function.update o.storedAt p.inputBlob p.storedAt }

/-- The rows of the file that an arena is filled from. -/
def hydrate (disk : List (PersistedSlot ρ)) (dir fp : Bytes) (clockUnix : ℤ) : List (PersistedSlot ρ) :=
  disk.filter fun p => p.dir = dir && p.staticFp = fp && !p.isExpired clockUnix

/-- Fill a new arena from the file that it persists to. -/
def MemoObject.loadFromBackend (o : MemoObject ρ) (w : World ρ) : MemoObject ρ :=
  match o.persistence with
  | none => o
  | some (dir, fp) => (hydrate w.disk dir fp w.clockUnix).foldl (loadSlot w.clock w.clockUnix) o

/-- Whether the store publishes a slot for the next value. -/
def publishes (now : ℤ) (st : VgiMemoArena.StoreLoop) (key : Bytes) : Bool :=
  match st.slots.lookup key with
  | none => st.slots.entries.length < kMaxSlots
  | some old => old.isStale now && (st.slots.erase key).entries.length < kMaxSlots

/-- The values a store publishes, with the offsets of their rows in the batch. -/
def newSlots (now expiresAt : ℤ) (neverExpires : Bool) :
    VgiMemoArena.StoreLoop → List ArenaStoreSpec → List (ℕ × ArenaStoreSpec)
  | _, [] => []
  | st, sp :: specs =>
    let rest := newSlots now expiresAt neverExpires (st.store now expiresAt neverExpires 0 sp) specs
    if publishes now st sp.key then (st.off, sp) :: rest else rest

/-- Insert a row, in the place of the one with its key. -/
def insertOrReplace (disk : List (PersistedSlot ρ)) (p : PersistedSlot ρ) : List (PersistedSlot ρ) :=
  disk.filter (fun q => !(q.dir = p.dir && q.staticFp = p.staticFp && q.inputBlob = p.inputBlob)) ++ [p]

/-- Persist what a store has published. -/
def persistNewSlotsLocked (w : World ρ) (o : MemoObject ρ) (batch : List ρ)
    (published : List (ℕ × ArenaStoreSpec)) (expiresAt : ℤ) (neverExpires : Bool) : List (PersistedSlot ρ) :=
  match o.persistence with
  | none => w.disk
  | some (dir, fp) =>
    published.foldl (fun disk x => insertOrReplace disk
      { dir, staticFp := fp, inputBlob := x.2.key, schema := o.schema
        rows := (batch.drop x.1).take x.2.length
        expiresUnix := if neverExpires then -1
          else w.clockUnix + (expiresAt - w.clock).tdiv nsPerSecond
        validator := o.arena.getValidator x.2.validatorRef
        storedAt := w.time }) w.disk

/-! ### The operations -/

namespace World

/-- Put a new arena under a name. -/
def register (w : World ρ) (fp : Bytes) (o : MemoObject ρ) (bytes : ℤ) : World ρ :=
  { w with registry := w.registry.emplace fp w.objects.length bytes, objects := w.objects ++ [o] }

def nextTick (w : World ρ) : World ρ :=
  { w with registry := { w.registry with tick := w.registry.tick + 1 } }

/-- The arena under a name, from the file if need be. `bytes` is the footprint of what is loaded. -/
def get (w : World ρ) (fp : Bytes) (bytes : ℤ) : Option ℕ × World ρ :=
  match w.registry.arenas.lookup fp with
  | some e => (some e.object, { w with registry := w.nextTick.registry.touch fp e })
  | none =>
    match w.registry.backend with
    | none => (none, w)
    | some dir =>
      let o := MemoObject.loadFromBackend { persistence := some (dir, fp) } w
      if o.arena.slots.entries.isEmpty then (none, w)
      else (some w.objects.length, w.nextTick.register fp o bytes)

/-- The arena under a name, a new one if there is none. An arena of another schema is refused. -/
def getOrCreate (w : World ρ) (fp : Bytes) (schema : Option Bytes) (bytes : ℤ) : Option ℕ × World ρ :=
  match w.registry.arenas.lookup fp with
  | some e =>
    let known := (w.objects[e.object]?.bind (·.schema))
    if schema.isSome && known.isSome && known ≠ schema then (none, w.nextTick)
    else (some e.object, { w with registry := w.nextTick.registry.touch fp e })
  | none =>
    let o : MemoObject ρ := { schema, persistence := w.registry.backend.map fun dir => (dir, fp) }
    (some w.objects.length, w.nextTick.register fp (o.loadFromBackend w) bytes)

end World

/-- The slots a store publishes were stored now. -/
def MemoObject.restamp (o : MemoObject ρ) (w : World ρ) (specs : List ArenaStoreSpec) : Bytes → ℕ :=
  fun key =>
    if (specs.map (·.key)).contains key ∧ o.arena.freshSlot w.clock key = none then w.time
    else o.storedAt key

/-- Store a batch in an arena. `persisted` is whether the rows are committed to the file. -/
def World.store (w : World ρ) (n : ℕ) (o : MemoObject ρ) (order : VisitOrder) (batch : List ρ)
    (validator : ArenaValidator) (values : List (Bytes × ℕ)) (expiresAt : ℤ)
    (neverExpires persisted : Bool) : Option (World ρ) :=
  let v := o.arena.resolveValidator validator
  let specs := values.map fun x => ({ key := x.1, length := x.2, validatorRef := v.1 } : ArenaStoreSpec)
  let published := newSlots w.clock expiresAt neverExpires { slots := v.2.slots, deadRows := v.2.deadRows }
    specs
  (v.2.store order batch specs w.clock expiresAt neverExpires).map fun a =>
    { w with
      objects := w.objects.set n { o with arena := a, storedAt := o.restamp w specs }
      disk := if persisted then
          persistNewSlotsLocked w { o with arena := v.2 } batch published expiresAt neverExpires
        else w.disk }

/-- What happens to the memos of a database. The executions are numbered. -/
inductive Action (ρ : Type)
  | pass (clock clockUnix : ℤ)
  | start (staticFp : Bytes)
  | get (i : ℕ) (bytes : ℤ)
  | probe (i : ℕ) (keys : List Bytes)
  | getOrCreate (i : ℕ) (schema : Option Bytes) (bytes : ℤ)
  | store (i : ℕ) (order : VisitOrder) (batch : List ρ) (validator : ArenaValidator)
    (values : List (Bytes × ℕ)) (expiresAt : ℤ) (neverExpires persisted : Bool)
  | noteFootprintDelta (i : ℕ) (delta : ℤ)
  | setMaxBytes (maxBytes : ℤ)
  | ensureSqliteBackend (dir : Bytes) (opens : Bool)
  | releaseBackend
  /-- Rows leave the file: expired, evicted, or with the file. -/
  | deleteRows (kept : Bytes → Bytes → Bytes → Bool)
  | clearCache (catalog : Bytes)
  /-- Another process takes over the files. -/
  | restart (clock : ℤ)

/-- What an execution is answered by a probe. -/
def answersOf (x : Execution) (o : MemoObject ρ) (keys : List Bytes) (hits : List Bool) : List MemoAnswer :=
  ((keys.zip hits).filter (·.2)).map fun k => { key := k.1, floor := x.floor, storedAt := o.storedAt k.1 }

/-- The execution has been given an arena, or none. -/
def World.hand (w : World ρ) (i : ℕ) (x : Execution) (r : Option ℕ × World ρ) : World ρ :=
  { r.2 with executions := w.executions.set i { x with object := r.1 } }

variable (catalogOf : Bytes → Bytes)

/-- The arenas are named after their functions: `catalogOf` is the catalog of a name. -/
def step (w : World ρ) : Action ρ → Option (World ρ)
  | .pass clock clockUnix => if w.clock ≤ clock then some { w with clock, clockUnix } else none
  | .start fp =>
    some { w with executions := w.executions ++ [{ staticFp := fp, floor := w.clearedAt (catalogOf fp) }] }
  | .get i bytes => do
    let x ← w.executions[i]?
    return w.hand i x (w.get x.staticFp bytes)
  | .getOrCreate i schema bytes => do
    let x ← w.executions[i]?
    return w.hand i x (w.getOrCreate x.staticFp schema bytes)
  | .probe i keys => do
    let x ← w.executions[i]?
    let o ← w.objects[← x.object]?
    let r ← o.arena.probe keys w.clock
    return { w with answers := w.answers ++ answersOf x o keys r.hit }
  | .store i order batch validator values expiresAt neverExpires persisted => do
    let x ← w.executions[i]?
    let n ← x.object
    let o ← w.objects[n]?
    w.store n o order batch validator values expiresAt neverExpires persisted
  | .noteFootprintDelta i delta => do
    let x ← w.executions[i]?
    let n ← x.object
    return { w with registry := w.registry.noteFootprintDelta x.staticFp delta n }
  | .setMaxBytes maxBytes => some { w with registry := w.registry.setMaxBytes maxBytes }
  | .ensureSqliteBackend dir opens => some { w with registry := w.registry.ensureSqliteBackend dir opens }
  | .releaseBackend => some { w with registry := w.registry.releaseBackend }
  | .deleteRows kept => some { w with disk := w.disk.filter fun p => kept p.dir p.staticFp p.inputBlob }
  -- the result cache and the catalog's entries are cleared, the arenas are not among them
  | .clearCache catalog =>
    some { w with time := w.time + 1, clearedAt := Function.update w.clearedAt catalog (w.time + 1) }
  | .restart clock =>
    some { w with registry := {}, objects := [], executions := [], clock }

def machine : Machine (World ρ) (Action ρ) := ⟨step catalogOf⟩

/-- No slot of the catalog can be served any more. -/
abbrev Spent (w : World ρ) (catalog : Bytes) : Prop :=
  (∀ x ∈ w.registry.arenas.entries, catalogOf x.1 = catalog →
    ∀ o ∈ w.objects[x.2.object]?, ∀ y ∈ o.arena.slots.entries, y.2.isStale w.clock = true) ∧
  ∀ p ∈ w.disk, catalogOf p.staticFp = catalog → p.isExpired w.clockUnix = true

/-- A clear finds the catalog's slots spent, and the wall clock is not set back. -/
abbrev rule (w : World ρ) : Action ρ → Prop
  | .clearCache catalog => Spent catalogOf w catalog
  | .pass _ clockUnix => w.clockUnix ≤ clockUnix
  | _ => True

instance (catalogOf : Bytes → Bytes) (w : World ρ) (a : Action ρ) : Decidable (rule catalogOf w a) := by
  rcases a <;> infer_instance

/-! ## Slots and the time they were stored -/

variable {now : ℤ}

theorem isStale_antitone {s : VgiMemoSlot} {now' : ℤ} (hle : now ≤ now') (h : s.isStale now' = false) :
    s.isStale now = false := by
  rw [VgiMemoSlot.isStale, Bool.and_eq_false_iff, decide_eq_false_iff_not] at h ⊢
  exact h.imp_right fun hlt hex => hlt (hex.trans hle)

theorem slots_resolveValidator (a : VgiMemoArena ρ) (v : ArenaValidator) :
    (a.resolveValidator v).2.slots = a.slots := by
  rw [resolveValidator]
  split_ifs
  · rfl
  · rcases a.validators.findIdx? (· = v) with _ | _ <;> rfl

variable {expiresAt : ℤ} {neverExpires : Bool} {key : Bytes} {specs : List ArenaStoreSpec}

/-- The slots of other keys are left alone by a store. -/
theorem lookup_foldl_store {base : ℕ} (hkey : key ∉ specs.map (·.key)) (st : VgiMemoArena.StoreLoop) :
    (specs.foldl (VgiMemoArena.StoreLoop.store now expiresAt neverExpires base) st).slots.lookup key =
      st.slots.lookup key := by
  induction specs generalizing st with
  | nil => rfl
  | cons sp specs ih =>
    rw [map_cons, mem_cons, not_or] at hkey
    have hpb (st : VgiMemoArena.StoreLoop) s : (st.publish sp.key s).slots.lookup key = st.slots.lookup key := by
      rw [VgiMemoArena.StoreLoop.publish]
      split_ifs
      · rfl
      · exact AList.lookup_insert_ne hkey.1
    rw [foldl_cons, ih hkey.2, VgiMemoArena.StoreLoop.store]
    rcases st.slots.lookup sp.key with _ | old
    · exact hpb _ _
    · dsimp only
      split_ifs
      · exact (hpb _ _).trans (AList.lookup_erase_ne hkey.1)
      · rfl

theorem mem_rebase {cursor : ℕ} {kept : List (Sigma fun _ : Bytes => VgiMemoSlot)}
    {x : Sigma fun _ : Bytes => VgiMemoSlot} (hx : x ∈ rebase cursor kept) :
    ∃ s, ⟨x.1, s⟩ ∈ kept ∧ x.2 = { s with rowStart := x.2.rowStart } := by
  induction kept generalizing cursor with
  | nil => cases hx
  | cons y kept ih =>
    rcases mem_cons.1 hx with rfl | hx
    · exact ⟨y.2, mem_cons_self, rfl⟩
    · obtain ⟨s, hs, heq⟩ := ih hx
      exact ⟨s, mem_cons_of_mem y hs, heq⟩

variable {a : VgiMemoArena ρ} {order : VisitOrder}

/-- What a compaction keeps was there, with the same expiry. -/
theorem compactLocked_slot {a' : VgiMemoArena ρ} (h : a.compactLocked order now = some a') {s' : VgiMemoSlot}
    (hs : a'.slots.lookup key = some s') : ∃ s, a.slots.lookup key = some s ∧ ∀ t, s.isStale t = s'.isStale t := by
  obtain ⟨nb, -, rfl⟩ := map_eq_some_iff.1 h
  rw [AList.lookup_to_alist] at hs
  obtain ⟨s, hkp, heq⟩ := mem_rebase (of_mem_dlookup hs)
  have hent := (order.visit_perm _).mem_iff.1 (mem_of_mem_filter hkp)
  refine ⟨s, AList.mem_lookup_iff.2 hent, fun t => ?_⟩
  dsimp only at heq
  rw [heq]
  rfl

variable {batch : List ρ}

/-- A key that has a fresh slot after a store is one of those stored, or had a fresh slot. -/
theorem store_slot {a' : VgiMemoArena ρ} (h : a.store order batch specs now expiresAt neverExpires = some a')
    {s' : VgiMemoSlot} (hs : a'.slots.lookup key = some s') (hfr : s'.isStale now = false) :
    key ∈ specs.map (·.key) ∨ ∃ s, a.freshSlot now key = some s := by
  by_cases hkey : key ∈ specs.map (·.key)
  · exact .inl hkey
  right
  obtain ⟨s, hlk, hst⟩ : ∃ s, (a.append batch specs now expiresAt neverExpires).slots.lookup key =
      some s ∧ ∀ t, s.isStale t = s'.isStale t := by
    rw [store] at h
    split_ifs at h
    · exact compactLocked_slot h hs
    · cases h
      exact ⟨s', hs, fun _ => rfl⟩
  have hpre : a.slots.lookup key = some s := (lookup_foldl_store hkey _).symm.trans hlk
  refine ⟨s, ?_⟩
  rw [freshSlot, hpre, filter_some, hst, hfr]
  rfl

/-- What the arena can still answer was stored at `floor` or later. -/
def MemoObject.Since (o : MemoObject ρ) (clock : ℤ) (floor : ℕ) : Prop :=
  ∀ key s, o.arena.slots.lookup key = some s → s.isStale clock = false → floor ≤ o.storedAt key

namespace MemoObject

variable {floor : ℕ} {o : MemoObject ρ} {clock : ℤ}

theorem Since.of_fresh (h : o.Since clock floor) {s : VgiMemoSlot} (hs : o.arena.freshSlot clock key = some s) :
    floor ≤ o.storedAt key := by
  rw [freshSlot, filter_eq_some_iff, Bool.not_eq_true'] at hs
  exact h key s hs.1 hs.2

theorem Since.mono {clock' : ℤ} {floor' : ℕ} (h : o.Since clock floor) (hcl : clock ≤ clock')
    (hfl : floor' ≤ floor) : o.Since clock' floor' := by
  intro key s hs hfr
  exact hfl.trans (h key s hs (isStale_antitone hcl hfr))

/-- A store leaves the slots that can be served, and stamps the new ones. -/
theorem Since.store {w : World ρ} (h : o.Since w.clock floor) (hfl : floor ≤ w.time) {validator : ArenaValidator}
    (ha : (o.arena.resolveValidator validator).2.store order batch specs w.clock expiresAt neverExpires = some a) :
    Since { o with arena := a, storedAt := o.restamp w specs } w.clock floor := by
  intro key s hs hfr
  have hsl := store_slot ha hs hfr
  rw [freshSlot, slots_resolveValidator] at hsl
  change floor ≤ o.restamp w specs key
  rw [restamp]
  split_ifs with hnew
  · exact hfl
  rcases hold : o.arena.freshSlot w.clock key with _ | old
  · rcases hsl with hkey | ⟨old, hold'⟩
    · exact absurd ⟨contains_iff_mem.2 hkey, hold⟩ hnew
    · cases hold.symm.trans hold'
  · exact h.of_fresh hold

theorem Since.loadSlot {clockUnix : ℤ} (h : o.Since clock floor) {p : PersistedSlot ρ} (hp : floor ≤ p.storedAt) :
    (o.loadSlot clock clockUnix p).Since clock floor := by
  intro key s hs hfr
  rw [MemoObject.loadSlot] at hs ⊢
  dsimp only at hs ⊢
  rcases htk : (o.arena.slots.lookup p.inputBlob).isSome with _ | _
  · rw [htk, if_neg Bool.false_ne_true] at hs
    rw [if_neg Bool.false_ne_true]
    rcases eq_or_ne key p.inputBlob with rfl | hne
    · rwa [update_self]
    · rw [update_of_ne hne]
      exact h key s ((AList.lookup_insert_ne hne).symm.trans hs) hfr
  · rw [htk, if_pos rfl] at hs
    exact h key s hs hfr

theorem since_foldl_loadSlot {clockUnix : ℤ} {l : List (PersistedSlot ρ)} (hl : ∀ p ∈ l, floor ≤ p.storedAt)
    (h : o.Since clock floor) : (l.foldl (MemoObject.loadSlot clock clockUnix) o).Since clock floor := by
  induction l generalizing o with
  | nil => exact h
  | cons p l ih => exact ih (fun q hq => hl q (mem_cons_of_mem p hq)) (h.loadSlot (hl p mem_cons_self))

end MemoObject

/-! ## The registry only forgets -/

/-- Each arena of `r'` is in `r`, under the same name. -/
def Registry.Sub (r' r : Registry) : Prop :=
  ∀ fp e', r'.arenas.lookup fp = some e' → ∃ e, r.arenas.lookup fp = some e ∧ e.object = e'.object

namespace Registry

variable {r r' : Registry}

theorem Sub.trans {r'' : Registry} (h : r''.Sub r') (h' : r'.Sub r) : r''.Sub r := by
  intro fp e'' he''
  obtain ⟨e', he', heq⟩ := h fp e'' he''
  obtain ⟨e, he, heq'⟩ := h' fp e' he'
  exact ⟨e, he, heq'.trans heq⟩

theorem sub_of_arenas (h : r'.arenas = r.arenas) : r'.Sub r := fun _ e he => ⟨e, h ▸ he, rfl⟩

theorem sub_of_empty (h : r'.arenas = ∅) : r'.Sub r := by
  intro fp e he
  rw [h, AList.lookup_empty] at he
  cases he

theorem erase_sub (r : Registry) (fp : Bytes) : (r.erase fp).Sub r := by
  rw [erase]
  rcases r.arenas.lookup fp with _ | e
  · exact sub_of_arenas rfl
  · exact fun fp' e' he' => ⟨e', lookup_erase_sub he', rfl⟩

theorem evictColdest_sub (keep : Bytes) (n : ℕ) (r : Registry) : (evictColdest keep n r).Sub r := by
  induction n generalizing r with
  | zero => exact sub_of_arenas rfl
  | succ n ih =>
    rw [evictColdest]
    split_ifs
    · exact sub_of_arenas rfl
    · rcases r.coldest keep with _ | fp
      · exact sub_of_arenas rfl
      · exact (ih _).trans (erase_sub r fp)

theorem fit_sub (r : Registry) (keep : Bytes) : (r.fit keep).Sub r := by
  rw [fit]
  split_ifs
  · refine (evictColdest_sub keep _ _).trans ?_
    rcases r.arenas.lookup keep with _ | e
    · exact sub_of_arenas rfl
    · dsimp only
      split_ifs
      · exact erase_sub r keep
      · exact sub_of_arenas rfl
  · exact sub_of_arenas rfl

/-- An entry may change all but its arena. -/
theorem insert_sub {fp : Bytes} {e e' : RegistryEntry} (he : r.arenas.lookup fp = some e)
    (h : r'.arenas = r.arenas.insert fp e') (hob : e.object = e'.object) : r'.Sub r := by
  intro fp' e'' he''
  rw [h] at he''
  rcases lookup_insert_eq_some he'' with ⟨rfl, rfl⟩ | ⟨-, he''⟩
  · exact ⟨e, he, hob⟩
  · exact ⟨e'', he'', rfl⟩

theorem noteFootprintDelta_sub (r : Registry) (fp : Bytes) (delta : ℤ) (object : ℕ) :
    (r.noteFootprintDelta fp delta object).Sub r := by
  rw [noteFootprintDelta]
  rcases he : r.arenas.lookup fp with _ | e
  · exact sub_of_arenas rfl
  · dsimp only
    split_ifs
    · exact sub_of_arenas rfl
    · exact (fit_sub _ fp).trans (insert_sub he rfl rfl)

theorem setMaxBytes_sub (r : Registry) (maxBytes : ℤ) : (r.setMaxBytes maxBytes).Sub r :=
  (fit_sub _ []).trans (sub_of_arenas rfl)

theorem ensureSqliteBackend_sub (r : Registry) (dir : Bytes) (opens : Bool) :
    (r.ensureSqliteBackend dir opens).Sub r := by
  rw [ensureSqliteBackend]
  by_cases hdir : dir = r.backendDir
  · rw [if_pos hdir]
    exact sub_of_arenas rfl
  · rw [if_neg hdir]
    exact sub_of_empty rfl

/-- A new arena is the only one that is not forgotten. -/
theorem lookup_emplace {fp fp' : Bytes} {object : ℕ} {bytes : ℤ} {e' : RegistryEntry}
    (he : (r.emplace fp object bytes).arenas.lookup fp' = some e') :
    fp' = fp ∧ e'.object = object ∨ ∃ e, r.arenas.lookup fp' = some e ∧ e.object = e'.object := by
  obtain ⟨e, hlk, hob⟩ := fit_sub _ fp fp' e' he
  rcases lookup_insert_eq_some hlk with ⟨rfl, rfl⟩ | ⟨-, hlk⟩
  · exact .inl ⟨rfl, hob.symm⟩
  · exact .inr ⟨e, hlk, hob⟩

end Registry

/-! ## The invariant -/

variable {catalogOf : Bytes → Bytes}

/-- The object of this number can answer only what was stored at `floor` or later. -/
def World.Holds (w : World ρ) (n floor : ℕ) : Prop :=
  ∃ o, w.objects[n]? = some o ∧ o.Since w.clock floor

structure Inv (catalogOf : Bytes → Bytes) (w : World ρ) : Prop where
  registered : ∀ fp e, w.registry.arenas.lookup fp = some e → w.Holds e.object (w.clearedAt (catalogOf fp))
  held : ∀ x ∈ w.executions, ∀ n, x.object = some n → w.Holds n x.floor
  floor_le : ∀ x ∈ w.executions, x.floor ≤ w.clearedAt (catalogOf x.staticFp)
  persisted : ∀ p ∈ w.disk, p.isExpired w.clockUnix = false → w.clearedAt (catalogOf p.staticFp) ≤ p.storedAt
  cleared_le : ∀ c, w.clearedAt c ≤ w.time
  answered : ∀ a ∈ w.answers, a.floor ≤ a.storedAt

theorem inv_start : Inv catalogOf ({} : World ρ) where
  registered := by
    intro fp e he
    cases he
  held := nofun
  floor_le := nofun
  persisted := nofun
  cleared_le := fun _ => le_rfl
  answered := fun _ ha => absurd ha not_mem_nil

namespace Inv

variable {w : World ρ}

theorem registry (h : Inv catalogOf w) {r : Registry} (hr : r.Sub w.registry) :
    Inv catalogOf { w with registry := r } where
  registered := by
    intro fp e he
    obtain ⟨e₀, he₀, hob⟩ := hr fp e he
    exact hob ▸ h.registered fp e₀ he₀
  __ := h

theorem holds_append {n floor : ℕ} (h : w.Holds n floor) (o : MemoObject ρ) (r : Registry) :
    World.Holds { w with registry := r, objects := w.objects ++ [o] } n floor := by
  obtain ⟨o₁, ho₁, hsn⟩ := h
  exact ⟨o₁, getElem?_append_left (List.getElem?_eq_some_iff.1 ho₁).1 ▸ ho₁, hsn⟩

theorem register (h : Inv catalogOf w) {fp : Bytes} {o : MemoObject ρ} {bytes : ℤ}
    (ho : o.Since w.clock (w.clearedAt (catalogOf fp))) : Inv catalogOf (w.register fp o bytes) where
  registered := by
    intro fp' e he
    rcases lookup_emplace he with ⟨rfl, hob⟩ | ⟨e₀, he₀, hob⟩
    · exact ⟨o, by rw [hob]; exact getElem?_concat_length, ho⟩
    · exact hob ▸ holds_append (h.registered fp' e₀ he₀) o _
  held := fun x hx n hn => holds_append (h.held x hx n hn) o _
  __ := h

/-- An arena filled from the file has what was persisted since the last clear. -/
theorem since_loadFromBackend (h : Inv catalogOf w) {o : MemoObject ρ} {fp : Bytes} (hsl : o.arena.slots = ∅)
    (hnm : ∀ d ∈ o.persistence, d.2 = fp) : (o.loadFromBackend w).Since w.clock (w.clearedAt (catalogOf fp)) := by
  have hem : o.Since w.clock (w.clearedAt (catalogOf fp)) := by
    intro key s hs
    rw [hsl, AList.lookup_empty] at hs
    cases hs
  rw [MemoObject.loadFromBackend]
  rcases hpr : o.persistence with _ | ⟨dir, fp'⟩
  · exact hem
  obtain rfl : fp' = fp := hnm _ hpr
  refine MemoObject.since_foldl_loadSlot (fun p hp => ?_) hem
  rw [hydrate, mem_filter, Bool.and_eq_true, Bool.and_eq_true, Bool.not_eq_true'] at hp
  obtain ⟨hmem, ⟨-, hfp⟩, hlv⟩ := hp
  exact of_decide_eq_true hfp ▸ h.persisted p hmem hlv

end Inv

/-- What an execution is given: an arena with nothing from before the last clear. -/
structure Given (catalogOf : Bytes → Bytes) (w : World ρ) (fp : Bytes) (r : Option ℕ × World ρ) : Prop where
  inv : Inv catalogOf r.2
  executions : r.2.executions = w.executions
  clearedAt : r.2.clearedAt = w.clearedAt
  object : ∀ n, r.1 = some n → r.2.Holds n (w.clearedAt (catalogOf fp))

namespace Inv

variable {w : World ρ}

section

variable (h : Inv catalogOf w)

include h

/-- The arena under the name is used once more. -/
theorem given_touch {fp : Bytes} {e : RegistryEntry} (he : w.registry.arenas.lookup fp = some e) :
    Given catalogOf w fp (some e.object, { w with registry := w.nextTick.registry.touch fp e }) where
  inv := h.registry (insert_sub he rfl rfl)
  executions := rfl
  clearedAt := rfl
  object := by
    rintro n ⟨⟩
    exact h.registered fp e he

variable {o : MemoObject ρ}

theorem given_register {fp : Bytes} (ho : o.Since w.clock (w.clearedAt (catalogOf fp)))
    (bytes : ℤ) : Given catalogOf w fp (some w.objects.length, w.nextTick.register fp o bytes) where
  inv := (h.registry (sub_of_arenas rfl) : Inv catalogOf w.nextTick).register ho
  executions := rfl
  clearedAt := rfl
  object := by
    rintro n ⟨⟩
    exact ⟨o, getElem?_concat_length, ho⟩

theorem given_none {r : Registry} (hr : r.Sub w.registry) :
    Given catalogOf w fp (none, { w with registry := r }) :=
  ⟨h.registry hr, rfl, rfl, nofun⟩

theorem get (bytes : ℤ) : Given catalogOf w fp (w.get fp bytes) := by
  rw [World.get]
  rcases he : w.registry.arenas.lookup fp with _ | e
  · rcases w.registry.backend with _ | dir
    · exact h.given_none fp (sub_of_arenas rfl)
    dsimp only
    split_ifs
    · exact h.given_none fp (sub_of_arenas rfl)
    · refine h.given_register (h.since_loadFromBackend rfl ?_) bytes
      rintro d ⟨⟩
      rfl
  · exact h.given_touch he

theorem getOrCreate (schema : Option Bytes) (bytes : ℤ) :
    Given catalogOf w fp (w.getOrCreate fp schema bytes) := by
  rw [World.getOrCreate]
  rcases he : w.registry.arenas.lookup fp with _ | e
  · refine h.given_register (h.since_loadFromBackend rfl ?_) bytes
    intro d hd
    obtain ⟨dir, -, rfl⟩ := Option.mem_map.1 hd
    rfl
  · dsimp only
    split_ifs
    · exact h.given_none fp (sub_of_arenas rfl)
    · exact h.given_touch he

variable {x : Execution}

theorem hand {i : ℕ} (hx : w.executions[i]? = some x) {r : Option ℕ × World ρ}
    (hr : Given catalogOf w x.staticFp r) : Inv catalogOf (w.hand i x r) := by
  have hmem := mem_of_getElem? hx
  obtain ⟨hinv, hex, hcl, hob⟩ := hr
  refine { hinv with held := ?_, floor_le := ?_ }
  · intro y hy n hn
    rcases mem_or_eq_of_mem_set hy with hy | rfl
    · exact hinv.held y (hex ▸ hy) n hn
    · obtain ⟨o, ho, hsn⟩ := hob n hn
      exact ⟨o, ho, hsn.mono le_rfl (h.floor_le x hmem)⟩
  · intro y hy
    rcases mem_or_eq_of_mem_set hy with hy | rfl
    · exact hinv.floor_le y (hex ▸ hy)
    · exact hcl ▸ h.floor_le x hmem

end

variable {r : ArenaProbeResult ρ}

/-- What an execution is answered was in the arena it holds. -/
theorem answersOf_since {clock : ℤ} (ho : o.Since clock x.floor) {keys : List Bytes}
    (hr : o.arena.probe keys clock = some r) : ∀ a ∈ answersOf x o keys r.hit, a.floor ≤ a.storedAt := by
  have hhit : r.hit = keys.map fun k => (o.arena.freshSlot clock k).isSome := by
    have hks := (foldl_probeKey o.arena clock keys 0 {}).hit
    rw [probe] at hr
    split_ifs at hr
    · cases hr
      exact hks
    · obtain ⟨rows, -, rfl⟩ := map_eq_some_iff.1 hr
      exact hks
  intro a ha
  rw [answersOf, hhit] at ha
  obtain ⟨k, hk, rfl⟩ := List.mem_map.1 ha
  obtain ⟨hzp, htr⟩ := mem_filter.1 hk
  have hpr : keys.zip (keys.map fun k => (o.arena.freshSlot clock k).isSome) =
      keys.map fun k => (k, (o.arena.freshSlot clock k).isSome) := by
    simpa using zip_map' (f := id)
  rw [hpr] at hzp
  obtain ⟨key, -, rfl⟩ := List.mem_map.1 hzp
  obtain ⟨s, hs⟩ := isSome_iff_exists.1 htr
  exact ho.of_fresh hs

theorem probe (h : Inv catalogOf w) (hx : x ∈ w.executions) {n : ℕ} (hn : x.object = some n)
    (ho : w.objects[n]? = some o) {keys : List Bytes} (hr : o.arena.probe keys w.clock = some r) :
    Inv catalogOf { w with answers := w.answers ++ answersOf x o keys r.hit } := by
  obtain ⟨o', ho', hsn⟩ := h.held x hx n hn
  cases ho.symm.trans ho'
  refine { h with answered := fun a ha => ?_ }
  exact (mem_append.1 ha).elim (h.answered a) (answersOf_since hsn hr a)

/-- What is persisted is what was, and what is stored now. -/
theorem mem_persistNewSlotsLocked {published : List (ℕ × ArenaStoreSpec)} {p : PersistedSlot ρ}
    (hp : p ∈ persistNewSlotsLocked w o batch published expiresAt neverExpires) :
    p ∈ w.disk ∨ p.storedAt = w.time := by
  rw [persistNewSlotsLocked] at hp
  generalize o.persistence = persistence at hp
  obtain _ | ⟨dir, fp⟩ := persistence
  · exact .inl hp
  generalize w.disk = disk at hp ⊢
  induction published generalizing disk with
  | nil => exact .inl hp
  | cons x published ih =>
    refine (ih _ hp).elim (fun hmem => ?_) .inr
    rcases mem_append.1 hmem with hold | hnew
    · exact .inl (mem_of_mem_filter hold)
    · exact .inr (congrArg PersistedSlot.storedAt (mem_singleton.1 hnew))

section

variable (h : Inv catalogOf w)

include h

/-- A store is not before any clear. -/
theorem store {n : ℕ} (ho : w.objects[n]? = some o) {validator : ArenaValidator}
    {values : List (Bytes × ℕ)} {persisted : Bool} {w' : World ρ}
    (hst : w.store n o order batch validator values expiresAt neverExpires persisted = some w') :
    Inv catalogOf w' := by
  obtain ⟨a, ha, rfl⟩ := map_eq_some_iff.1 hst
  have hhl {m floor : ℕ} (hfl : floor ≤ w.time) (hm : w.Holds m floor) {disk : List (PersistedSlot ρ)}
      {specs : List ArenaStoreSpec}
      (hsp : (o.arena.resolveValidator validator).2.store order batch specs w.clock expiresAt neverExpires = some a) :
      World.Holds { w with
        objects := w.objects.set n { o with arena := a, storedAt := o.restamp w specs }, disk } m floor := by
    obtain ⟨o₁, ho₁, hsn⟩ := hm
    rcases eq_or_ne n m with rfl | hne
    · cases ho.symm.trans ho₁
      exact ⟨_, getElem?_set_self (List.getElem?_eq_some_iff.1 ho).1, hsn.store hfl hsp⟩
    · exact ⟨o₁, (getElem?_set_ne hne).trans ho₁, hsn⟩
  refine ⟨?_, ?_, h.floor_le, ?_, h.cleared_le, h.answered⟩
  · intro fp e he
    exact hhl (h.cleared_le _) (h.registered fp e he) ha
  · intro x hx m hm
    exact hhl ((h.floor_le x hx).trans (h.cleared_le _)) (h.held x hx m hm) ha
  intro p hp hlv
  split_ifs at hp
  · rcases mem_persistNewSlotsLocked hp with hp | hp
    · exact h.persisted p hp hlv
    · exact (h.cleared_le _).trans hp.ge
  · exact h.persisted p hp hlv

theorem pass {clock clockUnix : ℤ} (hcl : w.clock ≤ clock)
    (hun : w.clockUnix ≤ clockUnix) : Inv catalogOf { w with clock, clockUnix } := by
  have hhl {n floor : ℕ} (hn : w.Holds n floor) : World.Holds { w with clock, clockUnix } n floor := by
    obtain ⟨o, ho, hsn⟩ := hn
    exact ⟨o, ho, hsn.mono hcl le_rfl⟩
  refine { h with
    registered := fun fp e he => hhl (h.registered fp e he)
    held := fun x hx n hn => hhl (h.held x hx n hn)
    persisted := fun p hp hlv => h.persisted p hp ?_ }
  rw [PersistedSlot.isExpired, Bool.and_eq_false_iff, decide_eq_false_iff_not, decide_eq_false_iff_not] at hlv ⊢
  exact hlv.imp_right fun hlt hex => hlt (hex.trans hun)

theorem start : Inv catalogOf { w with
      executions := w.executions ++ [{ staticFp := fp, floor := w.clearedAt (catalogOf fp) }] } := by
  refine { h with held := ?_, floor_le := ?_ }
  · intro x hx n hn
    rcases mem_append.1 hx with hx | hx
    · exact h.held x hx n hn
    · cases mem_singleton.1 hx
      cases hn
  · intro x hx
    rcases mem_append.1 hx with hx | hx
    · exact h.floor_le x hx
    · cases mem_singleton.1 hx
      exact le_rfl

/-- A clear that finds the slots of its catalog spent. -/
theorem clearCache {catalog : Bytes} (hsp : Spent catalogOf w catalog) :
    Inv catalogOf { w with
      time := w.time + 1, clearedAt := Function.update w.clearedAt catalog (w.time + 1) } := by
  have hle c : w.clearedAt c ≤ Function.update w.clearedAt catalog (w.time + 1) c := by
    rcases eq_or_ne c catalog with rfl | hne
    · rw [update_self]
      exact (h.cleared_le c).trans (Nat.le_succ _)
    · rw [update_of_ne hne]
  refine ⟨?_, h.held, fun x hx => (h.floor_le x hx).trans (hle _), ?_, ?_, h.answered⟩
  · intro fp e he
    obtain ⟨o, ho, hsn⟩ := h.registered fp e he
    refine ⟨o, ho, fun key s hs hfr => ?_⟩
    dsimp only
    rcases eq_or_ne (catalogOf fp) catalog with hct | hne
    · have hst := hsp.1 ⟨fp, e⟩ (AList.mem_lookup_iff.1 he) hct o ho ⟨key, s⟩ (AList.mem_lookup_iff.1 hs)
      exact absurd (hst.symm.trans hfr) Bool.noConfusion
    · rw [update_of_ne hne]
      exact hsn key s hs hfr
  · intro p hp hlv
    dsimp only at hlv ⊢
    rcases eq_or_ne (catalogOf p.staticFp) catalog with hct | hne
    · exact absurd ((hsp.2 p hp hct).symm.trans hlv) Bool.noConfusion
    · rw [update_of_ne hne]
      exact h.persisted p hp hlv
  · intro c
    dsimp only
    rcases eq_or_ne c catalog with rfl | hne
    · rw [update_self]
    · rw [update_of_ne hne]
      exact (h.cleared_le c).trans (Nat.le_succ _)

theorem restart (clock : ℤ) : Inv catalogOf { w with registry := {}, objects := [], executions := [], clock } where
  registered := by
    intro fp e he
    cases he
  held := nofun
  floor_le := nofun
  __ := h

theorem step {a : Action ρ} (hrl : rule catalogOf w a) {w' : World ρ}
    (hst : (machine catalogOf).step w a = some w') : Inv catalogOf w' := by
  cases a with
  | pass clock clockUnix =>
    obtain ⟨hcl, hw'⟩ := ite_none_right_eq_some.1 hst
    cases hw'
    exact h.pass hcl hrl
  | start fp =>
    cases hst
    exact h.start fp
  | get i bytes =>
    obtain ⟨x, hx, hw'⟩ := bind_eq_some_iff.1 hst
    cases hw'
    exact h.hand hx (h.get x.staticFp bytes)
  | getOrCreate i schema bytes =>
    obtain ⟨x, hx, hw'⟩ := bind_eq_some_iff.1 hst
    cases hw'
    exact h.hand hx (h.getOrCreate x.staticFp schema bytes)
  | probe i keys =>
    obtain ⟨x, hx, hrs⟩ := bind_eq_some_iff.1 hst
    obtain ⟨n, hn, hrs⟩ := bind_eq_some_iff.1 hrs
    obtain ⟨o, ho, hrs⟩ := bind_eq_some_iff.1 hrs
    obtain ⟨r, hr, hw'⟩ := bind_eq_some_iff.1 hrs
    cases hw'
    exact h.probe (mem_of_getElem? hx) hn ho hr
  | store i order batch validator values expiresAt neverExpires persisted =>
    obtain ⟨x, hx, hrs⟩ := bind_eq_some_iff.1 hst
    obtain ⟨n, hn, hrs⟩ := bind_eq_some_iff.1 hrs
    obtain ⟨o, ho, hsto⟩ := bind_eq_some_iff.1 hrs
    exact h.store ho hsto
  | noteFootprintDelta i delta =>
    obtain ⟨x, hx, hrs⟩ := bind_eq_some_iff.1 hst
    obtain ⟨n, hn, hw'⟩ := bind_eq_some_iff.1 hrs
    cases hw'
    exact h.registry (noteFootprintDelta_sub _ _ _ _)
  | setMaxBytes maxBytes =>
    cases hst
    exact h.registry (setMaxBytes_sub _ _)
  | ensureSqliteBackend dir opens =>
    cases hst
    exact h.registry (ensureSqliteBackend_sub _ _ _)
  | releaseBackend =>
    cases hst
    exact h.registry (sub_of_empty rfl)
  | deleteRows kept =>
    cases hst
    exact { h with persisted := fun p hp => h.persisted p (mem_of_mem_filter hp) }
  | clearCache catalog =>
    cases hst
    exact h.clearCache hrl
  | restart clock =>
    cases hst
    exact h.restart clock

end

end Inv

/-! ## Runs -/

/-- If each clear of a catalog's cache finds the memos of the catalog spent, no execution is
    answered from a slot that was stored before a clear that the execution started after. -/
theorem cleared_memos_unserved (catalogOf : Bytes → Bytes) {actions : List (Action ρ)} {w : World ρ}
    (hrule : (machine catalogOf).Along (rule catalogOf) {} actions)
    (hrun : (machine catalogOf).run {} actions = some w) : ∀ a ∈ w.answers, a.floor ≤ a.storedAt :=
  (Machine.run_invariant_along (fun h hC hst => Inv.step h hC hst) inv_start hrule hrun).answered

/-- Two stores with a clear in between, when the first slot has expired in memory and on disk. -/
theorem cleared_memos_unserved_expired :
    ∃ w : World ℕ, w.answers = [⟨ascii "k", 1, 1⟩] ∧ ∀ a ∈ w.answers, a.floor ≤ a.storedAt := by
  let actions : List (Action ℕ) :=
    [.ensureSqliteBackend (ascii "/cache") true,
     .start (ascii "f"), .getOrCreate 0 none 0,
     .store 0 MemoArena.inOrder [7] {} [(ascii "k", 1)] 5000000000 false true,
     .noteFootprintDelta 0 100, .pass 6000000000 6, .clearCache (ascii "f"),
     .start (ascii "f"), .get 1 0, .probe 1 [ascii "k"], .getOrCreate 1 none 0,
     .store 1 MemoArena.inOrder [8] {} [(ascii "k", 1)] 9000000000 false true,
     .restart 0, .ensureSqliteBackend (ascii "/cache") true,
     .start (ascii "f"), .get 0 100, .probe 0 [ascii "k"]]
  have hrl : (machine id).Along (rule id) ({} : World ℕ) actions := by decide +kernel
  have hrun : ((machine id).run ({} : World ℕ) actions).map (·.answers) = some [⟨ascii "k", 1, 1⟩] := by
    decide +kernel
  obtain ⟨w, hw, han⟩ := map_eq_some_iff.1 hrun
  exact ⟨w, han, cleared_memos_unserved id hrl hw⟩

/-- A value is stored, the catalog's cache is cleared, and the next execution is answered with
    the value. The same after a restart. -/
theorem cleared_memo_served :
    ∃ w, (machine id).run {}
      [.ensureSqliteBackend (ascii "/cache") true,
       .start (ascii "f"), .getOrCreate 0 none 0,
       .store 0 MemoArena.inOrder [7] {} [(ascii "k", 1)] 0 true true, .noteFootprintDelta 0 100,
       .clearCache (ascii "f"),
       .start (ascii "f"), .get 1 0, .probe 1 [ascii "k"],
       .restart 0, .ensureSqliteBackend (ascii "/cache") true,
       .start (ascii "f"), .get 0 100, .probe 0 [ascii "k"]] = some w ∧
      w.answers = [⟨ascii "k", 1, 0⟩, ⟨ascii "k", 1, 0⟩] :=
  ⟨_, rfl, rfl⟩

end Vgi.MemoRegistry
