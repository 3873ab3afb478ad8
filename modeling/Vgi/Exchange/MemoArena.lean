import Vgi.Lib.Bytes
import Vgi.Lib.Gather

/-!
# The memo arena

All memoised values of one function, in one row store: `base` holds the rows of the last
compaction, `tail` those stored since. A slot says which rows of `base` and `tail`
together are the result for a key, until when, and which validator they came with.
A store appends its rows to the tail, the first writer of a key wins; a probe gathers
the rows of the keys that hit. Stale slots stay until a store overwrites them or a
compaction drops them.

The operations run under the arena's lock, so each of them is one step; `ρ` is the type
of rows. They return `none` where a row that the store does not have is taken.
-/

namespace Vgi

/-- The cache-control that a value was stored with. -/
structure ArenaValidator where
  scope : Bytes := []
  etag : Bytes := []
  lastModified : Bytes := []
  revalidatable : Bool := false
deriving DecidableEq

/-- One memoised value. Without rows it is a negative memo. -/
structure VgiMemoSlot where
  /-- Where its rows begin in `base` and `tail` together. -/
  rowStart : ℕ
  length : ℕ
  validatorRef : ℤ
  /-- In nanoseconds of the steady clock. -/
  expiresAt : ℤ
  neverExpires : Bool
deriving DecidableEq

namespace VgiMemoSlot

def isStale (s : VgiMemoSlot) (now : ℤ) : Bool := !s.neverExpires && s.expiresAt ≤ now

/-- The offsets of its rows. -/
def logical (s : VgiMemoSlot) : List ℕ := List.range' s.rowStart s.length

end VgiMemoSlot

/-- What the hits of a probe have in common: the least remaining lifetime, in seconds,
    and whether they share their validator. -/
structure ArenaLatch where
  allNeverExpires : Bool := true
  minRemainingS : ℤ := 0
  validatorsAgree : Bool := true
  validatorRef : ℤ := -1
deriving DecidableEq

def nsPerSecond : ℤ := 1000000000

/-- Account for a slot that hit, `first` if it is the first one. -/
def ArenaLatch.add (l : ArenaLatch) (now : ℤ) (first : Bool) (s : VgiMemoSlot) : ArenaLatch :=
  let l :=
    if s.neverExpires then l
    else
      let rem := max ((s.expiresAt - now).tdiv nsPerSecond) 0
      { l with
        allNeverExpires := false
        minRemainingS := if first || rem < l.minRemainingS then rem else l.minRemainingS }
  if first then { l with validatorRef := s.validatorRef }
  else if s.validatorRef ≠ l.validatorRef then { l with validatorsAgree := false }
  else l

/-- The outcome of a probe, key by key, with the rows of all hits in one batch. -/
structure ArenaProbeResult (ρ : Type*) where
  /-- `none` when no rows are served. -/
  rows : Option (List ρ) := none
  /-- For each row, which of the keys it is for. -/
  parent : List ℕ := []
  hit : List Bool := []
  /-- `-1` for a miss, and for a value without a validator. -/
  validatorRef : List ℤ := []
  numHits : ℕ := 0
  latch : ArenaLatch := {}
deriving DecidableEq

/-- One value to publish. The rows of consecutive values are consecutive in the batch. -/
structure ArenaStoreSpec where
  key : Bytes
  length : ℕ
  validatorRef : ℤ := -1

abbrev MemoSlots := AList fun _ : Bytes => VgiMemoSlot

structure VgiMemoArena (ρ : Type*) where
  base : List ρ := []
  tail : List ρ := []
  baseRows : ℕ := 0
  tailRows : ℕ := 0
  deadRows : ℕ := 0
  slots : MemoSlots := ∅
  validators : List ArenaValidator := []

/-- In which order the slots are visited. It is that of a hash map: any. -/
structure VisitOrder where
  visit : List (Sigma fun _ : Bytes => VgiMemoSlot) → List (Sigma fun _ : Bytes => VgiMemoSlot)
  visit_perm : ∀ slots, (visit slots).Perm slots

namespace VgiMemoArena

variable {ρ : Type*} (a : VgiMemoArena ρ)

/-- The number a validator is known under in the arena, `-1` for the empty one. -/
def resolveValidator (v : ArenaValidator) : ℤ × VgiMemoArena ρ :=
  if v = {} then (-1, a)
  else
    match a.validators.findIdx? (· = v) with
    | some i => (i, a)
    | none => (a.validators.length, { a with validators := a.validators ++ [v] })

def getValidator (ref : ℤ) : ArenaValidator :=
  if ref < 0 then {} else a.validators.getD ref.toNat {}

/-- The rows at the offsets, in the order of the offsets. -/
def materializeLocked (logical : List ℕ) : Option (List ρ) :=
  if logical.all (· < a.baseRows) then takeRows a.base logical
  else do
    -- the offsets with their places in the output
    let inBase := logical.zipIdx.filter fun x => x.1 < a.baseRows
    let inTail := logical.zipIdx.filter fun x => !decide (x.1 < a.baseRows)
    let baseRows ← takeRows a.base (inBase.map (·.1))
    let tailRows ← takeRows a.tail (inTail.map (·.1 - a.baseRows))
    let inv := placeAt (List.replicate logical.length 0) (inBase.map (·.2)) 0
    takeRows (baseRows ++ tailRows) (placeAt inv (inTail.map (·.2)) inBase.length)

/-! ## Probe -/

/-- Where a probe stands: the result so far, and the rows to serve. -/
structure ProbeLoop (ρ : Type*) where
  r : ArenaProbeResult ρ := {}
  logical : List ℕ := []
  parent : List ℕ := []
  firstHit : Bool := true

/-- Probe the key of this index. -/
def probeKey (now : ℤ) (st : ProbeLoop ρ) (key : Bytes) (k : ℕ) : ProbeLoop ρ :=
  let miss := { st with r := { st.r with
    hit := st.r.hit ++ [false], validatorRef := st.r.validatorRef ++ [-1] } }
  match a.slots.lookup key with
  | none => miss
  | some s =>
    -- a stale slot is left in place
    if s.isStale now then miss
    else
      { r := { st.r with
          hit := st.r.hit ++ [true]
          validatorRef := st.r.validatorRef ++ [s.validatorRef]
          numHits := st.r.numHits + 1
          latch := st.r.latch.add now st.firstHit s }
        logical := st.logical ++ s.logical
        parent := st.parent ++ List.replicate s.length k
        firstHit := false }

def probeKeys (now : ℤ) (keys : List Bytes) : ProbeLoop ρ :=
  keys.zipIdx.foldl (fun st x => a.probeKey now st x.1 x.2) {}

def probe (keys : List Bytes) (now : ℤ) : Option (ArenaProbeResult ρ) :=
  let st := a.probeKeys now keys
  if st.logical.isEmpty then some st.r
  else (a.materializeLocked st.logical).map fun rows => { st.r with rows := some rows, parent := st.parent }

/-! ## Store -/

def kMaxSlots : ℕ := 2 ^ 20

/-- Where a store stands: the slots, how many rows of the batch are dealt with, and the rows
    that are dead, those of the batch apart. -/
structure StoreLoop where
  slots : MemoSlots
  off : ℕ := 0
  deadRows : ℕ
  newDead : ℕ := 0

/-- Give the key a slot, unless the arena is full. -/
def StoreLoop.publish (st : StoreLoop) (key : Bytes) (s : VgiMemoSlot) : StoreLoop :=
  if kMaxSlots ≤ st.slots.entries.length then { st with newDead := st.newDead + s.length }
  else { st with slots := st.slots.insert key s }

/-- Store the next value of a batch whose rows begin at `batchBase`. -/
def StoreLoop.store (now expiresAt : ℤ) (neverExpires : Bool) (batchBase : ℕ) (st : StoreLoop)
    (sp : ArenaStoreSpec) : StoreLoop :=
  let s : VgiMemoSlot :=
    { rowStart := batchBase + st.off, length := sp.length, validatorRef := sp.validatorRef
      expiresAt, neverExpires }
  let st := { st with off := st.off + sp.length }
  match st.slots.lookup sp.key with
  | none => st.publish sp.key s
  | some old =>
    if old.isStale now then
      StoreLoop.publish
        { st with deadRows := st.deadRows + old.length, slots := st.slots.erase sp.key } sp.key s
    -- the first writer wins
    else { st with newDead := st.newDead + sp.length }

def shouldCompactLocked : Bool :=
  if a.tailRows = 0 then a.baseRows + a.tailRows ≤ a.deadRows * 2 && 0 < a.baseRows + a.tailRows
  else a.baseRows = 0 || a.baseRows ≤ a.tailRows * 2 || a.baseRows + a.tailRows ≤ a.deadRows * 2

/-- The slots one after the other from the cursor on. -/
def rebase : ℕ → List (Sigma fun _ : Bytes => VgiMemoSlot) → List (Sigma fun _ : Bytes => VgiMemoSlot)
  | _, [] => []
  | cursor, ⟨k, s⟩ :: slots => ⟨k, { s with rowStart := cursor }⟩ :: rebase (cursor + s.length) slots

/-- Rebuild the base from the rows of the slots that are not stale. -/
def compactLocked (order : VisitOrder) (now : ℤ) : Option (VgiMemoArena ρ) :=
  let kept := (order.visit a.slots.entries).filter fun x => !x.2.isStale now
  (a.materializeLocked (kept.flatMap (·.2.logical))).map fun nb =>
    { a with
      base := nb
      baseRows := (kept.map (·.2.length)).sum
      tail := []
      tailRows := 0
      deadRows := 0
      slots := (rebase 0 kept).toAList }

/-- The arena with the batch at the end of its tail and the slots for its values. -/
def append (batch : List ρ) (specs : List ArenaStoreSpec) (now expiresAt : ℤ)
    (neverExpires : Bool) : VgiMemoArena ρ :=
  let tailRows := a.tailRows + batch.length
  let batchBase := a.baseRows + (tailRows - batch.length)
  let st := specs.foldl (StoreLoop.store now expiresAt neverExpires batchBase)
    { slots := a.slots, deadRows := a.deadRows }
  { a with
    tail := a.tail ++ batch
    tailRows
    slots := st.slots
    deadRows := st.deadRows + st.newDead }

/-- Store a batch at the time `now`, which the store reads itself. -/
def store (order : VisitOrder) (batch : List ρ) (specs : List ArenaStoreSpec)
    (now expiresAt : ℤ) (neverExpires : Bool) : Option (VgiMemoArena ρ) :=
  let a := a.append batch specs now expiresAt neverExpires
  if a.shouldCompactLocked then a.compactLocked order now else some a

end VgiMemoArena

end Vgi
