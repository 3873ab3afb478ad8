import Mathlib

/-!
# The shared-memory segment

The header of a segment holds the table of its allocations, which both sides write: how
many there are, and for each its offset and its length. The table is an array that is
compacted in place; the entries in use are `VgiShmSegment.live`.

* `firstFit`: the scan of the allocator for the first gap;
* `allocate_some`: what an allocation does to the entries;
* `freeAllocation_ok`, `retainOnly_ok`: what is left of them.
-/

namespace Vgi

open List Function

/-- An entry of the table. -/
structure AllocEntry where
  offset : UInt64
  length : UInt64
deriving DecidableEq

/-- The end of an entry, as the allocator computes it. -/
def AllocEntry.wrapEnd (e : AllocEntry) : UInt64 := e.offset + e.length

structure VgiShmSegment where
  /-- Whether there is a mapping. -/
  mapped : Bool := true
  size : UInt64
  numAllocs : ℕ := 0
  /-- The array of entries in the header. -/
  table : ℕ → AllocEntry := fun _ => ⟨0, 0⟩

namespace VgiShmSegment

variable (seg : VgiShmSegment)

def headerSize : UInt64 := 65536

def maxAllocs : ℕ := (65536 - 24) / 16

/-- Copy `n` entries within the table. -/
def moveEntries (table : ℕ → AllocEntry) (dst src n : ℕ) : ℕ → AllocEntry := fun i =>
  if dst ≤ i ∧ i < dst + n then table (src + (i - dst)) else table i

def corruptHeader (num : ℕ) : String :=
  s!"VgiShmSegment: corrupt header num_allocs={num} exceeds max {maxAllocs}"

/-- The entries in use. -/
def live : List AllocEntry := (List.range seg.numAllocs).map seg.table

def resetAllocator : VgiShmSegment :=
  if seg.mapped then { seg with numAllocs := 0 } else seg

/-- Move the entries at the offsets to the front: `n` entries are left to look at, from `i` on, and
    `kept` have been moved. -/
def retainLoop (offsets : List UInt64) : ℕ → ℕ → ℕ → (ℕ → AllocEntry) → (ℕ → AllocEntry) × ℕ
  | 0, _, kept, table => (table, kept)
  | n + 1, i, kept, table =>
    if (table i).offset ∈ offsets then
      retainLoop offsets n (i + 1) (kept + 1) (if kept ≠ i then moveEntries table kept i 1 else table)
    else retainLoop offsets n (i + 1) kept table

def retainOnly (offsets : List UInt64) : Except String VgiShmSegment :=
  if !seg.mapped then .ok seg
  else if offsets.isEmpty then .ok seg.resetAllocator
  else if maxAllocs < seg.numAllocs then .error (corruptHeader seg.numAllocs)
  else
    let (table, kept) := retainLoop offsets seg.numAllocs 0 0 seg.table
    .ok { seg with table, numAllocs := kept }

def freeAllocation (offset : UInt64) : Except String VgiShmSegment :=
  if !seg.mapped then .ok seg
  else if maxAllocs < seg.numAllocs then .error (corruptHeader seg.numAllocs)
  else
    match seg.live.findIdx? (·.offset = offset) with
    | none => .ok seg
    | some i =>
      .ok { seg with
        table :=
          if i + 1 < seg.numAllocs then moveEntries seg.table i (i + 1) (seg.numAllocs - i - 1)
          else seg.table
        numAllocs := seg.numAllocs - 1 }

/-- The index and the offset of the first gap of this length: before an entry, or after the last. -/
def firstFit (len : UInt64) : List AllocEntry → ℕ → UInt64 → ℕ × UInt64
  | [], i, cursor => (i, cursor)
  | e :: es, i, cursor =>
    if cursor ≤ e.offset ∧ len ≤ e.offset - cursor then (i, cursor)
    else firstFit len es (i + 1) (if cursor < e.wrapEnd then e.wrapEnd else cursor)

/-- Move the entries from `ins` on up by one. -/
def makeRoom (table : ℕ → AllocEntry) (ins num : ℕ) : ℕ → AllocEntry :=
  if ins < num then moveEntries table (ins + 1) ins (num - ins) else table

def allocate (len : UInt64) : Except String (Option UInt64 × VgiShmSegment) :=
  if !seg.mapped || len = 0 then .ok (none, seg)
  else if maxAllocs < seg.numAllocs then .error (corruptHeader seg.numAllocs)
  else if maxAllocs ≤ seg.numAllocs then .ok (none, seg)
  else
    let (ins, cursor) := firstFit len seg.live 0 headerSize
    if seg.size < cursor + len then .ok (none, seg)
    else
      .ok (some cursor,
        { seg with
          table := Function.update (makeRoom seg.table ins seg.numAllocs) ins ⟨cursor, len⟩
          numAllocs := seg.numAllocs + 1 })

/-! ## The entries in use -/

theorem getElem?_live (i : ℕ) :
    seg.live[i]? = if i < seg.numAllocs then some (seg.table i) else none := by
  rw [live, getElem?_map]
  split_ifs with hi
  · rw [getElem?_range hi]
    rfl
  · rw [getElem?_eq_none (by simpa using hi)]
    rfl

@[simp] theorem length_live : seg.live.length = seg.numAllocs := by
  rw [live, length_map, length_range]

theorem moveEntry_eq (table : ℕ → AllocEntry) (kept i : ℕ) :
    (if kept ≠ i then moveEntries table kept i 1 else table) = Function.update table kept (table i) := by
  funext j
  rcases eq_or_ne j kept with rfl | hj
  · rw [update_self]
    split_ifs with hne
    · simp [moveEntries]
    · rw [not_not.1 hne]
  · rw [update_of_ne hj]
    split_ifs
    · exact if_neg (by omega)
    · rfl

/-- What the loop has kept so far, and what it has not looked at. -/
theorem retainLoop_spec (offsets : List UInt64) (n i kept : ℕ) (table : ℕ → AllocEntry) (hkp : kept ≤ i) :
    let r := retainLoop offsets n i kept table
    (List.range r.2).map r.1 = (List.range kept).map table ++
      ((List.range' i n).map table).filter (fun e => e.offset ∈ offsets) := by
  induction n generalizing i kept table with
  | zero => simp [retainLoop]
  | succ n ih =>
    rw [retainLoop, range'_succ, map_cons, filter_cons, moveEntry_eq]
    by_cases hmem : (table i).offset ∈ offsets
    · -- the entry moves down to `kept`, the others stay
      have hot j hj : Function.update table kept (table i) j = table j := update_of_ne hj _ _
      rw [if_pos hmem, if_pos (by simpa using hmem)]
      refine (ih (i + 1) (kept + 1) (Function.update table kept (table i)) (by omega)).trans ?_
      rw [range_succ, map_append, map_singleton, update_self, append_assoc, singleton_append]
      congr 1
      · exact map_congr_left fun j hj => hot j (by have := mem_range.1 hj; omega)
      · congr 2
        exact map_congr_left fun j hj => hot j (by have := (mem_range'_1.1 hj).1; omega)
    · rw [if_neg hmem, if_neg (by simpa using hmem)]
      exact ih (i + 1) kept table (by omega)

variable {seg seg' : VgiShmSegment}

/-- The entries at the offsets are left, in their order. -/
theorem retainOnly_ok {offsets : List UInt64} (h : seg.retainOnly offsets = .ok seg') (hmap : seg.mapped) :
    seg'.live = seg.live.filter (fun e => e.offset ∈ offsets) ∧ seg'.mapped ∧ seg'.size = seg.size := by
  rw [retainOnly, if_neg (by simp [hmap])] at h
  split_ifs at h with hem hnm
  · cases h
    rw [resetAllocator, if_pos hmap, List.isEmpty_iff.1 hem]
    exact ⟨by simp [live], hmap, rfl⟩
  · cases h
    refine ⟨?_, hmap, rfl⟩
    have hlp := retainLoop_spec offsets seg.numAllocs 0 0 seg.table le_rfl
    rw [range_zero, map_nil, nil_append, ← range_eq_range'] at hlp
    exact hlp

/-- The first entry at the offset is gone. -/
theorem freeAllocation_ok {offset : UInt64} (h : seg.freeAllocation offset = .ok seg') (hmap : seg.mapped) :
    seg'.live = seg.live.eraseP (fun e => e.offset = offset) ∧ seg'.mapped ∧ seg'.size = seg.size := by
  rw [freeAllocation, if_neg (by simp [hmap])] at h
  split_ifs at h with hnm
  rw [eraseP_eq_eraseIdx]
  rcases hfn : seg.live.findIdx? (fun e => e.offset = offset) with _ | i
  · rw [hfn] at h
    cases h
    exact ⟨by rw [hfn], hmap, rfl⟩
  · rw [hfn] at h
    cases h
    rw [hfn]
    have hi : i < seg.numAllocs := seg.length_live ▸ (findIdx?_eq_some_iff_getElem.1 hfn).1
    refine ⟨ext_getElem? fun j => ?_, hmap, rfl⟩
    rw [getElem?_eraseIdx, getElem?_live, getElem?_live, getElem?_live]
    dsimp only
    -- before the entry nothing moves, from it on all entries by one
    rcases Nat.lt_or_ge j i with hj | hj
    · have hj' : j < seg.numAllocs - 1 := by omega
      rw [if_pos hj, if_pos hj', if_pos (hj.trans hi)]
      split_ifs
      · rw [moveEntries, if_neg (by omega)]
      · rfl
    · rw [if_neg (Nat.not_lt.2 hj)]
      by_cases hj' : j + 1 < seg.numAllocs
      · rw [if_pos (by omega), if_pos hj', if_pos (by omega), moveEntries, if_pos (by omega),
          show i + 1 + (j - i) = j + 1 by omega]
      · rw [if_neg (by omega), if_neg hj']

theorem insertIdx_eq {α : Type*} (l : List α) {i : ℕ} (hi : i ≤ l.length) (x : α) :
    l.insertIdx i x = l.take i ++ x :: l.drop i := by
  induction l generalizing i with
  | nil =>
    rw [Nat.le_zero.1 hi]
    rfl
  | cons y l ih =>
    rcases i with _ | i
    · rfl
    · rw [insertIdx_succ_cons, ih (Nat.le_of_succ_le_succ hi)]
      rfl

variable {table : ℕ → AllocEntry}

theorem makeRoom_of_lt {ins num j : ℕ} (hj : j < ins) : makeRoom table ins num j = table j := by
  rw [makeRoom]
  split_ifs
  · exact if_neg (by omega)
  · rfl

theorem makeRoom_of_gt {ins num j : ℕ} (hj : ins < j) (hnm : j ≤ num) : makeRoom table ins num j = table (j - 1) := by
  rw [makeRoom, if_pos (by omega), moveEntries, if_pos (by omega), show ins + (j - (ins + 1)) = j - 1 by omega]

variable {len : UInt64}

/-- The entry of an allocation is inserted into the table, where the first fit is. -/
theorem allocate_some {o : UInt64} (h : seg.allocate len = .ok (some o, seg')) {ins : ℕ} {cursor : UInt64}
    (hfit : firstFit len seg.live 0 headerSize = (ins, cursor)) (hin : ins ≤ seg.numAllocs) :
    cursor = o ∧ len ≠ 0 ∧ o + len ≤ seg.size ∧ seg.numAllocs < maxAllocs ∧ seg.mapped ∧
      seg'.live = seg.live.take ins ++ ⟨o, len⟩ :: seg.live.drop ins ∧ seg'.mapped ∧ seg'.size = seg.size := by
  rw [allocate, hfit] at h
  dsimp only at h
  split_ifs at h with hno hnm hfl hft
  · cases h
  · cases h
  · cases h
  have hmap : seg.mapped ∧ len ≠ 0 := by simpa using hno
  cases h
  refine ⟨rfl, hmap.2, UInt64.not_lt.1 hft, Nat.not_le.1 hfl, hmap.1, ?_, hmap.1, rfl⟩
  rw [← insertIdx_eq _ (by rwa [length_live])]
  refine ext_getElem? fun j => ?_
  rw [getElem?_insertIdx, getElem?_live, getElem?_live, getElem?_live, length_live]
  dsimp only
  rcases Nat.lt_trichotomy j ins with hj | rfl | hj
  · rw [if_pos (by omega), update_of_ne (by omega), if_pos hj, if_pos (by omega), makeRoom_of_lt hj]
  · rw [if_pos (by omega), update_self, if_neg (Nat.lt_irrefl j), if_pos rfl, if_pos hin]
  · rw [update_of_ne (by omega), if_neg (show ¬j < ins by omega), if_neg (show j ≠ ins by omega)]
    by_cases hj' : j ≤ seg.numAllocs
    · rw [if_pos (by omega), if_pos (by omega), makeRoom_of_gt hj hj']
    · rw [if_neg (by omega), if_neg (by omega)]

/-- Where nothing is allocated the segment stays as it is. -/
theorem allocate_none (h : seg.allocate len = .ok (none, seg')) : seg' = seg := by
  rw [allocate] at h
  dsimp only at h
  split_ifs at h <;> cases h <;> rfl

/-! ## The first fit -/

/-- The scan stops before an entry with a gap, or at the end. It is past the ends of the entries it has
    gone over, and none of these has a gap before it. -/
structure Fits (len cursor : UInt64) (es : List AllocEntry) (i : ℕ) (r : ℕ × UInt64) : Prop where
  le : i ≤ r.1
  le_length : r.1 ≤ i + es.length
  cursor_le : cursor ≤ r.2
  past : ∀ e ∈ es.take (r.1 - i), e.wrapEnd ≤ r.2
  reached : r.2 = cursor ∨ ∃ e ∈ es.take (r.1 - i), e.wrapEnd = r.2
  gap : ∀ e, es[r.1 - i]? = some e → r.2.toNat + len.toNat ≤ e.offset.toNat
  first : ∀ j e, j < r.1 - i → es[j]? = some e →
    ¬(cursor.toNat + len.toNat ≤ e.offset.toNat ∧
      ∀ e' ∈ es.take j, e'.wrapEnd.toNat + len.toNat ≤ e.offset.toNat)

theorem gap_iff {cursor offset : UInt64} :
    cursor ≤ offset ∧ len ≤ offset - cursor ↔ cursor.toNat + len.toNat ≤ offset.toNat := by
  rw [UInt64.le_iff_toNat_le]
  constructor
  · rintro ⟨hle, hlen⟩
    rw [UInt64.le_iff_toNat_le, UInt64.toNat_sub_of_le _ _ (UInt64.le_iff_toNat_le.2 hle)] at hlen
    omega
  · intro h
    have hle : cursor.toNat ≤ offset.toNat := by omega
    refine ⟨hle, ?_⟩
    rw [UInt64.le_iff_toNat_le, UInt64.toNat_sub_of_le _ _ (UInt64.le_iff_toNat_le.2 hle)]
    omega

theorem firstFit_fits (len cursor : UInt64) (es : List AllocEntry) (i : ℕ) :
    Fits len cursor es i (firstFit len es i cursor) := by
  induction es generalizing i cursor with
  | nil => constructor <;> simp [firstFit]
  | cons e es ih =>
    rw [firstFit]
    by_cases hgp : cursor ≤ e.offset ∧ len ≤ e.offset - cursor
    · rw [if_pos hgp]
      have := gap_iff.1 hgp
      constructor <;> simp [this]
    rw [if_neg hgp]
    obtain ⟨cursor', hcr'⟩ : ∃ c, c = if cursor < e.wrapEnd then e.wrapEnd else cursor := ⟨_, rfl⟩
    rw [← hcr']
    have hle : cursor ≤ cursor' ∧ e.wrapEnd ≤ cursor' := by
      rw [hcr']
      split_ifs with hlt
      · exact ⟨UInt64.le_of_lt hlt, UInt64.le_refl _⟩
      · exact ⟨UInt64.le_refl _, UInt64.not_lt.1 hlt⟩
    have hrs := ih cursor' (i + 1)
    obtain ⟨r, hr⟩ : ∃ r, r = firstFit len es (i + 1) cursor' := ⟨_, rfl⟩
    rw [← hr] at hrs ⊢
    have hidx : r.1 - i = r.1 - (i + 1) + 1 := by
      have := hrs.le
      omega
    refine ⟨(Nat.le_succ i).trans hrs.le, ?_, UInt64.le_trans hle.1 hrs.cursor_le, ?_, ?_, ?_, ?_⟩
    · have := hrs.le_length
      rw [length_cons]
      omega
    · intro x hx
      rw [hidx, take_succ_cons] at hx
      rcases mem_cons.1 hx with rfl | hx
      · exact UInt64.le_trans hle.2 hrs.cursor_le
      · exact hrs.past x hx
    · rw [hidx, take_succ_cons]
      rcases hrs.reached with heq | ⟨x, hx, heq⟩
      · -- the cursor did not move after the entry
        rw [heq, hcr']
        split_ifs
        · exact .inr ⟨e, mem_cons_self, rfl⟩
        · exact .inl rfl
      · exact .inr ⟨x, mem_cons_of_mem e hx, heq⟩
    · intro x hx
      rw [hidx, getElem?_cons_succ] at hx
      exact hrs.gap x hx
    · rintro (_ | j) x hj hx ⟨hcr, hen⟩
      · cases hx
        exact hgp (gap_iff.2 hcr)
      rw [getElem?_cons_succ] at hx
      refine hrs.first j x (by omega) hx ⟨?_, fun y hy => ?_⟩
      · rw [hcr']
        split_ifs
        · exact hen e (by simp)
        · exact hcr
      · exact hen y (by rw [take_succ_cons]; exact mem_cons_of_mem e hy)

end VgiShmSegment

end Vgi
