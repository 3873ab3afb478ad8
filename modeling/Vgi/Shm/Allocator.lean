import Vgi.Shm.Segment
import Vgi.Lib.Machine

/-!
# Allocations of a segment

The header is shared with the worker, so the allocator may find anything in it. The sum of an
entry's offset and length, and that of the cursor and the length asked for, are computed with 64
bits; where the latter wraps around, an allocation is returned that is not in the segment.

* `inRange_iff`: an allocation is in the segment just if the sums do not get there;
* `WellFormed.run`: the entries stay sorted, disjoint and inside of the segment under all operations;
* `allocations_disjoint`: both, and an allocation is disjoint from the entries before it.
-/

namespace Vgi

/-- The bytes of an entry. -/
def AllocEntry.bytes (e : AllocEntry) : Set ℕ :=
  Set.Ico e.offset.toNat (e.offset.toNat + e.length.toNat)

namespace VgiShmSegment

/-- What is allocated lies behind the header and in the segment. -/
def InRange (seg : VgiShmSegment) (len : UInt64) : Prop :=
  ∀ o seg', seg.allocate len = .ok (some o, seg') →
    headerSize.toNat ≤ o.toNat ∧ o.toNat + len.toNat ≤ seg.size.toNat

/-- Before some entry there is a gap: `len` bytes behind the header and the ends of all entries before it. -/
abbrev Gap (seg : VgiShmSegment) (len : UInt64) : Prop :=
  ∃ i < seg.numAllocs, headerSize.toNat + len.toNat ≤ (seg.table i).offset.toNat ∧
    ∀ j < i, (seg.table j).wrapEnd.toNat + len.toNat ≤ (seg.table i).offset.toNat

/-- Nothing can be allocated, or there is a gap; or `len` bytes behind the header and each entry end
    before `2 ^ 64`, or behind one of them so far after it that this is refused. -/
abbrev AllocatesSafely (seg : VgiShmSegment) (len : UInt64) : Prop :=
  seg.mapped = false ∨ len = 0 ∨ maxAllocs ≤ seg.numAllocs ∨ seg.Gap len ∨
  (headerSize.toNat + len.toNat < 2 ^ 64 ∧
    ∀ i < seg.numAllocs, (seg.table i).wrapEnd.toNat + len.toNat < 2 ^ 64) ∨
  2 ^ 64 + seg.size.toNat < headerSize.toNat + len.toNat ∨
  ∃ i < seg.numAllocs, 2 ^ 64 + seg.size.toNat < (seg.table i).wrapEnd.toNat + len.toNat

variable {e : AllocEntry} {seg : VgiShmSegment}

theorem mem_live : e ∈ seg.live ↔ ∃ i < seg.numAllocs, seg.table i = e := by
  rw [live, List.mem_map]
  simp only [List.mem_range]

theorem mem_take_live {n : ℕ} (hn : n ≤ seg.numAllocs) : e ∈ seg.live.take n ↔ ∃ i < n, seg.table i = e := by
  rw [live, ← List.map_take, List.take_range, Nat.min_eq_left hn, List.mem_map]
  simp only [List.mem_range]

variable {len : UInt64}

/-- Where there is a gap the scan stops before the end. -/
theorem fits_gap {r : ℕ × UInt64} (h : Fits len headerSize seg.live 0 r) : seg.Gap len ↔ r.1 < seg.numAllocs := by
  have hle : r.1 ≤ seg.numAllocs := by simpa using h.le_length
  have hps := h.past
  rw [Nat.sub_zero] at hps
  constructor
  · rintro ⟨i, hi, hhd, hen⟩
    by_contra hlt
    refine h.first i (seg.table i) (by omega) (by rw [getElem?_live, if_pos hi]) ⟨hhd, ?_⟩
    intro e he
    obtain ⟨j, hj, rfl⟩ := (mem_take_live hi.le).1 he
    exact hen j hj
  · intro hlt
    have hgp := h.gap (seg.table r.1) (by rw [Nat.sub_zero, getElem?_live, if_pos hlt])
    refine ⟨r.1, hlt, ?_, fun j hj => ?_⟩
    · have := UInt64.le_iff_toNat_le.1 h.cursor_le
      omega
    · have := UInt64.le_iff_toNat_le.1 (hps _ ((mem_take_live hle).2 ⟨j, hj, rfl⟩))
      omega

/-- The cursor of a scan that gets to the end is the greatest of the ends. -/
theorem fits_end {r : ℕ × UInt64} (h : Fits len headerSize seg.live 0 r) (hend : r.1 = seg.numAllocs) :
    headerSize.toNat ≤ r.2.toNat ∧ (∀ i < seg.numAllocs, (seg.table i).wrapEnd.toNat ≤ r.2.toNat) ∧
      (r.2 = headerSize ∨ ∃ i < seg.numAllocs, (seg.table i).wrapEnd = r.2) := by
  have hps := h.past
  have hrc := h.reached
  rw [Nat.sub_zero, hend] at hps hrc
  refine ⟨UInt64.le_iff_toNat_le.1 h.cursor_le, fun i hi => ?_, hrc.imp id ?_⟩
  · exact UInt64.le_iff_toNat_le.1 (hps _ ((mem_take_live le_rfl).2 ⟨i, hi, rfl⟩))
  · rintro ⟨e, he, heq⟩
    obtain ⟨i, hi, rfl⟩ := (mem_take_live le_rfl).1 he
    exact ⟨i, hi, heq⟩

theorem allocate_of_le {cursor : UInt64} {ins : ℕ} (hmap : seg.mapped) (hlen : len ≠ 0)
    (hnm : seg.numAllocs < maxAllocs) (hft : firstFit len seg.live 0 headerSize = (ins, cursor))
    (hle : cursor + len ≤ seg.size) : ∃ seg', seg.allocate len = .ok (some cursor, seg') := by
  rw [allocate, if_neg (by simp [hmap, hlen]), if_neg (by omega), if_neg (by omega), hft]
  dsimp only
  rw [if_neg (UInt64.not_lt.2 hle)]
  exact ⟨_, rfl⟩

/-- What is allocated is in the segment unless the sum of cursor and length wraps around. -/
theorem inRange_iff (seg : VgiShmSegment) (len : UInt64) : seg.InRange len ↔ seg.AllocatesSafely len := by
  have hft := firstFit_fits len headerSize seg.live 0
  obtain ⟨⟨ins, cursor⟩, hr⟩ : ∃ r, r = firstFit len seg.live 0 headerSize := ⟨_, rfl⟩
  rw [← hr] at hft
  have hin : ins ≤ seg.numAllocs := by simpa using hft.le_length
  constructor
  · intro h
    by_contra huns
    simp only [AllocatesSafely, not_or] at huns
    obtain ⟨hmap, hlen, hnm, hgp, hwr, hhd, hen⟩ := huns
    have hend : ins = seg.numAllocs := by
      have := mt (fits_gap hft).2 hgp
      omega
    obtain ⟨hge, hge', hrc⟩ := fits_end hft hend
    -- the sum is at least `2 ^ 64`, and wraps around to a size that is not refused
    have hwrp : 2 ^ 64 ≤ cursor.toNat + len.toNat := by
      by_contra hlt
      refine hwr ⟨by dsimp only at hge; omega, fun i hi => ?_⟩
      have := hge' i hi
      dsimp only at this
      omega
    have hle : cursor.toNat + len.toNat ≤ 2 ^ 64 + seg.size.toNat := by
      rcases hrc with heq | ⟨i, hi, heq⟩
      · rw [show cursor = headerSize from heq]
        omega
      · rw [← show (seg.table i).wrapEnd = cursor from heq]
        exact Nat.not_lt.1 fun hlt => hen ⟨i, hi, hlt⟩
    have hsum : cursor + len ≤ seg.size := by
      rw [UInt64.le_iff_toNat_le, UInt64.toNat_add]
      have := len.toNat_lt
      have := cursor.toNat_lt
      omega
    obtain ⟨seg', hsg'⟩ := allocate_of_le (by simpa using hmap) hlen (Nat.not_le.1 hnm) hr.symm hsum
    have := (h cursor seg' hsg').2
    have := seg.size.toNat_lt
    omega
  · intro hsf o seg' hsg'
    obtain ⟨rfl, hlen, hsum, hnm, hmap, -⟩ := allocate_some hsg' hr.symm hin
    refine ⟨UInt64.le_iff_toNat_le.1 hft.cursor_le, ?_⟩
    rw [UInt64.le_iff_toNat_le, UInt64.toNat_add] at hsum
    -- it is enough that the sum does not wrap around
    suffices hlt : cursor.toNat + len.toNat < 2 ^ 64 by rwa [Nat.mod_eq_of_lt hlt] at hsum
    by_cases hgp : ins < seg.numAllocs
    · have := hft.gap (seg.table ins) (by rw [Nat.sub_zero, getElem?_live, if_pos hgp])
      have := (seg.table ins).offset.toNat_lt
      dsimp only at *
      omega
    have hend : ins = seg.numAllocs := by omega
    obtain ⟨hge, hge', hrc⟩ := fits_end hft hend
    dsimp only at hge hge' hrc
    have hln := len.toNat_lt
    rcases hsf with hun | hzr | hfl | hfit | ⟨hhd, hen⟩ | hhd | ⟨i, hi, hbn⟩
    · rw [hmap] at hun
      cases hun
    · exact absurd hzr hlen
    · exact absurd hnm (Nat.not_lt.2 hfl)
    · exact absurd ((fits_gap hft).1 hfit) hgp
    · rcases hrc with rfl | ⟨i, hi, rfl⟩
      · exact hhd
      · exact hen i hi
    · by_contra
      have := cursor.toNat_lt
      omega
    · have := hge' i hi
      by_contra
      have := cursor.toNat_lt
      omega

/-! ## Well-formed tables -/

/-- The entries are sorted, disjoint, and inside of the data region. -/
structure WellFormed (seg : VgiShmSegment) : Prop where
  sorted : seg.live.Pairwise fun x y => x.offset ≤ y.offset
  disjoint : seg.live.Pairwise fun x y => Disjoint x.bytes y.bytes
  inside : ∀ e ∈ seg.live, headerSize.toNat ≤ e.offset.toNat ∧
    e.offset.toNat + e.length.toNat ≤ seg.size.toNat

variable {seg' : VgiShmSegment}

/-- With fewer entries a table is as well-formed. -/
theorem WellFormed.sublist (h : seg.WellFormed) (hsub : seg'.live.Sublist seg.live)
    (hsz : seg'.size = seg.size) : seg'.WellFormed where
  sorted := h.sorted.sublist hsub
  disjoint := h.disjoint.sublist hsub
  inside e he := hsz ▸ h.inside e (hsub.subset he)

theorem WellFormed.toNat_wrapEnd (h : seg.WellFormed)
    (he : e ∈ seg.live) : e.wrapEnd.toNat = e.offset.toNat + e.length.toNat := by
  have := (h.inside e he).2
  have := seg.size.toNat_lt
  rw [AllocEntry.wrapEnd, UInt64.toNat_add, Nat.mod_eq_of_lt (by omega)]

theorem disjoint_bytes_of_le {x y : AllocEntry} (h : x.offset.toNat + x.length.toNat ≤ y.offset.toNat) :
    Disjoint x.bytes y.bytes := by
  refine Set.disjoint_left.2 fun b hx hy => ?_
  have := hx.2
  have := hy.1
  omega

variable {o : UInt64}

section

variable (h : seg.WellFormed)

include h

section

variable (halloc : seg.allocate len = .ok (some o, seg'))

include halloc

/-- An allocation is behind the entries before it and before those after it. -/
theorem WellFormed.allocate_between :
    ∃ ins, seg'.live = seg.live.take ins ++ ⟨o, len⟩ :: seg.live.drop ins ∧ seg'.size = seg.size ∧
      (∀ e ∈ seg.live.take ins, e.offset.toNat + e.length.toNat ≤ o.toNat) ∧
      ∀ e ∈ seg.live.drop ins, o.toNat + len.toNat ≤ e.offset.toNat := by
  have hft := firstFit_fits len headerSize seg.live 0
  obtain ⟨⟨ins, cursor⟩, hr⟩ : ∃ r, r = firstFit len seg.live 0 headerSize := ⟨_, rfl⟩
  rw [← hr] at hft
  have hin : ins ≤ seg.numAllocs := by simpa using hft.le_length
  obtain ⟨rfl, -, -, -, -, hlv, -, hsz⟩ := allocate_some halloc hr.symm hin
  refine ⟨ins, hlv, hsz, fun e he => ?_, fun e he => ?_⟩
  · rw [← h.toNat_wrapEnd (List.mem_of_mem_take he)]
    exact UInt64.le_iff_toNat_le.1 (hft.past e (by rwa [Nat.sub_zero]))
  -- the entry at the gap is the first of those after it
  rcases hdr : seg.live.drop ins with _ | ⟨first, rest⟩
  · rw [hdr] at he
    cases he
  have hfst := hft.gap first (by
    rw [Nat.sub_zero, ← List.head?_drop, hdr]
    rfl)
  have hsr := h.sorted.sublist (List.drop_sublist ins seg.live)
  rw [hdr] at he hsr
  rcases List.mem_cons.1 he with rfl | he
  · exact hfst
  · exact hfst.trans (UInt64.le_iff_toNat_le.1 (List.rel_of_pairwise_cons hsr he))

/-- An allocation is disjoint from the entries there are. -/
theorem WellFormed.allocate_disjoint (he : e ∈ seg.live) : Disjoint e.bytes (AllocEntry.bytes ⟨o, len⟩) := by
  obtain ⟨ins, -, -, hpre, haf⟩ := h.allocate_between halloc
  rw [← List.take_append_drop ins seg.live] at he
  rcases List.mem_append.1 he with he | he
  · exact disjoint_bytes_of_le (hpre e he)
  · exact (disjoint_bytes_of_le (haf e he)).symm

/-- An allocation that is in range leaves the table well-formed. -/
theorem WellFormed.allocate (hrn : seg.InRange len) : seg'.WellFormed := by
  obtain ⟨ins, hlv, hsz, hpre, haf⟩ := h.allocate_between halloc
  have hsr := h.sorted
  have hdj := h.disjoint
  rw [← List.take_append_drop ins seg.live, List.pairwise_append] at hsr hdj
  refine ⟨?_, ?_, ?_⟩
  · rw [hlv, List.pairwise_append, List.pairwise_cons]
    refine ⟨hsr.1, ⟨fun e he => ?_, hsr.2.1⟩, fun x hx y hy => ?_⟩
    · have := haf e he
      exact UInt64.le_iff_toNat_le.2 (by dsimp only; omega)
    · rcases List.mem_cons.1 hy with rfl | hy
      · have := hpre x hx
        exact UInt64.le_iff_toNat_le.2 (by dsimp only; omega)
      · exact hsr.2.2 x hx y hy
  · rw [hlv, List.pairwise_append, List.pairwise_cons]
    refine ⟨hdj.1, ⟨fun e he => disjoint_bytes_of_le (haf e he), hdj.2.1⟩, fun x hx y hy => ?_⟩
    rcases List.mem_cons.1 hy with rfl | hy
    · exact disjoint_bytes_of_le (hpre x hx)
    · exact hdj.2.2 x hx y hy
  · intro e he
    rw [hlv, List.mem_append, List.mem_cons] at he
    rw [hsz]
    rcases he with he | rfl | he
    · exact h.inside e (List.mem_of_mem_take he)
    · exact hrn o seg' halloc
    · exact h.inside e (List.mem_of_mem_drop he)

end

/-! ## Runs -/

inductive Op
  | allocate (len : UInt64)
  | freeAllocation (offset : UInt64)
  | retainOnly (offsets : List UInt64)
  | resetAllocator

/-- The segment after an operation. One that throws changes nothing. -/
def perform (seg : VgiShmSegment) : Op → VgiShmSegment
  | .allocate len => ((seg.allocate len).map (·.2)).toOption.getD seg
  | .freeAllocation offset => (seg.freeAllocation offset).toOption.getD seg
  | .retainOnly offsets => (seg.retainOnly offsets).toOption.getD seg
  | .resetAllocator => seg.resetAllocator

def machine : Machine VgiShmSegment Op where
  step seg op := some (seg.perform op)

def SafeOp (seg : VgiShmSegment) : Op → Prop
  | .allocate len => seg.AllocatesSafely len
  | _ => True

instance (seg : VgiShmSegment) : (op : Op) → Decidable (seg.SafeOp op)
  | .allocate len => inferInstanceAs (Decidable (seg.AllocatesSafely len))
  | .freeAllocation _ => inferInstanceAs (Decidable True)
  | .retainOnly _ => inferInstanceAs (Decidable True)
  | .resetAllocator => inferInstanceAs (Decidable True)

theorem WellFormed.freeAllocation {offset : UInt64} (hfr : seg.freeAllocation offset = .ok seg') : seg'.WellFormed := by
  by_cases hmap : seg.mapped
  · obtain ⟨hlv, -, hsz⟩ := freeAllocation_ok hfr hmap
    exact h.sublist (hlv ▸ List.eraseP_sublist) hsz
  · rw [VgiShmSegment.freeAllocation, if_pos (by simp [hmap])] at hfr
    exact Except.ok.inj hfr ▸ h

theorem WellFormed.retainOnly {offsets : List UInt64} (hrt : seg.retainOnly offsets = .ok seg') : seg'.WellFormed := by
  by_cases hmap : seg.mapped
  · obtain ⟨hlv, -, hsz⟩ := retainOnly_ok hrt hmap
    exact h.sublist (hlv ▸ List.filter_sublist) hsz
  · rw [VgiShmSegment.retainOnly, if_pos (by simp [hmap])] at hrt
    exact Except.ok.inj hrt ▸ h

theorem WellFormed.resetAllocator : seg.resetAllocator.WellFormed := by
  rw [VgiShmSegment.resetAllocator]
  split_ifs
  · exact h.sublist (List.nil_sublist _) rfl
  · exact h

theorem WellFormed.perform {op : Op} (hop : seg.SafeOp op) : (seg.perform op).WellFormed := by
  rcases op with len | offset | offsets | _ <;> rw [VgiShmSegment.perform]
  · rcases halloc : seg.allocate len with _ | ⟨_ | o, seg'⟩
    · exact h
    · exact allocate_none halloc ▸ h
    · exact h.allocate halloc ((inRange_iff seg len).2 hop)
  · rcases hfr : seg.freeAllocation offset with _ | seg'
    · exact h
    · exact h.freeAllocation hfr
  · rcases hrt : seg.retainOnly offsets with _ | seg'
    · exact h
    · exact h.retainOnly hrt
  · exact h.resetAllocator

/-- The table stays well-formed as long as no sum wraps around. -/
theorem WellFormed.run {ops : List Op}
    (hsf : machine.Along SafeOp seg ops) (hrun : machine.run seg ops = some seg') : seg'.WellFormed :=
  Machine.run_invariant_along (fun hs hop hst => Option.some.inj hst ▸ hs.perform hop) h hsf hrun

end

/-- Whatever the header holds, what is allocated is in the segment just if it is allocated safely. From
    a well-formed table, if all allocations are safe, the table is well-formed after any operations,
    and what is allocated then is disjoint from all entries there are. -/
theorem allocations_disjoint (seg : VgiShmSegment) (len : UInt64) (ops : List Op) :
    (seg.InRange len ↔ seg.AllocatesSafely len) ∧
    ∀ seg', seg.WellFormed → machine.Along SafeOp seg ops → machine.run seg ops = some seg' →
      seg'.WellFormed ∧ ∀ len o seg'', seg'.allocate len = .ok (some o, seg'') →
        ∀ e ∈ seg'.live, Disjoint e.bytes (AllocEntry.bytes ⟨o, len⟩) := by
  refine ⟨inRange_iff seg len, fun seg' hsg hsf hrun => ?_⟩
  have h := hsg.run hsf hrun
  exact ⟨h, fun len o seg'' halloc e he => h.allocate_disjoint halloc he⟩

/-- A new segment with a page of data. -/
def page : VgiShmSegment := { size := 69632 }

/-- Two slots, a gap that the third one fills, and a reset that keeps the last one. -/
def pageOps : List Op :=
  [.allocate 100, .allocate 200, .freeAllocation 65536, .allocate 50, .retainOnly [65636]]

theorem page_disjoint :
    page.WellFormed ∧ machine.Along SafeOp page pageOps ∧
    ∃ seg', machine.run page pageOps = some seg' ∧ seg'.live = [⟨65636, 200⟩] ∧ seg'.WellFormed := by
  have hpg : page.WellFormed := ⟨.nil, .nil, nofun⟩
  have hsf : machine.Along SafeOp page pageOps := by decide +kernel
  exact ⟨hpg, hsf, _, rfl, by decide +kernel, ((allocations_disjoint page 0 pageOps).2 _ hpg hsf rfl).1⟩

/-- An entry that ends at the last address. -/
def endless : VgiShmSegment := { size := 69632, numAllocs := 1, table := fun _ => ⟨0, 0xFFFFFFFFFFFFFFFF⟩ }

/-- Behind an entry that ends at the last address there is no byte of the segment; still one is
    allocated there. In an empty table it is the length itself that can be too long. -/
theorem endless_out_of_range :
    (∃ seg', endless.allocate 1 = .ok (some 0xFFFFFFFFFFFFFFFF, seg')) ∧ ¬endless.InRange 1 ∧
    page.WellFormed ∧ ¬page.InRange 0xFFFFFFFFFFFFFFFF := by
  refine ⟨⟨_, rfl⟩, fun h => ?_, ⟨.nil, .nil, nofun⟩, fun h => ?_⟩
  · exact absurd (h 0xFFFFFFFFFFFFFFFF _ rfl).2 (by decide)
  · exact absurd (h headerSize _ rfl).2 (by decide)

end VgiShmSegment

end Vgi
