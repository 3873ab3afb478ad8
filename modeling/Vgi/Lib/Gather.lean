import Mathlib

/-!
# Rows taken by their indices

`takeRows src idx` are the rows of `src` at the indices, in their order; it fails if an
index is out of range. Rows that were taken in another order are put back by the inverse
permutation, written entry by entry (`placeAt`): `takeRows_placeAt`.
-/

namespace Vgi

open List Option

variable {α β : Type*}

/-- The rows at the indices. -/
def takeRows (src : List α) : List ℕ → Option (List α)
  | [] => some []
  | i :: idx => src[i]?.bind fun x => (takeRows src idx).map (x :: ·)

variable {src rows : List α}

theorem takeRows_eq_some {idx : List ℕ} : takeRows src idx = some rows ↔ idx.map (src[·]?) = rows.map some := by
  induction idx generalizing rows with
  | nil => rcases rows with _ | ⟨x, rows⟩ <;> simp [takeRows]
  | cons i idx ih =>
    rcases rows with _ | ⟨y, rows⟩
    · rcases hx : src[i]? with _ | x <;> simp [takeRows, hx]
    rcases hx : src[i]? with _ | x
    · simp [takeRows, hx]
    · simp only [takeRows, hx, bind_some, map_eq_some_iff, List.cons.injEq, map_cons, Option.some.injEq, ← ih]
      exact ⟨fun ⟨rows', h, hxy, hrw⟩ => ⟨hxy, hrw ▸ h⟩, fun ⟨hxy, h⟩ => ⟨rows, h, hxy, rfl⟩⟩

theorem takeRows_take {idx : List ℕ} (h : takeRows src idx = some rows) (k : ℕ) :
    takeRows src (idx.take k) = some (rows.take k) := by
  rw [takeRows_eq_some] at h ⊢
  rw [map_take, h, map_take]

/-- A range of indices takes a slice. -/
theorem map_range'_getElem? {start n : ℕ} (h : start + n ≤ src.length) :
    (List.range' start n).map (src[·]?) = ((src.drop start).take n).map some := by
  refine ext_getElem? fun i => ?_
  rw [getElem?_map, getElem?_map, getElem?_take, getElem?_drop]
  by_cases hi : i < n
  · rw [getElem?_range' hi, if_pos hi, Nat.one_mul, map_some, getElem?_eq_getElem (by omega)]
    rfl
  · rw [if_neg hi, getElem?_eq_none (by simpa using hi)]
    rfl

/-- Write `r`, `r + 1`, … at the positions. -/
def placeAt : List ℕ → List ℕ → ℕ → List ℕ
  | inv, [], _ => inv
  | inv, i :: outs, r => placeAt (inv.set i r) outs (r + 1)

theorem placeAt_append (inv outs outs' : List ℕ) (r : ℕ) :
    placeAt inv (outs ++ outs') r = placeAt (placeAt inv outs r) outs' (r + outs.length) := by
  induction outs generalizing inv r with
  | nil => rfl
  | cons i outs ih => rw [cons_append, placeAt, ih, placeAt, length_cons, Nat.add_assoc, Nat.add_comm 1]

theorem length_placeAt (inv outs : List ℕ) (r : ℕ) : (placeAt inv outs r).length = inv.length := by
  induction outs generalizing inv r with
  | nil => rfl
  | cons i outs ih => rw [placeAt, ih, length_set]

theorem getElem?_placeAt_of_notMem {inv outs : List ℕ} {i : ℕ} (h : i ∉ outs) (r : ℕ) :
    (placeAt inv outs r)[i]? = inv[i]? := by
  induction outs generalizing inv r with
  | nil => rfl
  | cons j outs ih =>
    obtain ⟨hne, hmem⟩ := ne_and_not_mem_of_not_mem_cons h
    rw [placeAt, ih hmem, getElem?_set_ne (Ne.symm hne)]

/-- At the position that comes in the place `j` stands `r + j`. -/
theorem getElem?_placeAt {inv outs : List ℕ} (hnd : outs.Nodup) {i j : ℕ} (hj : outs[j]? = some i)
    (hi : i < inv.length) (r : ℕ) : (placeAt inv outs r)[i]? = some (r + j) := by
  induction outs generalizing inv r j with
  | nil => cases hj
  | cons k outs ih =>
    obtain ⟨hk, hnd⟩ := nodup_cons.1 hnd
    rcases j with _ | j
    · cases hj
      rw [placeAt, getElem?_placeAt_of_notMem hk, getElem?_set_self hi, Nat.add_zero]
    · rw [placeAt, ih hnd hj (by rwa [length_set]), Nat.add_right_comm]
      rfl

theorem exists_map_some {l : List β} {f : β → Option α} (h : ∀ b ∈ l, (f b).isSome) :
    ∃ out : List α, out.map some = l.map f := by
  induction l with
  | nil => exact ⟨[], rfl⟩
  | cons b l ih =>
    obtain ⟨out, hout⟩ := ih fun c hc => h c (mem_cons_of_mem b hc)
    obtain ⟨x, hx⟩ := isSome_iff_exists.1 (h b mem_cons_self)
    exact ⟨x :: out, by rw [map_cons, map_cons, hout, hx]⟩

/-- Rows taken in another order are put back into theirs. -/
theorem takeRows_placeAt {l : List β} {xs : List (β × ℕ)} (hxs : xs.Perm l.zipIdx) {f : β → Option α}
    (hrw : rows.map some = xs.map fun x => f x.1) :
    ∃ out, takeRows rows (placeAt (List.replicate l.length 0) (xs.map (·.2)) 0) = some out ∧
      out.map some = l.map f := by
  have hnd : (xs.map (·.2)).Nodup := by
    rw [(hxs.map _).nodup_iff, zipIdx_map_snd]
    exact nodup_range'
  have hlen : rows.length = l.length := by
    have h := congrArg List.length hrw
    rwa [length_map, length_map, hxs.length_eq, length_zipIdx] at h
  -- what is at the place of a row in the other order
  have hpl (i : ℕ) b (hb : l[i]? = some b) :
      ∃ j, (placeAt (List.replicate l.length 0) (xs.map (·.2)) 0)[i]? = some j ∧ some rows[j]? = some (f b) := by
    have hi : i < l.length := (List.getElem?_eq_some_iff.1 hb).1
    have hmem : (b, i) ∈ xs := hxs.mem_iff.2 (mk_mem_zipIdx_iff_getElem?.2 hb)
    obtain ⟨j, hj⟩ := getElem?_of_mem hmem
    refine ⟨j, ?_, ?_⟩
    · have hout : (xs.map (·.2))[j]? = some i := by
        rw [getElem?_map, hj]
        rfl
      have hrm : i < (List.replicate l.length 0).length := by rwa [length_replicate]
      rw [getElem?_placeAt hnd hout hrm, Nat.zero_add]
    · have h := congrArg (·[j]?) hrw
      simp only [getElem?_map, hj, map_some] at h
      rcases hr : rows[j]? with _ | x <;> rw [hr] at h
      · cases h
      · exact h
  have hinv : (placeAt (List.replicate l.length 0) (xs.map (·.2)) 0).map (rows[·]?) = l.map f := by
    refine ext_getElem? fun i => ?_
    rw [getElem?_map, getElem?_map]
    rcases hb : l[i]? with _ | b
    · rw [getElem?_eq_none (by simpa [length_placeAt] using hb)]
      rfl
    · obtain ⟨j, hj, hrow⟩ := hpl i b hb
      rw [hj]
      exact hrow
  obtain ⟨out, hout⟩ := exists_map_some (f := f) fun b hb => by
    obtain ⟨i, hi⟩ := getElem?_of_mem hb
    have hmem : f b ∈ rows.map some :=
      hrw ▸ List.mem_map.2 ⟨(b, i), hxs.mem_iff.2 (mk_mem_zipIdx_iff_getElem?.2 hi), rfl⟩
    obtain ⟨x, -, hx⟩ := List.mem_map.1 hmem
    rw [← hx, isSome_some]
  exact ⟨out, takeRows_eq_some.2 (hinv.trans hout.symm), hout⟩

/-! ## Taken apart and put together

Some rows are had from one place and the others from another, each in their order. -/

/-- The places at which it is `false`. -/
def missIndices (hit : List Bool) : List ℕ := (hit.zipIdx.filter fun x => !x.1).map (·.2)

theorem missIndices_map (p : α → Bool) (l : List α) :
    missIndices (l.map p) = (l.zipIdx.filter fun x => !p x.1).map (·.2) := by
  rw [missIndices, zipIdx_map, List.filter_map, List.map_map]
  rfl

/-- What is taken at the places of those without `p`, from anything that is in the order of `l`. -/
theorem takeRows_missIndices (p : α → Bool) (g : α → β) (l : List α) :
    takeRows (l.map g) (missIndices (l.map p)) = some ((l.filter fun x => !p x).map g) := by
  rw [missIndices_map, takeRows_eq_some, List.map_map, List.map_map]
  have hzp : (l.zipIdx.filter fun x => !p x.1).map (·.1) = l.filter fun x => !p x := by
    rw [← zipIdx_map_fst 0 l, List.filter_map, zipIdx_map_fst]
    rfl
  rw [← hzp, List.map_map]
  refine map_congr_left fun x hx => ?_
  have hget := mem_zipIdx_iff_getElem?.1 (mem_of_mem_filter hx)
  simp [hget]

/-- Where the rows are, if those with `true` come first and the others from `H` on. -/
def splicePerm (H : ℕ) : List Bool → ℕ → ℕ → List ℕ
  | [], _, _ => []
  | true :: hit, hc, mc => hc :: splicePerm H hit (hc + 1) mc
  | false :: hit, hc, mc => (H + mc) :: splicePerm H hit hc (mc + 1)

theorem takeRows_splicePerm_from (p : α → Bool) (g : α → β) {cached fresh : List β} {l : List α} {hc mc : ℕ}
    (hch : cached.drop hc = (l.filter p).map g) (hfr : fresh.drop mc = (l.filter fun x => !p x).map g)
    (hhc : hc ≤ cached.length) :
    takeRows (cached ++ fresh) (splicePerm cached.length (l.map p) hc mc) = some (l.map g) := by
  induction l generalizing hc mc with
  | nil => rfl
  | cons x l ih =>
    rcases hx : p x with _ | _
    · rw [filter_cons_of_neg (by simp [hx])] at hch
      rw [filter_cons_of_pos (by simp [hx]), map_cons] at hfr
      have hget : (cached ++ fresh)[cached.length + mc]? = some (g x) := by
        rw [getElem?_append_right (Nat.le_add_right _ _), Nat.add_sub_cancel_left, ← Nat.add_zero mc,
          ← getElem?_drop, hfr]
        rfl
      have hrs : fresh.drop (mc + 1) = (l.filter fun x => !p x).map g := by
        rw [← drop_drop, hfr, drop_one, tail_cons]
      rw [map_cons, hx, splicePerm, takeRows, hget, bind_some, ih hch hrs hhc]
      rfl
    · rw [filter_cons_of_pos hx, map_cons] at hch
      rw [filter_cons_of_neg (by simp [hx])] at hfr
      have hlt : hc < cached.length := by
        by_contra hle
        rw [drop_eq_nil_of_le (Nat.not_lt.1 hle)] at hch
        cases hch
      have hget : (cached ++ fresh)[hc]? = some (g x) := by
        rw [getElem?_append_left hlt, ← Nat.add_zero hc, ← getElem?_drop, hch]
        rfl
      have hrs : cached.drop (hc + 1) = (l.filter p).map g := by
        rw [← drop_drop, hch, drop_one, tail_cons]
      rw [map_cons, hx, splicePerm, takeRows, hget, bind_some, ih hrs hfr hlt]
      rfl

/-- Rows from two places are put into their order. -/
theorem takeRows_splicePerm (p : α → Bool) (g : α → β) (l : List α) :
    takeRows ((l.filter p).map g ++ (l.filter fun x => !p x).map g)
      (splicePerm ((l.filter p).map g).length (l.map p) 0 0) = some (l.map g) :=
  takeRows_splicePerm_from p g rfl rfl (Nat.zero_le _)

end Vgi
