import Mathlib

/-!
# Products of lists

The tuples with one component from each of several lists, the first list
varying slowest: as built column by column, by appending (`foldl_extend_eq`).
How often a pattern occurs among them is the product of how often its
components occur in the lists (`countP_product`).

Selecting from a list once for each of several requests gives every element that
is wanted once, and nothing else, if and only if each element meets one request
when it is wanted, and none otherwise (`flatMap_filter_perm_iff`).
-/

namespace Vgi

open List

variable {α : Type*}

/-- The tuples with a component from each list. -/
def product : List (List α) → List (List α)
  | [] => [[]]
  | c :: cs => c.flatMap fun v => (product cs).map (v :: ·)

/-- One more column: each tuple is extended by each value. -/
def extend (ts : List (List α)) (c : List α) : List (List α) :=
  ts.flatMap fun p => c.map fun v => p ++ [v]

/-- Extending by column after column builds the product. -/
theorem foldl_extend_eq (cs : List (List α)) (ts : List (List α)) :
    cs.foldl extend ts = ts.flatMap fun p => (product cs).map (p ++ ·) := by
  induction cs generalizing ts with
  | nil => simp [product]
  | cons c cs ih =>
    rw [foldl_cons, ih, extend, flatMap_assoc]
    refine flatMap_congr fun p _ => ?_
    rw [product, flatMap_map, map_flatMap]
    refine flatMap_congr fun v _ => ?_
    simp

theorem foldl_extend_nil (cs : List (List α)) : cs.foldl extend [[]] = product cs := by
  rw [foldl_extend_eq]
  simp

theorem mem_product_iff {cs : List (List α)} {t : List α} : t ∈ product cs ↔ List.Forall₂ (· ∈ ·) t cs := by
  induction cs generalizing t with
  | nil => simp [product]
  | cons c cs ih =>
    simp only [product, mem_flatMap, List.mem_map, ih, forall₂_cons_right_iff]
    constructor
    · rintro ⟨v, hv, t, ht, rfl⟩
      exact ⟨v, t, hv, ht, rfl⟩
    · rintro ⟨v, t, hv, ht, rfl⟩
      exact ⟨v, hv, t, ht, rfl⟩

/-- The tuple meets the pattern, component by component. -/
def meets : List (α → Bool) → List α → Bool
  | [], [] => true
  | p :: ps, a :: t => p a && meets ps t
  | _, _ => false

theorem countP_map_cons (p : α → Bool) (ps : List (α → Bool)) (v : α) (ts : List (List α)) :
    (ts.map (v :: ·)).countP (meets (p :: ps)) = if p v then ts.countP (meets ps) else 0 := by
  rw [countP_map]
  cases hp : p v <;> simp [Function.comp_def, meets, hp]

/-- A pattern occurs as often as the product of its components. -/
theorem countP_product {ps : List (α → Bool)} {cs : List (List α)} (h : ps.length = cs.length) :
    (product cs).countP (meets ps) = (List.zipWith (fun p c => c.countP p) ps cs).prod := by
  induction cs generalizing ps with
  | nil =>
    obtain rfl := length_eq_zero_iff.1 h
    rfl
  | cons c cs ih =>
    obtain ⟨p, ps, rfl⟩ := exists_cons_of_length_eq_add_one h
    have hps : ps.length = cs.length := by simpa using h
    rw [zipWith_cons_cons, prod_cons, ← ih hps, product]
    clear h
    -- each value of the column that meets its component counts once
    induction c with
    | nil => simp
    | cons v c ihc =>
      rw [flatMap_cons, countP_append, ihc, countP_map_cons, countP_cons]
      split <;> ring

/-! ## Selecting once for each request -/

theorem count_flatMap_filter {β : Type*} [DecidableEq β] (rs : List α) (l : List β) (meet : α → β → Bool) (x : β) :
    (rs.flatMap fun r => l.filter (meet r)).count x = rs.countP (meet · x) * l.count x := by
  induction rs with
  | nil => simp
  | cons r rs ih =>
    rw [flatMap_cons, count_append, ih, countP_cons]
    cases hm : meet r x
    · rw [count_eq_zero_of_not_mem (by simp [hm])]
      simp
    · rw [count_filter hm]
      simp only [if_true]
      ring

theorem flatMap_filter_perm_iff {β : Type*} [DecidableEq β] (rs : List α) (l : List β)
    (meet : α → β → Bool) (want : β → Bool) :
    (rs.flatMap fun r => l.filter (meet r)).Perm (l.filter want) ↔
      ∀ x ∈ l, rs.countP (meet · x) = if want x then 1 else 0 := by
  have hwn : ∀ x, (l.filter want).count x = (if want x then 1 else 0) * l.count x := by
    intro x
    split
    case isTrue h => rw [count_filter h, one_mul]
    case isFalse h => rw [count_eq_zero_of_not_mem (by simp [h]), zero_mul]
  simp only [perm_iff_count, count_flatMap_filter, hwn]
  refine forall_congr' fun x => ⟨fun h hx => ?_, fun h => ?_⟩
  · exact Nat.eq_of_mul_eq_mul_right (count_pos_iff.2 hx) h
  · by_cases hx : x ∈ l
    · rw [h hx]
    · rw [count_eq_zero_of_not_mem hx, mul_zero, mul_zero]

end Vgi
