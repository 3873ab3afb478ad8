import Mathlib

/-!
# Elements picked by flags

A list, and flags for the first of its elements: the elements with a flag that is set (`picked`), and
all the others (`others`), which are what is left when the former are erased one by one, from the last
(`eraseEach_positions`).
-/

namespace Vgi

open List

variable {α β : Type*}

/-- The elements whose flags are set. -/
def picked : List Bool → List α → List α
  | true :: flags, x :: l => x :: picked flags l
  | false :: flags, _ :: l => picked flags l
  | _, _ => []

/-- The elements whose flags are not set, or that have none. -/
def others : List Bool → List α → List α
  | true :: flags, _ :: l => others flags l
  | false :: flags, x :: l => x :: others flags l
  | [], l => l
  | _, [] => []

/-- Where the flags are set. -/
def positions (flags : List Bool) : List ℕ := (List.range flags.length).filter fun i => flags.getD i false

/-- Erase the elements at these positions, the last one first. -/
def eraseEach (indices : List ℕ) (l : List α) : List α := indices.reverse.foldl List.eraseIdx l

theorem positions_cons (b : Bool) (flags : List Bool) :
    positions (b :: flags) = (if b then [0] else []) ++ (positions flags).map (· + 1) := by
  rw [positions, positions, length_cons, range_succ_eq_map, filter_cons, List.filter_map, getD_cons_zero]
  rcases b with _ | _
  · rfl
  · rfl

theorem foldl_eraseIdx_succ (indices : List ℕ) (x : α) (l : List α) :
    (indices.map (· + 1)).foldl List.eraseIdx (x :: l) = x :: indices.foldl List.eraseIdx l := by
  induction indices generalizing l with
  | nil => rfl
  | cons i indices ih => rw [map_cons, foldl_cons, eraseIdx_cons_succ, ih, foldl_cons]

theorem eraseEach_positions (flags : List Bool) (l : List α) :
    eraseEach (positions (flags.take l.length)) l = others flags l := by
  fun_induction others flags l with
  | case1 flags x l ih | case2 flags x l ih =>
    rw [eraseEach] at ih
    rw [length_cons, take_succ_cons, positions_cons, eraseEach, reverse_append,
      ← map_reverse, foldl_append, foldl_eraseIdx_succ, ih]
    rfl
  | case3 l => rw [take_nil]; rfl
  | case4 flags => rcases flags <;> rfl

variable {flags : List Bool}

/-- What is at the positions. -/
theorem map_positions {l : List α} (h : flags.length ≤ l.length) :
    (positions flags).map (l[·]?) = (picked flags l).map some := by
  induction flags generalizing l with
  | nil => rfl
  | cons b flags ih =>
    rcases l with _ | ⟨x, l⟩
    · exact absurd h (Nat.not_succ_le_zero _)
    have hrs := ih (Nat.le_of_succ_le_succ h)
    rw [positions_cons, map_append, List.map_map]
    rcases b with _ | _
    · exact hrs
    · exact congrArg (some x :: ·) hrs

theorem length_others_add (flags : List Bool) (l : List α) :
    (others flags l).length + (flags.take l.length).count true = l.length := by
  fun_induction others flags l with
  | case1 flags _ l ih =>
    rw [length_cons, take_succ_cons, count_cons_self]
    omega
  | case2 flags x l ih =>
    rw [length_cons, length_cons, take_succ_cons, count_cons_of_ne (by decide)]
    omega
  | case3 | case4 => simp

theorem length_picked (flags : List Bool) (l : List α) :
    (picked flags l).length = (flags.take l.length).count true := by
  induction flags generalizing l with
  | nil => rcases l with _ | ⟨x, l⟩ <;> rfl
  | cons b flags ih =>
    rcases l with _ | ⟨x, l⟩
    · rcases b with _ | _ <;> rfl
    · rw [length_cons, take_succ_cons]
      rcases b with _ | _
      · rw [picked, count_cons_of_ne (by decide), ih]
      · rw [picked, length_cons, count_cons_self, ih]

theorem others_of_unset (h : true ∉ flags) (l : List α) : others flags l = l := by
  fun_induction others flags l with
  | case1 => exact absurd mem_cons_self h
  | case2 flags x l ih => rw [ih fun hm => h (mem_cons_of_mem _ hm)]
  | case3 | case4 => rfl

theorem positions_of_unset (h : true ∉ flags) : positions flags = [] := by
  rw [positions, filter_eq_nil_iff]
  intro i hi hfl
  rw [getD_eq_getElem _ _ (mem_range.1 hi)] at hfl
  exact h (hfl ▸ getElem_mem _)

end Vgi
