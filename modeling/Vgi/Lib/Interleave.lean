import Mathlib

/-!
# Interleavings

A list of items, each tagged with the number of the sequence it comes from, is an
interleaving of its parts: `part i` has the items of the tag `i`, in order. All
items together are those of the parts (`map_perm_parts`, `map_perm_flatMap`).
-/

namespace Vgi

open List

variable {α : Type*}

/-- The items of the tag `i`. -/
def part (i : ℕ) (items : List (ℕ × α)) : List α :=
  items.filterMap fun x => if x.1 = i then some x.2 else none

@[simp] theorem part_nil (i : ℕ) : part i ([] : List (ℕ × α)) = [] := rfl

@[simp] theorem part_append (i : ℕ) (xs ys : List (ℕ × α)) : part i (xs ++ ys) = part i xs ++ part i ys :=
  filterMap_append

@[simp] theorem part_map_self (i : ℕ) (xs : List α) : part i (xs.map (i, ·)) = xs := by
  rw [part, filterMap_map]
  simp

theorem part_map_of_ne {i j : ℕ} (h : j ≠ i) (xs : List α) : part i (xs.map (j, ·)) = [] := by
  rw [part, filterMap_map, filterMap_eq_nil_iff]
  intro x _
  exact if_neg h

variable {items : List (ℕ × α)}

theorem part_eq_nil {i : ℕ} (h : ∀ x ∈ items, x.1 ≠ i) : part i items = [] :=
  filterMap_eq_nil_iff.2 fun x hx => if_neg (h x hx)

/-- An item of the tag `j` is in the part `j` only. -/
theorem flatMap_part_cons_perm {is : List ℕ} (his : is.Nodup) {j : ℕ} (hj : j ∈ is) (a : α) (items : List (ℕ × α)) :
    (is.flatMap fun i => part i ((j, a) :: items)).Perm (a :: is.flatMap fun i => part i items) := by
  induction is with
  | nil => exact absurd hj not_mem_nil
  | cons i is ih =>
    obtain ⟨hi, his⟩ := nodup_cons.1 his
    rcases mem_cons.1 hj with rfl | hj
    · have hrs : (is.flatMap fun i => part i ((j, a) :: items)) = is.flatMap fun i => part i items := by
        refine flatMap_congr fun i hi' => ?_
        have hne : j ≠ i := fun h => hi (h ▸ hi')
        exact filterMap_cons_none (if_neg hne)
      rw [flatMap_cons, flatMap_cons, hrs, part, filterMap_cons, if_pos rfl]
      exact .refl _
    · have hne : j ≠ i := fun h => hi (h ▸ hj)
      rw [flatMap_cons, flatMap_cons, part, filterMap_cons, if_neg hne]
      exact ((ih his hj).append_left _).trans perm_middle

/-- The items are those of the parts. -/
theorem map_perm_parts {n : ℕ} (h : ∀ x ∈ items, x.1 < n) :
    (items.map (·.2)).Perm ((List.range n).flatMap (part · items)) := by
  induction items with
  | nil => simp
  | cons x items ih =>
    rw [forall_mem_cons] at h
    exact ((ih h.2).cons x.2).trans (flatMap_part_cons_perm nodup_range (mem_range.2 h.1) x.2 items).symm

/-- The items are those of some sequences, if the parts are. -/
theorem map_perm_flatMap {β γ : Type*} {ls : List β} {f : α → γ} {g : β → List γ}
    (htg : ∀ x ∈ items, x.1 < ls.length) (hprt : ∀ i l, ls[i]? = some l → (part i items).map f = g l) :
    (items.map (f ·.2)).Perm (ls.flatMap g) := by
  have hpr := (map_perm_parts htg).map f
  have hmap : (List.range ls.length).map (fun i => (part i items).map f) = ls.map g := by
    refine ext_getElem? fun i => ?_
    rw [getElem?_map, getElem?_map]
    rcases lt_or_ge i ls.length with hi | hi
    · rw [getElem?_range hi, getElem?_eq_getElem hi, Option.map_some, Option.map_some,
        hprt i _ (getElem?_eq_getElem hi)]
    · rw [getElem?_eq_none (by simpa using hi), getElem?_eq_none hi]
      rfl
  rw [map_map, map_flatMap, flatMap_def, hmap, ← flatMap_def] at hpr
  exact hpr

end Vgi
