import Mathlib

/-!
# Running over a list

What a list has up to one of its elements (`upTo`): the elements of a cumulative frame, and those that
have been received when the element is. Of two elements the one with less up to it comes first
(`length_upTo_lt`), and where keys increase strictly, what comes up to an element is what is not above it
(`filter_le_eq_upTo`). A stable sort leaves a part of the list alone that is sorted already
(`filter_insertionSort`).
-/

namespace Vgi

open List

variable {α β : Type*} {a : α} {l : List α}

theorem pair_sublist_of_mem {b : α} (ha : a ∈ l) (hb : b ∈ l) (hne : a ≠ b) : [a, b].Sublist l ∨ [b, a].Sublist l := by
  induction l with
  | nil => exact absurd ha not_mem_nil
  | cons x l ih =>
    rcases mem_cons.1 ha with rfl | ha'
    · have hb' : b ∈ l := (mem_cons.1 hb).resolve_left (Ne.symm hne)
      exact .inl ((singleton_sublist.2 hb').cons_cons a)
    · rcases mem_cons.1 hb with rfl | hb'
      · exact .inr ((singleton_sublist.2 ha').cons_cons b)
      · exact (ih ha' hb').imp (·.cons x) (·.cons x)

section UpTo

variable [DecidableEq α]

/-- The elements up to `a`, which is the last of them. -/
def upTo (a : α) (l : List α) : List α := l.takeWhile (· ≠ a) ++ [a]

@[simp]
theorem upTo_cons_self (a : α) (l : List α) : upTo a (a :: l) = [a] := by
  simp [upTo]

@[simp]
theorem upTo_cons_of_ne {x : α} (h : x ≠ a) (l : List α) : upTo a (x :: l) = x :: upTo a l := by
  simp [upTo, h]

theorem upTo_append_cons (h : a ∉ l) (l' : List α) : upTo a (l ++ a :: l') = l ++ [a] := by
  induction l with
  | nil => exact upTo_cons_self a l'
  | cons x l ih =>
    have hx : x ≠ a := fun heq => h (heq ▸ mem_cons_self)
    rw [cons_append, upTo_cons_of_ne hx, ih fun hl => h (mem_cons_of_mem _ hl), cons_append]

theorem filter_upTo {p : α → Bool} (h : p a = true) (l : List α) : (upTo a l).filter p = upTo a (l.filter p) := by
  induction l with
  | nil => simp [upTo, h]
  | cons x l ih =>
    by_cases hx : x = a
    · subst hx
      rw [upTo_cons_self, filter_cons_of_pos h, filter_cons_of_pos h, upTo_cons_self, filter_nil]
    · rw [upTo_cons_of_ne hx]
      by_cases hp : p x = true
      · rw [filter_cons_of_pos hp, filter_cons_of_pos hp, upTo_cons_of_ne hx, ih]
      · rw [filter_cons_of_neg hp, filter_cons_of_neg hp, ih]

/-- Less comes up to the first of two elements. -/
theorem length_upTo_lt {b : α} (h : [a, b].Sublist l) (hl : l.Nodup) : (upTo a l).length < (upTo b l).length := by
  induction l with
  | nil => exact absurd (sublist_nil.1 h) (cons_ne_nil _ _)
  | cons x l ih =>
    obtain ⟨hx, hl⟩ := nodup_cons.1 hl
    rcases sublist_cons_iff.1 h with h | ⟨_, heq, hb⟩
    · have ha : x ≠ a := fun heq => hx (heq ▸ h.subset mem_cons_self)
      have hb : x ≠ b := fun heq => hx (heq ▸ h.subset (mem_cons_of_mem _ mem_cons_self))
      rw [upTo_cons_of_ne ha, upTo_cons_of_ne hb, length_cons, length_cons]
      exact Nat.succ_lt_succ (ih h hl)
    · obtain ⟨rfl, rfl⟩ := List.cons.inj heq
      have hb : a ≠ b := fun heq => hx (heq ▸ singleton_sublist.1 hb)
      rw [upTo_cons_self, upTo_cons_of_ne hb, length_cons]
      simp [upTo]

theorem filter_le_eq_upTo [LinearOrder β] {key : α → β} (ha : a ∈ l) (hl : l.Pairwise fun x y => key x < key y) :
    l.filter (fun x => key x ≤ key a) = upTo a l := by
  induction l with
  | nil => exact absurd ha not_mem_nil
  | cons x l ih =>
    obtain ⟨hx, hl⟩ := pairwise_cons.1 hl
    by_cases hxa : x = a
    · -- All that follows is above.
      subst hxa
      rw [upTo_cons_self, filter_cons_of_pos (by simp), List.cons.injEq]
      refine ⟨rfl, filter_eq_nil_iff.2 fun y hy => ?_⟩
      simpa using hx y hy
    · have ha' : a ∈ l := (mem_cons.1 ha).resolve_left (Ne.symm hxa)
      rw [upTo_cons_of_ne hxa, filter_cons_of_pos (by simpa using (hx a ha').le), ih ha' hl]

end UpTo

/-- A stable sort keeps the order of those that are sorted already. -/
theorem filter_insertionSort {r : α → α → Prop} [DecidableRel r] {p : α → Bool} (h : (l.filter p).Pairwise r) :
    (l.insertionSort r).filter p = l.filter p := by
  have hsub : (l.filter p).Sublist (l.insertionSort r) := sublist_insertionSort h filter_sublist
  have hfl := hsub.filter p
  simp only [List.filter_filter, Bool.and_self] at hfl
  exact (hfl.eq_of_length ((perm_insertionSort r l).filter p).length_eq.symm).symm

end Vgi
