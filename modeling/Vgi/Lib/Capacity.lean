import Mathlib

/-!
# Dropping elements over a cap

A store over its capacity drops its oldest elements, one after the other, until
what is left fits: `dropOver` walks a list, the oldest first, with a running
total. Which elements go is a property of the list alone (`mem_dropOver_iff`):
those all of whose tails are over the cap. Taking a fixed number of elements off
the front is the case where every element weighs `1` (`take_eq_dropOver`).
-/

namespace Vgi

open List

variable {α : Type*}

/-- Drop elements off the front while the running total is over the cap: the elements dropped, and those left. -/
def dropOver (cap : ℤ) (weight : α → ℤ) : ℤ → List α → List α × List α
  | _, [] => ([], [])
  | total, a :: l =>
    if total ≤ cap then ([], a :: l)
    else (a :: (dropOver cap weight (total - weight a) l).1, (dropOver cap weight (total - weight a) l).2)

/-- Every tail of `l` that contains `a` is over the cap. -/
abbrev OverCap (cap : ℤ) (weight : α → ℤ) (l : List α) (a : α) : Prop :=
  ∀ q ∈ l.tails, a ∈ q → cap < (q.map weight).sum

variable {cap : ℤ} {weight : α → ℤ}

theorem dropOver_append (cap : ℤ) (weight : α → ℤ) (total : ℤ) (l : List α) :
    (dropOver cap weight total l).1 ++ (dropOver cap weight total l).2 = l := by
  induction l generalizing total with
  | nil => rfl
  | cons a l ih =>
    rw [dropOver]
    split
    · rfl
    · rw [cons_append, ih]

variable {l : List α}

theorem overCap_cons {a b : α} : OverCap cap weight (b :: l) a ↔
    (a ∈ b :: l → cap < ((b :: l).map weight).sum) ∧ OverCap cap weight l a := by
  simp only [OverCap, tails_cons, mem_cons, forall_eq_or_imp]

/-- An element is in none of the tails of a list it is not in. -/
theorem overCap_of_notMem {a : α} (h : a ∉ l) : OverCap cap weight l a :=
  fun _ hq ha => absurd (((mem_tails _ _).1 hq).subset ha) h

/-- The elements dropped from a list are those with all their tails over the cap. -/
theorem mem_dropOver_iff (hl : l.Nodup) {a : α} :
    a ∈ (dropOver cap weight (l.map weight).sum l).1 ↔ a ∈ l ∧ OverCap cap weight l a := by
  induction l with
  | nil => simp [dropOver]
  | cons b l ih =>
    obtain ⟨hb, hl⟩ := nodup_cons.1 hl
    have hsum : ((b :: l).map weight).sum - weight b = (l.map weight).sum := by simp
    rw [dropOver, hsum, overCap_cons]
    split
    case isTrue h =>
      simp only [not_mem_nil, false_iff, not_and]
      intro ha hc
      exact absurd (hc ha) (Int.not_lt.2 h)
    case isFalse h =>
      rw [mem_cons, ih hl, mem_cons]
      have hlt := Int.not_le.1 h
      constructor
      · rintro (rfl | ⟨ha, ho⟩)
        · exact ⟨.inl rfl, fun _ => hlt, overCap_of_notMem hb⟩
        · exact ⟨.inr ha, fun _ => hlt, ho⟩
      · rintro ⟨rfl | ha, _, ho⟩
        · exact .inl rfl
        · exact .inr ⟨ha, ho⟩

/-- Taking what is over `n` elements off the front. -/
theorem take_eq_dropOver (n : ℕ) (l : List α) :
    l.take (l.length - n) = (dropOver n (fun _ => 1) (l.map fun _ => (1 : ℤ)).sum l).1 := by
  induction l with
  | nil => simp [dropOver]
  | cons a l ih =>
    have hsum : ((a :: l).map fun _ => 1).sum - 1 = (l.map fun _ => (1 : ℤ)).sum := by simp
    have hlen : ((a :: l).map fun _ => (1 : ℤ)).sum = (l.length + 1 : ℕ) := by simp; omega
    rw [dropOver, hsum, ← ih, hlen, length_cons]
    split
    case isTrue h => rw [Nat.sub_eq_zero_of_le (by omega), take_zero]
    case isFalse h => rw [Nat.succ_sub (by omega), take_succ_cons]

end Vgi
