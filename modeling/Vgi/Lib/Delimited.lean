import Mathlib

/-!
# Encodings that say where they end

An encoding delimits what it encodes if, whatever follows it, both can be told from the whole
(`Delimits`). Such encodings can be put one after the other, as a pair, as a list after its length, or
as a list that is closed by something an element does not begin with, with or without separators.
-/

namespace Vgi

open List

variable {α α' β : Type*} {e : α → List β} {e' : α' → List β}

def Delimits (e : α → List β) : Prop := ∀ ⦃a a' t t'⦄, e a ++ t = e a' ++ t' → a = a' ∧ t = t'

namespace Delimits

theorem injective (h : Delimits e) : Function.Injective e := fun _ _ heq => (h (congrArg (· ++ []) heq)).1

theorem prod (h : Delimits e) (h' : Delimits e') : Delimits fun p : α × α' => e p.1 ++ e' p.2 := by
  intro p p' t t' heq
  rw [append_assoc, append_assoc] at heq
  obtain ⟨hfst, heq⟩ := h heq
  obtain ⟨hsnd, ht⟩ := h' heq
  exact ⟨Prod.ext hfst hsnd, ht⟩

theorem of_prefixFree (h : ∀ a a', e a <+: e a' → a = a') : Delimits e := by
  intro a a' t t' heq
  obtain rfl : a = a' := by
    obtain hpre | hpre := prefix_or_prefix_of_prefix (prefix_append (e a) t) (heq ▸ prefix_append _ t')
    · exact h a a' hpre
    · exact (h a' a hpre).symm
  exact ⟨rfl, append_cancel_left heq⟩

theorem after (p : List β) (h : Delimits e) : Delimits fun a => p ++ e a := by
  intro a a' t t' heq
  rw [append_assoc, append_assoc] at heq
  exact h (append_cancel_left heq)

/-- A list after its length. -/
theorem counted {c : ℕ → List β} (hc : Delimits c) (h : Delimits e) :
    Delimits fun l : List α => c l.length ++ l.flatMap e := by
  intro l l' t t' heq
  rw [append_assoc, append_assoc] at heq
  obtain ⟨hlen, hrs⟩ := hc heq
  clear heq
  induction l generalizing l' with
  | nil =>
    obtain rfl := eq_nil_of_length_eq_zero hlen.symm
    exact ⟨rfl, hrs⟩
  | cons a l ih =>
    obtain ⟨a', l', rfl⟩ := exists_cons_of_length_eq_add_one hlen.symm
    rw [flatMap_cons, flatMap_cons, append_assoc, append_assoc] at hrs
    obtain ⟨rfl, htl⟩ := h hrs
    obtain ⟨rfl, ht⟩ := ih (Nat.succ.inj hlen) htl
    exact ⟨rfl, ht⟩

/-- A list and what closes it. -/
theorem closed {z : β} (h : Delimits e) (hz : ∀ a t t', e a ++ t ≠ z :: t') :
    Delimits fun l : List α => l.flatMap e ++ [z] := by
  intro l l' t t' heq
  rw [append_assoc, append_assoc] at heq
  induction l generalizing l' with
  | nil =>
    cases l' with
    | nil => exact ⟨rfl, (cons.inj heq).2⟩
    | cons a l' =>
      rw [flatMap_cons, append_assoc] at heq
      exact (hz _ _ _ heq.symm).elim
  | cons a l ih =>
    rw [flatMap_cons, append_assoc] at heq
    cases l' with
    | nil => exact (hz _ _ _ heq).elim
    | cons a' l' =>
      rw [flatMap_cons, append_assoc] at heq
      obtain ⟨rfl, hrs⟩ := h heq
      obtain ⟨rfl, ht⟩ := ih hrs
      exact ⟨rfl, ht⟩

/-- A list with separators and what closes it. -/
theorem separated {c z : β} (hc : c ≠ z) (h : Delimits e) (hz : ∀ a t t', e a ++ t ≠ z :: t') :
    Delimits fun l : List α => [c].intercalate (l.map e) ++ [z] := by
  have hcn : ∀ a l, [c].intercalate ((a :: l).map e) = e a ++ l.flatMap fun a => [c] ++ e a := by
    intro a l
    induction l generalizing a with
    | nil => simp
    | cons b l ih => rw [map_cons, map_cons, intercalate_cons_cons, ← map_cons, ih]; simp
  have hrs : Delimits fun l : List α => (l.flatMap fun a => [c] ++ e a) ++ [z] :=
    (h.after [c]).closed fun _ _ _ heq => hc (cons.inj heq).1
  intro l l' t t' heq
  rw [append_assoc, append_assoc] at heq
  cases l with
  | nil =>
    cases l' with
    | nil => exact ⟨rfl, (cons.inj heq).2⟩
    | cons a l' =>
      rw [hcn, append_assoc] at heq
      exact (hz _ _ _ heq.symm).elim
  | cons a l =>
    rw [hcn, append_assoc] at heq
    cases l' with
    | nil => exact (hz _ _ _ heq).elim
    | cons a' l' =>
      rw [hcn, append_assoc] at heq
      obtain ⟨rfl, heq⟩ := h heq
      obtain ⟨rfl, ht⟩ := hrs (by simpa using heq)
      exact ⟨rfl, ht⟩

end Delimits

end Vgi
