import Mathlib

/-!
# Records written one after the other

The usual way to write a list of records as one text is to write them one after
the other, each with a terminator (`joined`). If a record may contain the
terminator, the text does not say where a record ends: what is left of the
records is the list of their pieces between terminators (`joined_eq_iff`).

So two lists of records with one text are equal, or *confused*
(`joined_map_eq_iff`): at the first place where they differ, the pieces of one
record begin with those of the other, and the pieces left over begin what
follows the other record.
-/

namespace Vgi

open List

variable {α : Type*} [DecidableEq α]

/-- The records one after the other, each followed by the terminator. -/
def joined (sep : α) (ls : List (List α)) : List α := ls.flatMap (· ++ [sep])

omit [DecidableEq α] in
/-- A loop that writes the records. -/
theorem foldl_eq_joined {R : Type*} {sep : α} {text : R → List α} {f : List α → R → List α}
    (hf : ∀ out r, f out r = out ++ text r ++ [sep]) (l : List R) : l.foldl f [] = joined sep (l.map text) := by
  have hfold : ∀ out, l.foldl f out = out ++ joined sep (l.map text) := by
    induction l with
    | nil => simp [joined]
    | cons r l ih =>
      intro out
      rw [foldl_cons, ih, hf]
      simp [joined]
  exact hfold []

theorem splitOn_joined (sep : α) (ls : List (List α)) :
    (joined sep ls).splitOn sep = ls.flatMap (·.splitOn sep) ++ [[]] := by
  induction ls with
  | nil => simp [joined]
  | cons l ls ih =>
    have hcn : joined sep (l :: ls) = l ++ sep :: joined sep ls := by simp [joined]
    rw [hcn, splitOn_append_cons_self, ih, flatMap_cons, append_assoc]

/-- A text determines the pieces of its records, and no more. -/
theorem joined_eq_iff (sep : α) (ls ls' : List (List α)) :
    joined sep ls = joined sep ls' ↔ ls.flatMap (·.splitOn sep) = ls'.flatMap (·.splitOn sep) := by
  constructor
  · intro h
    have h' := congrArg (List.splitOn sep) h
    rw [splitOn_joined, splitOn_joined] at h'
    exact append_cancel_right h'
  · intro h
    have hs : ∀ l, [sep].intercalate (l.splitOn sep) = l := fun _ => intercalate_splitOn sep
    rw [← hs (joined sep ls), splitOn_joined, h, ← splitOn_joined, hs]

section Records

variable {R : Type*} (sep : α) (text : R → List α)

/-- The pieces of a record between terminators. -/
def pieces (r : R) : List (List α) := (text r).splitOn sep

/-- The lists `l` and `l'` differ first in the records `a` and `b`; the pieces of `a` are those of `b` and some more,
    which are the first pieces of what follows `b`, the rest of `l` and `l'` having the same pieces. -/
def Confused (l l' : List R) : Prop :=
  ∃ p a r b s q, l = p ++ a :: r ∧ l' = p ++ b :: s ∧ a ≠ b ∧
    pieces sep text a = pieces sep text b ++ q ∧
      q ++ r.flatMap (pieces sep text) = s.flatMap (pieces sep text)

variable {sep text}

theorem pieces_ne_nil (r : R) : pieces sep text r ≠ [] := splitOn_ne_nil _ _

variable {l l' : List R}

/-- Confused lists differ. -/
theorem Confused.ne (h : Confused sep text l l') : l ≠ l' := by
  obtain ⟨p, a, r, b, s, q, rfl, rfl, hab, _⟩ := h
  intro e
  exact hab (List.cons.inj (append_cancel_left e)).1

/-- Confused lists have the same pieces. -/
theorem Confused.flatMap_eq (h : Confused sep text l l') :
    l.flatMap (pieces sep text) = l'.flatMap (pieces sep text) := by
  obtain ⟨p, a, r, b, s, q, rfl, rfl, _, ha, hq⟩ := h
  simp only [flatMap_append, flatMap_cons, ha, append_assoc, hq]

theorem Confused.cons (a : R) (h : Confused sep text l l') : Confused sep text (a :: l) (a :: l') := by
  obtain ⟨p, b, r, c, s, q, rfl, rfl, hbc, hb, hq⟩ := h
  exact ⟨a :: p, b, r, c, s, q, rfl, rfl, hbc, hb, hq⟩

/-- Different lists with the same pieces are confused. -/
theorem confused_of_flatMap_eq (h : l.flatMap (pieces sep text) = l'.flatMap (pieces sep text)) (hne : l ≠ l') :
    Confused sep text l l' ∨ Confused sep text l' l := by
  induction l generalizing l' with
  | nil =>
    -- a record has at least one piece
    cases l' with
    | nil => exact absurd rfl hne
    | cons b l' => exact absurd (append_eq_nil_iff.1 h.symm).1 (pieces_ne_nil b)
  | cons a l ih =>
    cases l' with
    | nil => exact absurd (append_eq_nil_iff.1 h).1 (pieces_ne_nil a)
    | cons b l' =>
      rw [flatMap_cons, flatMap_cons] at h
      by_cases hab : a = b
      · subst hab
        rcases ih (append_cancel_left h) (fun e => hne (e ▸ rfl)) with hc | hc
        · exact .inl (hc.cons a)
        · exact .inr (hc.cons a)
      · rcases append_eq_append_iff.1 h with ⟨q, hb, hl⟩ | ⟨q, ha, hl'⟩
        · exact .inr ⟨[], b, l', a, l, q, rfl, rfl, Ne.symm hab, hb, hl.symm⟩
        · exact .inl ⟨[], a, l, b, l', q, rfl, rfl, hab, ha, hl'.symm⟩

/-- Two lists of records have one text when they are equal or confused. -/
theorem joined_map_eq_iff :
    joined sep (l.map text) = joined sep (l'.map text) ↔ l = l' ∨ Confused sep text l l' ∨ Confused sep text l' l := by
  have hp : ∀ l : List R, (l.map text).flatMap (·.splitOn sep) = l.flatMap (pieces sep text) := fun l => flatMap_map ..
  rw [joined_eq_iff, hp, hp]
  constructor
  · intro h
    by_cases hne : l = l'
    · exact .inl hne
    · exact .inr (confused_of_flatMap_eq h hne)
  · rintro (rfl | hc | hc)
    · rfl
    · exact hc.flatMap_eq
    · exact hc.flatMap_eq.symm

/-- Lists of records without a terminator, told apart by their texts, are never confused. -/
theorem not_confused_of_notMem (hl : ∀ a ∈ l, sep ∉ text a) (hin : ∀ a ∈ l, ∀ b ∈ l', text a = text b → a = b) :
    ¬Confused sep text l l' := by
  rintro ⟨p, a, r, b, s, q, rfl, rfl, hab, ha, _⟩
  have hmem : a ∈ p ++ a :: r := by simp
  -- a record without terminators is one piece, hence the only one of the other
  rw [pieces, splitOn_eq_singleton (hl a hmem)] at ha
  have hs : [sep].intercalate (pieces sep text b) = text b := intercalate_splitOn sep
  obtain ⟨c, cs, hc⟩ : ∃ c cs, pieces sep text b = c :: cs := exists_cons_of_ne_nil (pieces_ne_nil b)
  rw [hc, cons_append] at ha
  obtain ⟨rfl, hnil⟩ := List.cons.inj ha
  have htx : text a = text b := by
    rw [← hs, hc, (append_eq_nil_iff.1 hnil.symm).1]
    simp
  exact hab (hin a hmem b (by simp) htx)

end Records

end Vgi
