import Vgi.Lib.Bytes

/-!
# Shell commands

A command of plain words and of words in single quotes, as a shell takes it apart (`Shell.words`).
Quotes, backslashes, blanks and characters without a meaning are read; a command with anything else
is not in this part of the language, and has no words here.

* `Shell.words_render`: a command that was put together from words, each of them plain or quoted, is
  taken apart into these words, whatever is in those that are quoted.
-/

namespace Vgi

open List

namespace Shell

/-- The text in single quotes; a quote in it is written as `'\''`. -/
def quote (s : Bytes) : Bytes := 39 :: (s.flatMap fun c => if c = 39 then [39, 92, 39, 39] else [c]) ++ [39]

/-- Characters that stand for themselves: letters, digits, `-` and `_`. -/
def isPlain (c : UInt8) : Bool :=
  (97 ≤ c && c ≤ 122) || (65 ≤ c && c ≤ 90) || (48 ≤ c && c ≤ 57) || c = 45 || c = 95

/-- Where the shell is in a command, with what it has read of the word. -/
inductive Mode
  | blank | word (w : Bytes) | quoted (w : Bytes) | escaped (w : Bytes)

def words : Mode → Bytes → Option (List Bytes)
  | .blank, [] => some []
  | .word w, [] => some [w]
  | .quoted _, [] | .escaped _, [] => none
  | .quoted w, c :: s => if c = 39 then words (.word w) s else words (.quoted (w ++ [c])) s
  -- a line break would be dropped with its backslash
  | .escaped w, c :: s => if c = 10 then none else words (.word (w ++ [c])) s
  | .blank, c :: s =>
    if c = 32 then words .blank s
    else if c = 39 then words (.quoted []) s
    else if c = 92 then words (.escaped []) s
    else if isPlain c then words (.word [c]) s else none
  | .word w, c :: s =>
    if c = 32 then (words .blank s).map (w :: ·)
    else if c = 39 then words (.quoted w) s
    else if c = 92 then words (.escaped w) s
    else if isPlain c then words (.word (w ++ [c])) s else none

theorem words_quoted (w s rest : Bytes) :
    words (.quoted w) ((s.flatMap fun c => if c = 39 then [39, 92, 39, 39] else [c]) ++ 39 :: rest) =
      words (.word (w ++ s)) rest := by
  induction s generalizing w with
  | nil => simp [words]
  | cons c s ih =>
    rw [flatMap_cons, append_assoc]
    by_cases hc : c = 39
    · -- the quotes are closed, and opened again after the escaped one
      subst hc
      simp [words, ih]
    · simp [words, hc, ih]

/-- A quoted text is one word. -/
theorem words_quote (s rest : Bytes) : words .blank (quote s ++ rest) = words (.word s) rest := by
  have hqt := words_quoted [] s rest
  rw [nil_append] at hqt
  rw [quote, cons_append, cons_append, append_assoc, ← hqt]
  rfl

theorem isPlain_ne {c : UInt8} (h : isPlain c) : c ≠ 32 ∧ c ≠ 39 ∧ c ≠ 92 := by
  refine ⟨?_, ?_, ?_⟩ <;> rintro rfl <;> exact absurd h (by decide)

theorem words_plain_append {s : Bytes} (hs : ∀ c ∈ s, isPlain c) (w rest : Bytes) :
    words (.word w) (s ++ rest) = words (.word (w ++ s)) rest := by
  induction s generalizing w with
  | nil => rw [nil_append, append_nil]
  | cons c s ih =>
    obtain ⟨hpl, hs⟩ := forall_mem_cons.1 hs
    obtain ⟨hbl, hqt, hes⟩ := isPlain_ne hpl
    rw [cons_append, words, if_neg hbl, if_neg hqt, if_neg hes, if_pos hpl, ih hs, append_assoc]
    rfl

/-- A plain text is one word. -/
theorem words_plain {s : Bytes} (hs : s ≠ [] ∧ ∀ c ∈ s, isPlain c) (rest : Bytes) :
    words .blank (s ++ rest) = words (.word s) rest := by
  obtain ⟨hne, hs⟩ := hs
  obtain ⟨c, s, rfl⟩ := exists_cons_of_ne_nil hne
  obtain ⟨hpl, hs⟩ := forall_mem_cons.1 hs
  obtain ⟨hbl, hqt, hes⟩ := isPlain_ne hpl
  rw [cons_append, words, if_neg hbl, if_neg hqt, if_neg hes, if_pos hpl, words_plain_append hs]
  rfl

/-! ## Putting a command together -/

/-- A word of a command, as it is written. -/
inductive Piece
  | plain (w : Bytes) | quoted (w : Bytes)

namespace Piece

def text : Piece → Bytes
  | plain w => w
  | quoted w => quote w

def value : Piece → Bytes
  | plain w => w
  | quoted w => w

/-- A word that is not quoted is plain. -/
abbrev Valid : Piece → Prop
  | plain w => w ≠ [] ∧ ∀ c ∈ w, isPlain c
  | quoted _ => True

instance (p : Piece) : Decidable p.Valid := by
  rcases p <;> infer_instance

end Piece

theorem words_piece {p : Piece} (hp : p.Valid) (rest : Bytes) :
    words .blank (p.text ++ rest) = words (.word p.value) rest :=
  match p, hp with
  | .plain _, hp => words_plain hp rest
  | .quoted s, _ => words_quote s rest

/-- The words, with blanks between them. -/
def render (p : Piece) (ps : List Piece) : Bytes := p.text ++ ps.flatMap (32 :: ·.text)

/-- A command is taken apart into the words it was put together from. -/
theorem words_render {p : Piece} {ps : List Piece} (hp : p.Valid) (hps : ∀ q ∈ ps, q.Valid) :
    words .blank (render p ps) = some (p.value :: ps.map (·.value)) := by
  rw [render, words_piece hp]
  -- the next word begins after a blank
  induction ps generalizing p with
  | nil => rfl
  | cons q ps ih =>
    obtain ⟨hq, hps⟩ := forall_mem_cons.1 hps
    rw [flatMap_cons, cons_append, words, if_pos rfl, words_piece hq, ih hq hps]
    rfl

end Shell

end Vgi
