import Vgi.Lib.Text

/-!
# Command lines of Windows

A worker is started there with one text for all arguments, which it takes apart by the rules of `CommandLineToArgvW`:
the name of the program first (`commandLineToArgv`), then words in which a run of backslashes before a quote stands for
half as many (`words`).

* `words_quoteArg`: an argument that was quoted is one word, whatever is in it;
* `commandLineToArgv_buildCommandLine`: so are all of them, if quotes and backslashes do not spoil the first.
-/

namespace Vgi.Windows

open List

/-- The text after the opening quote, with the number of backslashes just before. -/
def quoteRest : ℕ → Bytes → Bytes
  | n, [] => replicate n 92 ++ [34]
  | n, c :: s =>
    if c = 92 then c :: quoteRest (n + 1) s
    else if c = 34 then replicate (n + 1) 92 ++ 34 :: quoteRest 0 s
    else c :: quoteRest 0 s

/-- `QuoteArg`: arguments that are empty, or have blanks or quotes, are quoted. -/
def quoteArg (arg : Bytes) : Bytes :=
  if arg ≠ [] ∧ ∀ c ∈ arg, c ≠ 32 ∧ c ≠ 9 ∧ c ≠ 34 then arg else 34 :: quoteRest 0 arg

/-- `BuildCommandLine`: the arguments with blanks between them. -/
def buildCommandLine : List Bytes → Bytes
  | [] => []
  | arg :: args => quoteArg arg ++ args.flatMap (32 :: quoteArg ·)

/-! ## Taking it apart -/

def isBlank (c : UInt8) : Bool := c = 32 || c = 9

/-- Between words, or in one: whether in quotes, how many backslashes were read last, and what was read before. -/
inductive Mode
  | blank | word (quoted : Bool) (n : ℕ) (w : Bytes)

/-- A character of a word. -/
def Mode.read (q : Bool) (n : ℕ) (w : Bytes) (c : UInt8) : Mode :=
  if c = 92 then .word q (n + 1) w
  else if c = 34 then
    if n % 2 = 0 then .word (!q) 0 (w ++ replicate (n / 2) 92) else .word q 0 (w ++ replicate (n / 2) 92 ++ [34])
  else .word q 0 (w ++ replicate n 92 ++ [c])

/-- The words that are read from a mode on. -/
def words : Mode → Bytes → List Bytes
  | .blank, [] => []
  | .word _ n w, [] => [w ++ replicate n 92]
  | .blank, c :: s => words (if isBlank c then .blank else .read false 0 [] c) s
  | .word q n w, c :: s =>
    if !q && isBlank c then (w ++ replicate n 92) :: words .blank s else words (.read q n w c) s

/-- The first word has no escapes. -/
def commandLineToArgv : Bytes → List Bytes
  | 34 :: s => s.takeWhile (· ≠ 34) :: words .blank (s.dropWhile (· ≠ 34)).tail
  | s => s.takeWhile (!isBlank ·) :: words .blank (s.dropWhile (!isBlank ·))

variable {n : ℕ} {q : Bool} {s w rest : Bytes}

theorem words_backslashes (k : ℕ) : words (.word q n w) (replicate k 92 ++ rest) = words (.word q (n + k) w) rest := by
  induction k generalizing n with
  | zero => rfl
  | succ k ih =>
    rw [replicate_succ, cons_append, words, if_neg (by simp [isBlank]), Mode.read, if_pos rfl, ih]
    congr 2
    omega

/-- What comes after a word: nothing, or a blank. -/
def Ends (rest : Bytes) : Prop := ∀ c ∈ rest.head?, c = 32

theorem words_ends (h : Ends rest) : words (.word false n w) rest = (w ++ replicate n 92) :: words .blank rest := by
  cases rest with
  | nil => rfl
  | cons c rest => simp [words, isBlank, h c rfl]

theorem words_quoteRest (h : Ends rest) :
    words (.word true n w) (quoteRest n s ++ rest) = (w ++ replicate n 92 ++ s) :: words .blank rest := by
  induction s generalizing n w with
  | nil =>
    rw [quoteRest, append_assoc, words_backslashes]
    simp [words, Mode.read, ← two_mul, words_ends h]
  | cons c s ih =>
    rw [quoteRest]
    split_ifs with hb hq
    · rw [cons_append, words, if_neg (by simp), Mode.read, if_pos hb, ih, hb]
      simp [replicate_succ']
    · -- an odd number of backslashes, of which half are read, and then the quote
      rw [append_assoc, words_backslashes, cons_append, words, if_neg (by simp), Mode.read, if_neg (by decide),
        if_pos rfl, if_neg (by omega), ih, show (n + (n + 1)) / 2 = n by omega, hq]
      simp
    · simp [words, Mode.read, hb, hq, ih]

theorem words_plain (h : Ends rest) (hs : ∀ c ∈ s, c ≠ 32 ∧ c ≠ 9 ∧ c ≠ 34) :
    words (.word false n w) (s ++ rest) = (w ++ replicate n 92 ++ s) :: words .blank rest := by
  induction s generalizing n w with
  | nil => simpa using words_ends h
  | cons c s ih =>
    obtain ⟨⟨h32, h9, h34⟩, hs⟩ := forall_mem_cons.1 hs
    rw [cons_append, words, if_neg (by simp [isBlank, h32, h9]), Mode.read, if_neg h34]
    split_ifs with hb
    · rw [ih hs, hb]
      simp [replicate_succ']
    · rw [ih hs]
      simp

/-- A quoted argument is read as one word. -/
theorem words_quoteArg (h : Ends rest) : words .blank (quoteArg s ++ rest) = s :: words .blank rest := by
  rw [quoteArg]
  split_ifs with hs
  · obtain ⟨c, s, rfl⟩ := exists_cons_of_ne_nil hs.1
    obtain ⟨h32, h9, -⟩ := hs.2 c mem_cons_self
    -- the first character is read as within a word
    have hc : words .blank (c :: s ++ rest) = words (.word false 0 []) (c :: s ++ rest) := by
      simp [words, isBlank, h32, h9]
    exact hc.trans (words_plain h hs.2)
  · exact words_quoteRest h

theorem words_flatMap (args : List Bytes) :
    Ends (args.flatMap (32 :: quoteArg ·)) ∧ words .blank (args.flatMap (32 :: quoteArg ·)) = args := by
  induction args with
  | nil => exact ⟨nofun, rfl⟩
  | cons arg args ih =>
    refine ⟨fun c hc => (Option.some.inj hc).symm, ?_⟩
    rw [flatMap_cons, cons_append, words, if_pos (by decide), words_quoteArg ih.1, ih.2]

/-- Without quotes, and with no backslash at its end, a text is quoted as it is. -/
theorem quoteRest_eq (hs : 34 ∉ s) (hls : s.getLast? ≠ some 92) (hn : s = [] → n = 0) : quoteRest n s = s ++ [34] := by
  induction s generalizing n with
  | nil => simp [quoteRest, hn rfl]
  | cons c s ih =>
    obtain ⟨hc, hs⟩ := not_or.1 (mem_cons.not.1 hs)
    rw [quoteRest, if_neg (Ne.symm hc), cons_append]
    rcases eq_or_ne s [] with rfl | hne
    · rw [if_neg (by simpa using hls)]
      rfl
    · rw [getLast?_cons_of_ne_nil hne] at hls
      split_ifs <;> rw [ih hs hls fun h => absurd h hne]

/-- The text up to where a condition ends. -/
theorem takeWhile_dropWhile {p : UInt8 → Bool} (hs : ∀ c ∈ s, p c) (hrs : ∀ c ∈ rest.head?, ¬p c) :
    (s ++ rest).takeWhile p = s ∧ (s ++ rest).dropWhile p = rest := by
  rw [takeWhile_append_of_pos hs, dropWhile_append_of_pos hs]
  cases rest with
  | nil => simp
  | cons c rest => simp [hrs c rfl]

/-- The program takes apart what was put together, if its own name has no quote and does not end in a backslash. -/
theorem commandLineToArgv_buildCommandLine {arg : Bytes} (harg : 34 ∉ arg) (hlast : arg.getLast? ≠ some 92)
    (args : List Bytes) : commandLineToArgv (buildCommandLine (arg :: args)) = arg :: args := by
  obtain ⟨hen, har⟩ := words_flatMap args
  rw [buildCommandLine, quoteArg]
  split_ifs with h
  · obtain ⟨htk, hdr⟩ := @takeWhile_dropWhile arg _ (!isBlank ·) (fun c hc => by simp [isBlank, h.2 c hc])
      fun c hc => by simp [isBlank, hen c hc]
    rw [commandLineToArgv, htk, hdr, har]
    obtain ⟨c, arg, rfl⟩ := exists_cons_of_ne_nil h.1
    rintro s heq
    cases heq
    exact harg mem_cons_self
  · obtain ⟨htk, hdr⟩ := @takeWhile_dropWhile arg (34 :: args.flatMap (32 :: quoteArg ·)) (· ≠ 34)
      (fun c hc => by simpa using ne_of_mem_of_not_mem hc harg) (by simp)
    rw [cons_append, quoteRest_eq harg hlast fun _ => rfl, append_assoc, singleton_append, commandLineToArgv, htk,
      hdr, tail_cons, har]

theorem commandLineToArgv_programFiles : commandLineToArgv (buildCommandLine
    [ascii "C:\\Program Files\\vgi.exe", ascii "--path", ascii "a \\\"b\\\\"]) =
      [ascii "C:\\Program Files\\vgi.exe", ascii "--path", ascii "a \\\"b\\\\"] :=
  commandLineToArgv_buildCommandLine (by decide) (by decide) _

end Vgi.Windows
