import Vgi.Lib.Bytes
import Vgi.Lib.Joined

/-!
# Text formats over bytes

Decimal numbers as the C++ standard library reads them, texts of lines
`key=value`, and the tests by which a program tells URLs apart: what a text starts
with, ASCII letters of either case being the same or not (`lower`).
-/

namespace Vgi

open List

/-- A C string ends at the first zero. -/
def cString (s : Bytes) : Bytes := s.takeWhile (· ≠ 0)

/-- `isspace` in the C locale. -/
def isSpace (b : UInt8) : Bool := b = 32 || (9 ≤ b && b ≤ 13)

def isDigit (b : UInt8) : Bool := 48 ≤ b && b ≤ 57

/-- The number a sequence of digits writes in base ten. -/
def digitsVal (ds : Bytes) : ℕ := ds.foldl (fun n d => 10 * n + (d.toNat - 48)) 0

/-- An optional sign and the digits after it: `none` without any digit. -/
def readSigned (s : Bytes) : Option ℤ :=
  match s with
  | 45 :: s => if (s.takeWhile isDigit).isEmpty then none else some (-digitsVal (s.takeWhile isDigit))
  | 43 :: s => if (s.takeWhile isDigit).isEmpty then none else some (digitsVal (s.takeWhile isDigit))
  | s => if (s.takeWhile isDigit).isEmpty then none else some (digitsVal (s.takeWhile isDigit))

/-- `std::stoll`: leading blanks are skipped, trailing text is ignored, and a value outside of 64 bits is an error. -/
def stoll (s : Bytes) : Option ℤ :=
  match readSigned (s.dropWhile isSpace) with
  | none => none
  | some v => if -2 ^ 63 ≤ v ∧ v < 2 ^ 63 then some v else none

/-- `std::stoull`, and what follows the number. A negative number is taken modulo `2 ^ 64`. -/
def stoull (s : Bytes) : Option (ℕ × Bytes) :=
  let s := s.dropWhile isSpace
  let digits := if s.head? = some 45 || s.head? = some 43 then s.tail else s
  match readSigned s with
  | none => none
  | some v =>
    if v.natAbs < 2 ^ 64 then some ((v % 2 ^ 64).toNat, digits.dropWhile isDigit) else none

/-- `std::to_string` of a number. -/
def decimal (n : ℤ) : Bytes := ascii (toString n)

/-- The digits are read off the decimal. -/
theorem map_decimal (n : ℕ) : (decimal n).map (fun b => Char.ofNat b.toNat) = Nat.toDigits 10 n := by
  have hdg c (hc : c ∈ Nat.toDigits 10 n) : Char.ofNat c.toNat.toUInt8.toNat = c := by
    have hlt : c.isDigit := Nat.isDigit_of_mem_toDigits (by norm_num) (by norm_num) hc
    simp only [Char.isDigit, Bool.and_eq_true, decide_eq_true_eq] at hlt
    have hle : c.toNat ≤ 57 := UInt32.le_iff_toNat_le.1 hlt.2
    rw [Nat.toUInt8_eq, UInt8.toNat_ofNat', Nat.mod_eq_of_lt (by omega), Char.ofNat_toNat]
  have htx : toString (n : ℤ) = String.ofList (Nat.toDigits 10 n) := Nat.toString_eq_ofList_toDigits
  rw [decimal, ascii, htx, String.toList_ofList, List.map_map]
  exact (map_congr_left hdg).trans (List.map_id' _)

/-- A decimal is made of digits. -/
theorem isDigit_of_mem_decimal {n : ℕ} {b : UInt8} (h : b ∈ decimal n) : isDigit b = true := by
  have hmem : Char.ofNat b.toNat ∈ Nat.toDigits 10 n := by
    rw [← map_decimal]
    exact List.mem_map_of_mem h
  have hdg : (Char.ofNat b.toNat).isDigit := Nat.isDigit_of_mem_toDigits (by norm_num) (by norm_num) hmem
  revert hdg
  exact (by decide +kernel : ∀ b, (Char.ofNat b.toNat).isDigit = true → isDigit b = true) b

/-- Numbers are told apart by their decimals. -/
theorem decimal_natCast_inj {m n : ℕ} (h : decimal m = decimal n) : m = n := by
  have hdg : Nat.toDigits 10 m = Nat.toDigits 10 n := by rw [← map_decimal, h, map_decimal]
  exact Nat.repr_inj.1 (by rw [Nat.repr_eq_ofList_toDigits, Nat.repr_eq_ofList_toDigits, hdg])

theorem decimal_negSucc (n : ℕ) : decimal (Int.negSucc n) = 45 :: decimal ((n + 1 : ℕ) : ℤ) := by
  have hng : toString (Int.negSucc n) = "-" ++ toString (((n + 1 : ℕ)) : ℤ) := rfl
  rw [decimal, hng, decimal, ascii, ascii, String.toList_append, map_append]
  rfl

theorem decimal_inj {m n : ℤ} (h : decimal m = decimal n) : m = n := by
  -- A minus is no digit.
  have hsg : ∀ a b : ℕ, decimal a ≠ decimal (Int.negSucc b) := by
    intro a b heq
    rw [decimal_negSucc] at heq
    exact absurd (isDigit_of_mem_decimal (heq ▸ mem_cons_self)) (by decide)
  rcases m with a | a
  · rcases n with b | b
    · exact congrArg Int.ofNat (decimal_natCast_inj h)
    · exact absurd h (hsg a b)
  · rcases n with b | b
    · exact absurd h.symm (hsg b a)
    · rw [decimal_negSucc, decimal_negSucc] at h
      have hab := decimal_natCast_inj (List.cons.inj h).2
      rw [Nat.succ.inj hab]

/-- A sign and digits: no other byte is in a decimal. -/
theorem notMem_decimal {b : UInt8} (n : ℤ) (hdg : isDigit b = false := by decide) (hsg : b ≠ 45 := by decide) :
    b ∉ decimal n := by
  have hnt : ∀ a : ℕ, b ∉ decimal a := fun a h => by
    rw [isDigit_of_mem_decimal h] at hdg
    exact absurd hdg (by decide)
  rcases n with a | a
  · exact hnt a
  · rw [decimal_negSucc]
    exact not_mem_cons_of_ne_of_not_mem hsg (hnt _)

/-! ## Texts with their lengths -/

/-- A text after its length, as a decimal, and a colon. -/
def lengthPrefixed (s : Bytes) : Bytes := decimal s.length ++ ascii ":" ++ s

variable {s : Bytes}

/-- A number ends at the colon. -/
theorem decimal_colon_inj {m n : ℕ} {t : Bytes} (h : decimal m ++ ascii ":" ++ s = decimal n ++ ascii ":" ++ t) :
    m = n ∧ s = t := by
  have hsp : ∀ k u, (decimal k ++ ascii ":" ++ u).takeWhile (· ≠ 58) = decimal k := by
    intro k u
    have hne : ∀ b ∈ decimal k, decide (b ≠ 58) = true := fun b hb =>
      decide_eq_true (ne_of_mem_of_not_mem hb (notMem_decimal _))
    rw [append_assoc, takeWhile_append_of_pos hne]
    simp [ascii]
  have hmn := congrArg (List.takeWhile (· ≠ 58)) h
  rw [hsp, hsp] at hmn
  rw [hmn] at h
  exact ⟨decimal_natCast_inj hmn, append_cancel_left h⟩

/-- It says where it ends. -/
theorem lengthPrefixed_append_inj {s' t t' : Bytes} (h : lengthPrefixed s ++ t = lengthPrefixed s' ++ t') :
    s = s' ∧ t = t' := by
  rw [lengthPrefixed, lengthPrefixed, append_assoc, append_assoc _ s'] at h
  obtain ⟨hlen, hrs⟩ := decimal_colon_inj h
  exact append_inj hrs hlen

theorem flatMap_lengthPrefixed_inj {ls ls' : List Bytes}
    (h : ls.flatMap lengthPrefixed = ls'.flatMap lengthPrefixed) : ls = ls' := by
  have hne : ∀ s, lengthPrefixed s ≠ [] := fun s => by simp [lengthPrefixed, ascii]
  induction ls generalizing ls' with
  | nil =>
    rcases ls' with _ | ⟨s', ls'⟩
    · rfl
    · exact absurd (append_eq_nil_iff.1 h.symm).1 (hne s')
  | cons s ls ih =>
    rcases ls' with _ | ⟨s', ls'⟩
    · exact absurd (append_eq_nil_iff.1 h).1 (hne s)
    · obtain ⟨rfl, hrs⟩ := lengthPrefixed_append_inj h
      rw [ih hrs]

/-- A line `key=value`, split at the first `=`. -/
def splitField (line : Bytes) : Option (Bytes × Bytes) :=
  match line.dropWhile (· ≠ 61) with
  | [] => none
  | _ :: v => some (line.takeWhile (· ≠ 61), v)

/-- The fields of a text, line by line; a line without `=` is skipped. -/
def fields (body : Bytes) : List (Bytes × Bytes) := (body.splitOn 10).filterMap splitField

/-- The text before and after the first `c`. -/
def splitFirst (c : UInt8) (s : Bytes) : Option (Bytes × Bytes) :=
  match s.dropWhile (· ≠ c) with
  | [] => none
  | _ :: v => some (s.takeWhile (· ≠ c), v)

theorem splitFirst_append {c : UInt8} (h : c ∉ s) (t : Bytes) : splitFirst c (s ++ c :: t) = some (s, t) := by
  have hne : ∀ b ∈ s, decide (b ≠ c) = true := fun b hb => by
    rw [decide_eq_true_iff]
    rintro rfl
    exact h hb
  rw [splitFirst, dropWhile_append_of_pos hne, takeWhile_append_of_pos hne]
  simp

/-- The field of a line is read back if there is no `=` in its key. -/
theorem splitField_line {k : Bytes} (hk : (61 : UInt8) ∉ k) (v : Bytes) :
    splitField (k ++ 61 :: v) = some (k, v) := splitFirst_append hk v

/-- A text of fields, one in a line, is read back. -/
theorem fields_joined {kvs : List (Bytes × Bytes)}
    (hk : ∀ kv ∈ kvs, (61 : UInt8) ∉ kv.1 ∧ (10 : UInt8) ∉ kv.1 ∧ (10 : UInt8) ∉ kv.2) :
    fields (joined 10 (kvs.map fun kv => kv.1 ++ 61 :: kv.2)) = kvs := by
  rw [fields, splitOn_joined, filterMap_append, flatMap_map, filterMap_flatMap]
  -- the end of the text is an empty line
  rw [show [[]].filterMap splitField = [] from rfl, append_nil]
  calc kvs.flatMap (fun kv => ((kv.1 ++ 61 :: kv.2).splitOn 10).filterMap splitField)
      = kvs.flatMap ([·]) := flatMap_congr fun kv hkv => by
        obtain ⟨hsep, hkey, hval⟩ := hk kv hkv
        have hln : 10 ∉ kv.1 ++ 61 :: kv.2 := by simp [hkey, hval]
        rw [splitOn_eq_singleton hln, filterMap_cons, splitField_line hsep, filterMap_nil]
    _ = kvs := flatMap_singleton' kvs

/-! ## Searching a text -/

/-- A text without a `c` is not found across one. -/
theorem prefix_append_cons_iff {c : UInt8} {key : Bytes} (hc : c ∉ key) (a b : Bytes) :
    key <+: a ++ c :: b ↔ key <+: a := by
  refine ⟨fun h => ?_, fun h => h.trans (prefix_append a _)⟩
  rcases prefix_or_prefix_of_prefix h (prefix_append a _) with h' | ⟨_ | ⟨x, q⟩, rfl⟩
  · exact h'
  · rw [append_nil]
  obtain ⟨rfl, -⟩ := cons_prefix_cons.1 ((prefix_append_right_inj a).1 h)
  exact absurd (mem_append_right a mem_cons_self) hc

theorem infix_append_cons_iff {c : UInt8} {key : Bytes} (hc : c ∉ key) (a b : Bytes) :
    key <:+: a ++ c :: b ↔ key <:+: a ∨ key <:+: b := by
  induction a with
  | nil => rw [nil_append, infix_cons_iff, ← nil_append (c :: b), prefix_append_cons_iff hc, prefix_nil, infix_nil]
  | cons x a ih =>
    rw [cons_append, infix_cons_iff, ← cons_append, prefix_append_cons_iff hc, infix_cons_iff, or_assoc]
    exact or_congr_right ih

/-- The text before and after the last `c`. -/
def splitLast (c : UInt8) (s : Bytes) : Option (Bytes × Bytes) :=
  (splitFirst c s.reverse).map fun x => (x.2.reverse, x.1.reverse)

theorem splitFirst_eq_some {c : UInt8} {a b : Bytes} (h : splitFirst c s = some (a, b)) : s = a ++ c :: b := by
  rw [splitFirst] at h
  split at h
  · cases h
  next x rest hdrop =>
  obtain ⟨rfl, rfl⟩ := Prod.mk.inj (Option.some.inj h)
  -- what stopped the search is `c`
  have hx : x = c := by
    have hstop := head_dropWhile_not (· ≠ c) (by rw [hdrop]; exact cons_ne_nil x rest)
    simp only [hdrop, head_cons] at hstop
    simpa using hstop
  rw [← hx, ← hdrop, hx, takeWhile_append_dropWhile]

theorem splitLast_eq_some {c : UInt8} {a b : Bytes} (h : splitLast c s = some (a, b)) : s = a ++ c :: b := by
  rw [splitLast] at h
  obtain ⟨⟨x, y⟩, hxy, hab⟩ := Option.map_eq_some_iff.1 h
  cases hab
  have hrv := congrArg List.reverse (splitFirst_eq_some hxy)
  rw [reverse_reverse, reverse_append, reverse_cons, append_assoc] at hrv
  exact hrv

def startsWith (s p : Bytes) : Bool := p.isPrefixOf s

def endsWith (s p : Bytes) : Bool := p.isSuffixOf s

/-- The text in lower case; only ASCII letters have one. -/
def lower (s : Bytes) : Bytes := s.map fun b => if 65 ≤ b ∧ b ≤ 90 then b + 32 else b

variable {p : Bytes}

theorem startsWith_iff : startsWith s p = true ↔ p <+: s := isPrefixOf_iff_prefix

theorem startsWith_append (h : startsWith s p = true) (t : Bytes) : startsWith (s ++ t) p = true :=
  startsWith_iff.2 ((startsWith_iff.1 h).trans (prefix_append s t))

theorem lower_append (s t : Bytes) : lower (s ++ t) = lower s ++ lower t := map_append

/-- A text that starts as one in lower case does so in lower case. -/
theorem startsWith_lower (hp : lower p = p) (h : startsWith s p = true) : startsWith (lower s) p = true := by
  obtain ⟨t, rfl⟩ := startsWith_iff.1 h
  rw [lower_append, hp]
  exact startsWith_iff.2 (prefix_append p _)

/-- A text does not start in two ways, if neither continues the other. -/
theorem startsWith_unique {q : Bytes} (h : startsWith s p = true) (hpq : startsWith q p = false)
    (hqp : startsWith p q = false) : startsWith s q = false := by
  by_contra hs
  rw [Bool.not_eq_false] at hs
  -- both are beginnings of one text, so one of them begins the other
  rcases prefix_or_prefix_of_prefix (startsWith_iff.1 h) (startsWith_iff.1 hs) with hle | hle
  · rw [startsWith_iff.2 hle] at hpq
    cases hpq
  · rw [startsWith_iff.2 hle] at hqp
    cases hqp

end Vgi
