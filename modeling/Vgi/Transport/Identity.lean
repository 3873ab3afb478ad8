import Vgi.Cache.Key
import Vgi.Lib.Delimited

/-!
# The identity of a launched worker

A launcher shares a worker among the sessions that would start it alike: with one command, in one
directory, with one set of variables. These are written as one JSON text, whose digest names the worker.
The text tells them apart (`buildCanonicalJson_inj`): strings, escaped, end at their closing quote, and
the array and the object at a bracket no string begins with.
-/

namespace Vgi

open List Delimits

def hexDigit (d : ℕ) : UInt8 := .ofNat (if d < 10 then 48 + d else 87 + d)

def escapeByte (c : UInt8) : Bytes :=
  match c with
  | 34 | 92 => [92, c]
  | 8 => ascii "\\b"
  | 12 => ascii "\\f"
  | 10 => ascii "\\n"
  | 13 => ascii "\\r"
  | 9 => ascii "\\t"
  | _ => if c < 0x20 then ascii "\\u00" ++ [hexDigit (c.toNat / 16), hexDigit (c.toNat % 16)] else [c]

def encodeJsonString (s : Bytes) : Bytes := [34] ++ (s.flatMap escapeByte ++ [34])

def encodeJsonEntry (kv : Bytes × Bytes) : Bytes := encodeJsonString kv.1 ++ ([58] ++ encodeJsonString kv.2)

/-- `BuildCanonicalJson`: the text that identifies a worker that is launched. -/
def buildCanonicalJson (argv : List Bytes) (cwd : Bytes) (env : StringMap Bytes) : Bytes :=
  (ascii "\x7b\"cmd\":[" ++ ([44].intercalate (argv.map encodeJsonString) ++ [93])) ++
    (ascii ",\"cwd\":" ++ encodeJsonString cwd) ++
    (ascii ",\"env\":\x7b" ++ ([44].intercalate (env.entries.map encodeJsonEntry) ++ [125])) ++ [125]

/-- The bytes that are not written as they are. -/
def escaped : List ℕ := 34 :: 92 :: range 32

theorem head?_escapeByte : ∀ c, (escapeByte c).head? = some (if c.toNat ∈ escaped then 92 else c) := by
  decide +kernel

theorem escaped_prefixFree : ∀ m ∈ escaped, ∀ n ∈ escaped, escapeByte (.ofNat m) <+: escapeByte (.ofNat n) → m = n := by
  decide +kernel

theorem delimits_escapeByte : Delimits escapeByte := by
  refine of_prefixFree fun c c' hpre => ?_
  obtain ⟨s, hs⟩ := id hpre
  have hhd := congrArg head? hs
  rw [head?_append, head?_escapeByte, head?_escapeByte, Option.some_or, Option.some_inj] at hhd
  split_ifs at hhd with hc hc' hc'
  · rw [← c.ofNat_toNat, ← c'.ofNat_toNat] at hpre
    exact UInt8.toNat_inj.1 (escaped_prefixFree _ hc _ hc' hpre)
  · exact absurd (hhd ▸ by decide) hc'
  · exact absurd (hhd ▸ by decide) hc
  · exact hhd

theorem delimits_encodeJsonString : Delimits encodeJsonString := by
  refine (delimits_escapeByte.closed fun c t t' heq => ?_).after [34]
  have hhd := congrArg head? heq
  rw [head?_append, head?_escapeByte, Option.some_or, head?_cons, Option.some_inj] at hhd
  split_ifs at hhd with hc
  · exact absurd hhd (by decide)
  · exact hc (hhd ▸ by decide)

/-- Texts are equal only for equal launches. -/
theorem buildCanonicalJson_inj {argv argv' : List Bytes} {cwd cwd' : Bytes} {env env' : StringMap Bytes} :
    buildCanonicalJson argv cwd env = buildCanonicalJson argv' cwd' env' ↔
      argv = argv' ∧ cwd = cwd' ∧ env = env' := by
  constructor
  · intro h
    have hs := delimits_encodeJsonString
    have har := hs.separated (c := 44) (z := 93) (by decide) fun _ _ _ h => nomatch (cons.inj h).1
    have hen := (hs.prod (hs.after [58])).separated (c := 44) (z := 125) (by decide)
      fun _ _ _ h => nomatch (cons.inj h).1
    have hall := ((har.after (ascii "\x7b\"cmd\":[")).prod (hs.after (ascii ",\"cwd\":"))).prod
      (hen.after (ascii ",\"env\":\x7b"))
    obtain ⟨heq, -⟩ := @hall ((argv, cwd), env.entries) ((argv', cwd'), env'.entries) [125] [125] h
    simp only [Prod.mk.injEq] at heq
    exact ⟨heq.1.1, heq.1.2, StringMap.ext_entries heq.2⟩
  · rintro ⟨rfl, rfl, rfl⟩
    rfl

end Vgi
