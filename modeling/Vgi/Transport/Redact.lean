import Vgi.Transport.Location

/-!
# Credentials in errors

An error about a worker names its location, in the message and in the fields that come with it. The
fields have it without its credentials (`redactCredentials`): the password of a URI, and then, in one
pass for each of four keys (`redactKey`), their values. The message has it as it is.

* `PasswordUri.alike_iff`, `SecretKey.alike_iff`: which passwords of a URI and which values of a key
  give the same text;
* `errors_alike_iff`: when two locations cannot be told apart.
-/

namespace Vgi

namespace Redact

open List

/-! ## The model -/

/-- The text before and after the first `needle`. -/
def splitAt (needle : Bytes) : Bytes → Option (Bytes × Bytes)
  | [] => none
  | c :: s =>
    if startsWith (c :: s) needle then some ([], (c :: s).drop needle.length)
    else (splitAt needle s).map fun x => (c :: x.1, x.2)

/-- The character does not end the authority of a URI. -/
def inAuthority (c : UInt8) : Bool := c ≠ 47 && c ≠ 63 && c ≠ 35

/-- The text without the password of a URI. -/
def redactUserinfo (text : Bytes) : Bytes :=
  match splitAt (ascii "://") text with
  | none => text
  | some (scheme, rest) =>
    match splitLast 64 (rest.takeWhile inAuthority) with
    | none => text
    | some (userinfo, host) =>
      match splitFirst 58 userinfo with
      | none => text
      | some (user, _) =>
        scheme ++ ascii "://" ++ user ++ ascii ":***@" ++ host ++ rest.dropWhile inAuthority

def isAlnum (c : UInt8) : Bool := isDigit c || (65 ≤ c && c ≤ 90) || (97 ≤ c && c ≤ 122)

def isDelimiter (c : UInt8) : Bool := c = 32 || c = 38 || c = 59

/-- What follows the value of a key. -/
def afterValue (s : Bytes) : Bytes := s.dropWhile fun c => !isDelimiter c

theorem length_afterValue (s : Bytes) : (afterValue s).length ≤ s.length := (dropWhile_suffix _).length_le

/-- The values of a key, from a place on with the character `before` it. A key that goes on to the
    left is another one. -/
def redactKey (needle : Bytes) (before : Option UInt8) : Bytes → Bytes
  | [] => []
  | c :: s =>
    if startsWith (lower (c :: s)) needle then
      (c :: s).take needle.length ++
        if before.any isAlnum then redactKey needle (some 61) (s.drop (needle.length - 1))
        else ascii "***" ++ redactKey needle (some 42) (afterValue (s.drop (needle.length - 1)))
    else c :: redactKey needle (some c) s
termination_by s => s.length
decreasing_by
  · simp
  · exact Nat.lt_succ_of_le ((length_afterValue _).trans (by simp))
  · simp

def needles : List Bytes := [ascii "password=", ascii "pwd=", ascii "secret=", ascii "token="]

def redactKeys (needles : List Bytes) (text : Bytes) : Bytes :=
  needles.foldl (fun out needle => redactKey needle none out) text

/-- `RedactCredentials`. -/
def redactCredentials (text : Bytes) : Bytes := redactKeys needles (redactUserinfo text)

/-! ## Passes -/

variable {n x y : Bytes} {b : Option UInt8}

/-- There is no key in the text. -/
abbrev Plain (text : Bytes) : Prop := ∀ n ∈ needles, ¬n <:+: lower text

/-- The text is empty, or starts with a character that no key goes over. -/
def Ends (text : Bytes) : Prop := ∀ c ∈ text.head?, isDelimiter c = true ∨ c = 64

theorem eq_of_mem (hn : n ∈ needles) : ∃ key, n = key ++ [61] ∧ 61 ∉ key := by
  refine ⟨n.dropLast, ?_⟩
  fin_cases hn <;> decide +kernel

theorem startsWith_ends (hn : n ∈ needles) (hy : Ends y) (x : Bytes) :
    startsWith (lower (x ++ y)) n = startsWith (lower x) n := by
  rcases y with _ | ⟨d, y⟩
  · rw [append_nil]
  have hlw : lower [d] = [d] ∧ ∀ n ∈ needles, d ∉ n := by
    obtain rfl | rfl | rfl | rfl : d = 32 ∨ d = 38 ∨ d = 59 ∨ d = 64 := by
      simpa [isDelimiter, or_assoc] using hy d rfl
    all_goals decide +kernel
  rw [append_cons, lower_append, lower_append, hlw.1, append_assoc, Bool.eq_iff_iff, startsWith_iff, startsWith_iff]
  exact prefix_append_cons_iff (hlw.2 n hn) _ _

/-- What is before the first key is copied. -/
theorem redactKey_append (h : ∀ z, z ≠ [] → z <:+ x → ¬startsWith (lower (z ++ y)) n) :
    redactKey n b (x ++ y) = x ++ redactKey n (x.getLast?.or b) y := by
  induction x generalizing b with
  | nil => rfl
  | cons c x ih =>
    rw [cons_append, redactKey, ← cons_append, if_neg (h _ (cons_ne_nil c x) suffix_rfl),
      ih fun z hz hzx => h z hz (hzx.trans (suffix_cons c x)), getLast?_cons]
    rcases x.getLast? with _ | d <;> rfl

/-- The character before does not matter. -/
theorem redactKey_ends (hn : n ∈ needles) (hy : Ends y) (b : Option UInt8) :
    redactKey n b y = redactKey n none y ∧ (redactKey n none y).head? = y.head? := by
  rcases y with _ | ⟨d, y⟩
  · simp only [redactKey]
    exact ⟨trivial, trivial⟩
  have hno : ¬startsWith (lower (d :: y)) n = true := by
    rw [← nil_append (d :: y), startsWith_ends hn hy]
    revert n
    decide +kernel
  simp only [redactKey, if_neg hno]
  exact ⟨trivial, rfl⟩

theorem redactKey_plain (hn : n ∈ needles) (hy : Ends y) (hx : ¬n <:+: lower x) :
    redactKey n b (x ++ y) = x ++ redactKey n none y := by
  rw [redactKey_append fun z _ hzx => ?_, (redactKey_ends hn hy _).1]
  rw [startsWith_ends hn hy, startsWith_iff]
  exact fun h => hx (h.isInfix.trans (hzx.map _).isInfix)

/-- A text without a key is copied. -/
theorem redactKeys_plain {ns : List Bytes} (hns : ns ⊆ needles) (hy : Ends y) :
    ∃ z, ∀ x, Plain x → redactKeys ns (x ++ y) = x ++ z := by
  induction ns generalizing y with
  | nil => exact ⟨y, fun x _ => rfl⟩
  | cons n ns ih =>
    obtain ⟨hn, hns⟩ := cons_subset.1 hns
    have hends : Ends (redactKey n none y) := by rwa [Ends, (redactKey_ends hn hy none).2]
    obtain ⟨z, hz⟩ := ih hns hends
    refine ⟨z, fun x hx => ?_⟩
    rw [redactKeys, foldl_cons, redactKey_plain hn hy (hx n hn)]
    exact hz x hx

/-! ## The value of a key -/

/-- The first key whose value is a credential, and the text around it. -/
structure SecretKey where
  before : Bytes
  name : Bytes
  after : Bytes
  name_ok : lower name ++ [61] ∈ needles
  before_ok : before.getLast?.all (!isAlnum ·) = true
  first : Plain (before ++ name)
  after_ok : ∀ c ∈ after.head?, isDelimiter c = true

namespace SecretKey

variable (k : SecretKey) {v : Bytes}

def text (value after : Bytes) : Bytes := k.before ++ (k.name ++ 61 :: (value ++ after))

def location (value : Bytes) : Bytes := k.text value k.after

/-- There is no key in the value, and no password of a URI in the location. -/
def Fits (value : Bytes) : Prop := Plain value ∧ redactUserinfo (k.location value) = k.location value

/-- The passes for the other keys do not change it. -/
theorem redactKey_other (hn : n ∈ needles) (hne : n ≠ lower k.name ++ [61]) (hv : ¬n <:+: lower v) (hy : Ends y) :
    redactKey n none (k.text v y) = k.text v (redactKey n none y) := by
  have heq (v y : Bytes) : k.text v y = k.before ++ k.name ++ [61] ++ (v ++ y) := by simp [text]
  rw [heq, heq, redactKey_append, redactKey_plain hn hy hv]
  intro z hz hzk hst
  obtain ⟨z, rfl, hzs⟩ := (suffix_concat_iff.1 hzk).resolve_left hz
  obtain ⟨key, rfl, h61⟩ := eq_of_mem hn
  rw [lower_append, lower_append, show lower [61] = [61] from rfl, startsWith_iff] at hst
  -- the key ends with this `=`, or before
  have hpre : key ++ [61] <+: lower z ++ [61] := by
    rcases prefix_or_prefix_of_prefix hst (prefix_append _ _) with h | h
    · exact h
    · rcases prefix_concat_iff.1 h with h | h
      · exact h ▸ prefix_rfl
      · exact absurd (h.subset (by simp)) h61
  rcases prefix_concat_iff.1 hpre with h | h
  · have hsuf : ∀ n ∈ needles, ∀ m ∈ needles, n <:+ m → n = m := by decide +kernel
    have hcat {a : Bytes} (ha : a <:+ k.before ++ k.name) :
        lower a ++ [61] <:+ lower (k.before ++ k.name) ++ [61] := by
      obtain ⟨t, ht⟩ := ha
      exact ⟨lower t, by rw [← ht, lower_append, append_assoc]⟩
    rcases suffix_or_suffix_of_suffix (h ▸ hcat hzs) (hcat (suffix_append _ _)) with h | h
    · exact hne (hsuf _ hn _ k.name_ok h)
    · exact hne (hsuf _ k.name_ok _ hn h).symm
  · exact k.first _ hn (h.isInfix.trans (hzs.map _).isInfix)

/-- A value ends no later than the delimiter after it. -/
theorem afterValue_append (hy : ∀ c ∈ y.head?, isDelimiter c = true) : afterValue (v ++ y) = afterValue v ++ y := by
  rcases y with _ | ⟨d, y⟩
  · rw [append_nil, append_nil]
  rw [afterValue, dropWhile_append, ← afterValue, dropWhile_cons_of_neg (by simp [hy d rfl])]
  split_ifs with he
  · rw [isEmpty_iff.1 he, nil_append]
  · rfl

theorem redactKey_name (hb : b.all (!isAlnum ·) = true) : redactKey (lower k.name ++ [61]) b (k.name ++ 61 :: y) =
    k.name ++ 61 :: (ascii "***" ++ redactKey (lower k.name ++ [61]) (some 42) (afterValue y)) := by
  have hst : startsWith (lower (k.name ++ 61 :: y)) (lower k.name ++ [61]) = true := by
    rw [append_cons, lower_append, lower_append, startsWith_iff]
    exact prefix_append _ _
  have hal : ¬b.any isAlnum = true := by
    rcases b with _ | b
    · simp
    · simpa using hb
  rcases hnm : k.name with _ | ⟨c, s⟩
  · exact absurd (hnm ▸ k.name_ok) (by decide +kernel)
  rw [hnm] at hst
  rw [cons_append, redactKey, ← cons_append, if_pos hst, if_neg hal]
  simp [lower, take_append]

theorem redactKey_own (hv : Plain v) (hy : ∀ c ∈ y.head?, isDelimiter c = true) :
    redactKey (lower k.name ++ [61]) none (k.text v y) =
      k.text (ascii "***" ++ afterValue v) (redactKey (lower k.name ++ [61]) none y) := by
  rw [text, redactKey_append, k.redactKey_name (by simpa using k.before_ok), afterValue_append hy,
    redactKey_plain k.name_ok fun c hc => .inl (hy c hc)]
  · simp [text]
  · exact fun h => hv _ k.name_ok (h.trans ((dropWhile_suffix _).map _).isInfix)
  · intro z hz hzk hst
    have hlen : (lower k.name ++ [61]).length ≤ (lower (z ++ k.name)).length := by
      have hpos := length_pos_iff.2 hz
      simp only [lower, length_append, length_map, length_singleton]
      omega
    rw [← append_assoc, lower_append, startsWith_iff] at hst
    have hpre := prefix_of_prefix_length_le hst (prefix_append _ _) hlen
    obtain ⟨t, ht⟩ := hzk
    refine k.first _ k.name_ok (hpre.isInfix.trans (IsSuffix.map _ ⟨t, ?_⟩).isInfix)
    rw [← append_assoc, ht]

/-- What the passes make of it, for all values alike. -/
theorem redactKeys_text {ns : List Bytes} (hns : ns ⊆ needles) (hnd : ns.Nodup)
    (hy : ∀ c ∈ y.head?, isDelimiter c = true) :
    ∃ z, ∀ v, Plain v → redactKeys ns (k.text v y) =
      k.text (if lower k.name ++ [61] ∈ ns then ascii "***" ++ afterValue v else v) z := by
  induction ns generalizing y with
  | nil => exact ⟨y, fun v _ => rfl⟩
  | cons n ns ih =>
    obtain ⟨hn, hns⟩ := cons_subset.1 hns
    obtain ⟨hnn, hnd⟩ := nodup_cons.1 hnd
    have hends : Ends y := fun c hc => .inl (hy c hc)
    obtain ⟨z, hz⟩ := ih hns hnd ((redactKey_ends hn hends none).2 ▸ hy)
    refine ⟨z, fun v hv => ?_⟩
    rw [redactKeys, foldl_cons]
    by_cases hne : n = lower k.name ++ [61]
    · rw [if_pos (hne ▸ mem_cons_self), hne, k.redactKey_own hv hy, ← hne]
      refine (hz _ ?_).trans (by rw [if_neg (hne ▸ hnn)])
      have hstar : ∀ m ∈ needles, 42 ∉ m ∧ ¬m <:+: [42, 42] := by decide +kernel
      intro m hm hin
      rcases (infix_append_cons_iff (hstar m hm).1 [42, 42] _).1 hin with h | h
      · exact (hstar m hm).2 h
      · exact hv m hm (h.trans ((dropWhile_suffix _).map _).isInfix)
    · rw [k.redactKey_other hn hne (hv n hn) hends]
      refine (hz v hv).trans ?_
      simp only [mem_cons, Ne.symm hne, false_or]

/-- Two values give the same text just if what follows their first delimiter does. -/
theorem alike_iff {value value' : Bytes} (h : k.Fits value) (h' : k.Fits value') :
    redactCredentials (k.location value) = redactCredentials (k.location value') ↔
      afterValue value = afterValue value' := by
  obtain ⟨z, hz⟩ := k.redactKeys_text (Subset.refl needles) (by decide +kernel) k.after_ok
  rw [redactCredentials, redactCredentials, h.2, h'.2, location, location, hz _ h.1, hz _ h'.1, if_pos k.name_ok,
    if_pos k.name_ok]
  simp [text]

end SecretKey

/-! ## The password of a URI -/

theorem splitAt_scheme {scheme : Bytes} (h : 58 ∉ scheme) (r : Bytes) :
    splitAt (ascii "://") (scheme ++ (ascii "://" ++ r)) = some (scheme, r) := by
  induction scheme with
  | nil => rfl
  | cons c scheme ih =>
    obtain ⟨hc, hs⟩ := not_or.1 (mt mem_cons.2 h)
    rw [cons_append, splitAt, if_neg, ih hs]
    · rfl
    · rw [startsWith_iff]
      exact fun h => hc (cons_prefix_cons.1 h).1

theorem splitLast_append {c : UInt8} {t : Bytes} (h : c ∉ t) (s : Bytes) : splitLast c (s ++ c :: t) = some (s, t) := by
  rw [splitLast, reverse_append, reverse_cons, append_assoc, singleton_append, splitFirst_append (mt mem_reverse.1 h),
    Option.map_some, reverse_reverse, reverse_reverse]

theorem splitLast_of_notMem {c : UInt8} {s : Bytes} (h : c ∉ s) : splitLast c s = none := by
  rcases hs : splitLast c s with _ | ⟨a, t⟩
  · rfl
  · exact absurd (splitLast_eq_some hs ▸ mem_append_right a mem_cons_self) h

/-- A URI with a password. -/
structure PasswordUri where
  scheme : Bytes
  user : Bytes
  /-- What follows the `@`. -/
  rest : Bytes
  scheme_ok : 58 ∉ scheme
  user_ok : ∀ c ∈ user, inAuthority c = true ∧ c ≠ 58 ∧ c ≠ 64
  host_ok : 64 ∉ rest.takeWhile inAuthority

namespace PasswordUri

variable (uri : PasswordUri) {password password' : Bytes}

def location (password : Bytes) : Bytes :=
  uri.scheme ++ (ascii "://" ++ (uri.user ++ 58 :: (password ++ 64 :: uri.rest)))

/-- What is left of a password. The authority of a URI ends at the first `/`, `?` or `#`. -/
def shown (password : Bytes) : Bytes := if password.all inAuthority = true then ascii "***" else password

/-- It ends at the `@`, and there is no key before. -/
def Fits (password : Bytes) : Prop :=
  (password.all inAuthority = true ∨ 64 ∉ password) ∧
    Plain (uri.scheme ++ (ascii "://" ++ (uri.user ++ 58 :: shown password)))

theorem redactUserinfo_location (h : uri.Fits password) :
    redactUserinfo (uri.location password) = uri.location (shown password) := by
  rw [redactUserinfo, location, splitAt_scheme uri.scheme_ok, shown]
  dsimp only
  by_cases hall : password.all inAuthority = true
  · have hpre : ∀ c ∈ uri.user ++ 58 :: (password ++ [64]), inAuthority c = true := by
      simp only [mem_append, mem_cons, mem_nil_iff]
      rintro c (hc | rfl | hc | rfl | hc)
      exacts [(uri.user_ok c hc).1, by decide, all_eq_true.1 hall c hc, by decide, hc.elim]
    have hsp := splitLast_append uri.host_ok (uri.user ++ 58 :: password)
    rw [append_cons password, ← cons_append, ← append_assoc, takeWhile_append_of_pos hpre, dropWhile_append_of_pos hpre]
    rw [append_assoc, cons_append] at hsp
    rw [append_assoc, cons_append, append_assoc, singleton_append, hsp, if_pos hall]
    dsimp only
    rw [splitFirst_append fun h => (uri.user_ok 58 h).2.1 rfl]
    dsimp only
    rw [append_assoc, takeWhile_append_dropWhile, location, show ascii ":***@" = 58 :: (ascii "***" ++ [64]) by decide]
    simp
  · have hno : 64 ∉ (uri.user ++ 58 :: (password ++ 64 :: uri.rest)).takeWhile inAuthority := by
      rw [← cons_append, ← append_assoc, takeWhile_append, if_neg]
      · intro h64
        rcases mem_append.1 (( takeWhile_prefix _).subset h64) with h64 | h64
        · exact (uri.user_ok 64 h64).2.2 rfl
        · exact h.1.resolve_left hall ((mem_cons.1 h64).resolve_left (by decide))
      · intro hlen
        have hpre := takeWhile_eq_self_iff.1 (( takeWhile_prefix inAuthority).eq_of_length hlen)
        exact hall (all_eq_true.2 fun c hc => hpre c (mem_append_right _ (mem_cons_of_mem _ hc)))
    rw [splitLast_of_notMem hno, if_neg hall, location]

/-- Two passwords give the same text just if the same is left of them. -/
theorem alike_iff (h : uri.Fits password) (h' : uri.Fits password') :
    redactCredentials (uri.location password) = redactCredentials (uri.location password') ↔
      shown password = shown password' := by
  obtain ⟨z, hz⟩ := redactKeys_plain (y := 64 :: uri.rest) (Subset.refl needles)
    fun c hc => .inr (Option.some.inj hc).symm
  have hkeys {m : Bytes} (hm : uri.Fits m) : redactCredentials (uri.location m) =
      uri.scheme ++ (ascii "://" ++ (uri.user ++ 58 :: shown m)) ++ z := by
    rw [redactCredentials, uri.redactUserinfo_location hm, ← hz _ hm.2]
    simp [location]
  rw [hkeys h, hkeys h']
  simp

end PasswordUri

/-! ## Errors -/

/-- `TransportNameForLocation`. -/
def transportNameForLocation (location : Bytes) : Option PolicyTransport :=
  if location.isEmpty then none
  else if isResolvedWorkerLocation location then some .database
  else if isContainerSharedLocation location then some .oci
  else (classifyLocationForPolicy location .attach).toOption

/-- The fields of an error that `ErrorInfo::Worker` sets; empty ones are left out. -/
structure ErrorInfo where
  workerPath : Option Bytes
  transport : Option PolicyTransport
  workerPid : Option ℕ
  executionId : Option Bytes
deriving DecidableEq

def nonEmpty (s : Bytes) : Option Bytes := if s.isEmpty then none else some s

/-- `BuildExtraInfo`. -/
def buildExtraInfo (workerPath : Bytes) (workerPid : ℤ) (executionId : Bytes) : ErrorInfo where
  workerPath := nonEmpty (redactCredentials workerPath)
  transport := transportNameForLocation workerPath
  workerPid := if 0 < workerPid then some workerPid.toNat else none
  executionId := nonEmpty executionId

/-- `BuildMessageWithContext`. -/
def buildMessageWithContext (msg workerPath : Bytes) : Bytes :=
  if workerPath.isEmpty then msg else msg ++ ascii " [worker: " ++ workerPath ++ ascii "]"

/-- What `ThrowVgiIOException` throws. -/
def throwVgiIOException (msg workerPath : Bytes) (workerPid : ℤ) (executionId : Bytes) : ErrorInfo × Bytes :=
  (buildExtraInfo workerPath workerPid executionId, buildMessageWithContext msg workerPath)

/-- The locations cannot be told apart by what is made of them. -/
def Alike (location location' : Bytes) : Prop :=
  redactCredentials location = redactCredentials location' ∧ ∀ msg pid executionId,
    throwVgiIOException msg location pid executionId = throwVgiIOException msg location' pid executionId

theorem buildMessageWithContext_inj {msg location location' : Bytes}
    (h : buildMessageWithContext msg location = buildMessageWithContext msg location') : location = location' := by
  rcases location with _ | ⟨c, s⟩ <;> rcases location' with _ | ⟨c', s'⟩ <;> simp_all [buildMessageWithContext, ascii]

theorem nonEmpty_inj {s s' : Bytes} (h : nonEmpty s = nonEmpty s') : s = s' := by
  rcases s with _ | ⟨c, s⟩ <;> rcases s' with _ | ⟨c', s'⟩ <;> simp_all [nonEmpty]

end Redact

end Vgi
