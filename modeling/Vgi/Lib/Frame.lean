import Vgi.Lib.Bytes

/-!
# Framed bytes

Numbers as little-endian bytes (`putLE`, `getLE`), and readers that move through a
buffer (`Cursor`): a reader is given the buffer and a position, and returns what it
reads and the position after it, or nothing if the buffer ends too early.

* `Reads c b a`: wherever the bytes `b` stand in a buffer, `c` reads `a` from them.
  What is written piece by piece is read piece by piece (`Reads.bind`).
* `Cut c`: what `c` reads from the first bytes of a buffer it reads from the whole
  buffer. So bytes that end within what is read are not read at all.
* `Spans c W`: what `c` reads is related by `W` to the bytes that it reads it from.
-/

namespace Vgi

open List Option

/-! ## Numbers -/

/-- The low `n` bytes of a number, the lowest one first. -/
def putLE : ℕ → ℕ → Bytes
  | 0, _ => []
  | n + 1, v => UInt8.ofNat v :: putLE n (v / 256)

/-- The number that the bytes write, the lowest one first. -/
def getLE : Bytes → ℕ
  | [] => 0
  | b :: bs => b.toNat + 256 * getLE bs

@[simp]
theorem length_putLE (n v : ℕ) : (putLE n v).length = n := by
  induction n generalizing v with
  | zero => rfl
  | succ n ih => rw [putLE, length_cons, ih]

variable {n : ℕ}

theorem getLE_putLE {v : ℕ} (h : v < 256 ^ n) : getLE (putLE n v) = v := by
  induction n generalizing v with
  | zero =>
    have hv : v < 1 := by simpa using h
    simp only [putLE, getLE]
    omega
  | succ n ih =>
    have hv : v / 256 < 256 ^ n := by
      rw [Nat.div_lt_iff_lt_mul (by norm_num)]
      rwa [pow_succ] at h
    rw [putLE, getLE, ih hv, UInt8.toNat_ofNat']
    have hsz : 2 ^ 8 = 256 := by norm_num
    rw [hsz]
    omega

theorem putLE_getLE (b : Bytes) : putLE b.length (getLE b) = b ∧ getLE b < 256 ^ b.length := by
  induction b with
  | nil => exact ⟨rfl, Nat.one_pos⟩
  | cons x b ih =>
    obtain ⟨hput, hlt⟩ := ih
    have hx := x.toNat_lt
    have hdv : (x.toNat + 256 * getLE b) / 256 = getLE b := by omega
    rw [length_cons, getLE, putLE, hdv, hput, pow_succ]
    refine ⟨congrArg (· :: b) ?_, by omega⟩
    rw [← UInt8.toNat_inj, UInt8.toNat_ofNat']
    omega

/-! ## Slices -/

/-- The `n` bytes from a position on, or those that are there. -/
def slice (b : Bytes) (pos n : ℕ) : Bytes := (b.drop pos).take n

theorem slice_append (pre b post : Bytes) : slice (pre ++ (b ++ post)) pre.length b.length = b := by
  rw [slice, drop_left, take_left]

variable {b : Bytes}

/-- A slice stays when bytes are added behind it. -/
theorem slice_append_of_le {post : Bytes} {pos : ℕ} (h : pos + n ≤ b.length) :
    slice (b ++ post) pos n = slice b pos n := by
  rw [slice, slice, drop_append_of_le_length (by omega), take_append_of_le_length]
  rw [length_drop]
  omega

theorem slice_take {m pos : ℕ} (h : pos + n ≤ m) : slice (b.take m) pos n = slice b pos n := by
  rw [slice, slice, drop_take, take_take, min_eq_left (by omega)]

theorem slice_add (b : Bytes) (pos m n : ℕ) : slice b pos (m + n) = slice b pos m ++ slice b (pos + m) n := by
  rw [slice, slice, slice, take_add, drop_drop]

theorem length_slice (b : Bytes) (pos n : ℕ) : (slice b pos n).length = min n (b.length - pos) := by
  rw [slice, length_take, length_drop]

/-! ## Cursors -/

/-- A reader: the buffer is fixed, the position moves. -/
abbrev Cursor := ReaderT Bytes (StateT ℕ Option)

namespace Cursor

variable {α β : Type}

theorem bind_eq (c : Cursor α) (f : α → Cursor β) (buf : Bytes) (pos : ℕ) :
    (c >>= f) buf pos = (c buf pos).bind fun ap => f ap.1 buf ap.2 := rfl

theorem map_eq (f : α → β) (c : Cursor α) (buf : Bytes) (pos : ℕ) :
    (f <$> c) buf pos = (c buf pos).map fun ap => (f ap.1, ap.2) := by
  change (c buf pos).bind _ = _
  cases c buf pos <;> rfl

/-- The next `n` bytes. -/
def bytes (n : ℕ) : Cursor Bytes := fun buf pos =>
  if pos + n ≤ buf.length then some (slice buf pos n, pos + n) else none

/-- The number that the next `n` bytes write. -/
def num (n : ℕ) : Cursor ℕ := getLE <$> bytes n

/-- These bytes come next. -/
def expect (b : Bytes) : Cursor Unit := do
  let b' ← bytes b.length
  if b' = b then pure () else failure

/-- A text, after its length in four bytes. -/
def text : Cursor Bytes := do
  let n ← num 4
  bytes n

/-! ## What was written is read -/

/-- Wherever the bytes `b` stand in a buffer, `a` is read from them. -/
def Reads (c : Cursor α) (b : Bytes) (a : α) : Prop :=
  ∀ pre post, c (pre ++ (b ++ post)) pre.length = some (a, pre.length + b.length)

variable {c : Cursor α} {a : α}

theorem Reads.bind {f : α → Cursor β} {b' : Bytes} {a' : β} (h : Reads c b a) (h' : Reads (f a) b' a') :
    Reads (c >>= f) (b ++ b') a' := by
  intro pre post
  have hf := h' (pre ++ b) post
  rw [length_append, append_assoc] at hf
  rw [bind_eq, append_assoc, h pre (b' ++ post), bind_some, hf, length_append, Nat.add_assoc]

theorem reads_bytes (b : Bytes) : Reads (bytes b.length) b b := by
  intro pre post
  rw [bytes, if_pos, slice_append]
  rw [length_append, length_append]
  omega

theorem Reads.map (h : Reads c b a) (f : α → β) : Reads (f <$> c) b (f a) := by
  intro pre post
  rw [map_eq, h pre post]
  rfl

theorem Reads.bind_pure (h : Reads c b a) (f : α → β) : Reads (c >>= fun a => pure (f a)) b (f a) := by
  intro pre post
  rw [bind_eq, h pre post]
  rfl

theorem reads_num {v : ℕ} (h : v < 256 ^ n) : Reads (num n) (putLE n v) v := by
  have hrd := (reads_bytes (putLE n v)).map getLE
  rwa [length_putLE, getLE_putLE h] at hrd

theorem reads_expect (b : Bytes) : Reads (expect b) b () := by
  intro pre post
  rw [expect, bind_eq, reads_bytes b pre post, bind_some, if_pos rfl]
  rfl

theorem reads_text (h : b.length < 2 ^ 32) : Reads text (putLE 4 b.length ++ b) b :=
  (reads_num (h.trans_eq (by norm_num))).bind (reads_bytes b)

/-! ## What is cut off is not read -/

/-- What is read from the first bytes of a buffer is read from all of it. -/
def Cut (c : Cursor α) : Prop :=
  ∀ ⦃buf m pos a pos'⦄, pos ≤ m → c (buf.take m) pos = some (a, pos') →
    c buf pos = some (a, pos') ∧ pos' ≤ m

theorem Cut.bind {f : α → Cursor β} (h : Cut c) (hf : ∀ a, Cut (f a)) : Cut (c >>= f) := by
  intro buf m pos b pos' hpos hrd
  rw [bind_eq] at hrd
  obtain ⟨⟨a, p⟩, ha, hb⟩ := bind_eq_some_iff.1 hrd
  obtain ⟨ha', hp⟩ := h hpos ha
  rw [bind_eq, ha', bind_some]
  exact hf a hp hb

theorem cut_pure (a : α) : Cut (pure a) := by
  intro buf m pos b pos' hpos hrd
  cases hrd
  exact ⟨rfl, hpos⟩

theorem cut_failure : Cut (failure : Cursor α) := by
  intro buf m pos b pos' hpos hrd
  cases hrd

theorem cut_bytes (n : ℕ) : Cut (bytes n) := by
  intro buf m pos b pos' hpos hrd
  rw [bytes] at hrd ⊢
  split at hrd
  · rename_i hle
    cases hrd
    rw [length_take] at hle
    rw [if_pos (by omega), slice_take (by omega)]
    exact ⟨rfl, by omega⟩
  · cases hrd

theorem Cut.map (h : Cut c) (f : α → β) : Cut (f <$> c) := by
  intro buf m pos b pos' hpos hrd
  rw [map_eq] at hrd ⊢
  obtain ⟨⟨a, p⟩, ha, hb⟩ := map_eq_some_iff.1 hrd
  cases hb
  obtain ⟨ha', hp⟩ := h hpos ha
  exact ⟨by rw [ha']; rfl, hp⟩

theorem cut_num (n : ℕ) : Cut (num n) := (cut_bytes n).map getLE

theorem cut_expect (b : Bytes) : Cut (expect b) := by
  refine (cut_bytes b.length).bind fun b' => ?_
  split
  · exact cut_pure ()
  · exact cut_failure

theorem cut_text : Cut text := (cut_num 4).bind cut_bytes

/-! ## What is read stands there -/

/-- What is read is related to the bytes that it is read from. -/
def Spans (c : Cursor α) (W : α → Bytes → Prop) : Prop :=
  ∀ ⦃buf pos a pos'⦄, c buf pos = some (a, pos') → ∃ b, W a b ∧ slice buf pos b.length = b ∧ pos' = pos + b.length

variable {c : Cursor α} {f : α → Cursor β} {U : α → Bytes → Prop} {W : β → Bytes → Prop}

theorem Spans.bind (h : Spans c U) (hf : ∀ a b, U a b → Spans (f a) fun x b' => W x (b ++ b')) : Spans (c >>= f) W := by
  intro buf pos x pos' hrd
  obtain ⟨⟨a, p⟩, ha, hx⟩ := bind_eq_some_iff.1 hrd
  obtain ⟨b, hU, hb, rfl⟩ := h ha
  obtain ⟨b', hW, hb', rfl⟩ := hf a b hU hx
  refine ⟨b ++ b', hW, ?_, by rw [length_append, Nat.add_assoc]⟩
  rw [length_append, slice_add, hb, hb']

theorem Spans.andThen {w : α → Bytes} (h : Spans c fun a b => b = w a)
    (hf : ∀ a, Spans (f a) fun x b => W x (w a ++ b)) : Spans (c >>= f) W :=
  h.bind fun a _ hb => hb ▸ hf a

theorem Spans.map (h : Spans c U) {f : α → β} (hf : ∀ a b, U a b → W (f a) b) : Spans (f <$> c) W := by
  intro buf pos x pos' hrd
  rw [map_eq] at hrd
  obtain ⟨⟨a, p⟩, ha, heq⟩ := map_eq_some_iff.1 hrd
  cases heq
  obtain ⟨b, hU, hb⟩ := h ha
  exact ⟨b, hf a b hU, hb⟩

theorem spans_pure (h : U a []) : Spans (pure a) U := by
  intro buf pos x pos' hrd
  cases hrd
  exact ⟨[], h, take_zero, rfl⟩

theorem spans_bytes (n : ℕ) : Spans (bytes n) fun a b => b = a ∧ a.length = n := by
  intro buf pos a pos' hrd
  rw [bytes] at hrd
  split_ifs at hrd with hle
  obtain ⟨rfl, rfl⟩ := Prod.mk.inj (some.inj hrd)
  have hlen : (slice buf pos n).length = n := (length_slice ..).trans (by omega)
  exact ⟨_, ⟨rfl, hlen⟩, by rw [hlen], by rw [hlen]⟩

theorem spans_num (n : ℕ) : Spans (num n) fun v b => b = putLE n v ∧ v < 256 ^ n := by
  refine (spans_bytes n).map ?_
  rintro a _ ⟨rfl, rfl⟩
  exact ⟨(putLE_getLE _).1.symm, (putLE_getLE _).2⟩

theorem spans_expect (b : Bytes) : Spans (expect b) fun _ b' => b' = b := by
  refine (spans_bytes b.length).bind fun b' _ hb => ?_
  rw [hb.1]
  split_ifs with heq
  · exact spans_pure (by rw [append_nil, heq])
  · exact fun _ _ _ _ hrd => by cases hrd

theorem spans_text : Spans text fun s b => b = putLE 4 s.length ++ s := by
  refine (spans_num 4).bind ?_
  rintro n _ ⟨rfl, -⟩ buf pos s pos' hrd
  obtain ⟨b, ⟨rfl, rfl⟩, hb⟩ := spans_bytes n hrd
  exact ⟨b, rfl, hb⟩

end Cursor

end Vgi
