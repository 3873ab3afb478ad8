import Vgi.Lib.Bytes

/-!
# Reading a chain of buffers

A dictionary-encoded batch is read out of a segment as one stream of three regions, which are not
copied together. The two ways to read move the same position.

* `run_pieces`: the calls cut one piece after the other off the regions joined.
-/

namespace Vgi

/-- A stream over regions, with its position in the first of them and in all. -/
structure ChainedBufferInputStream where
  /-- The regions from the current one on. -/
  regions : List Bytes
  regionPos : ℕ := 0
  absPos : ℕ := 0

namespace ChainedBufferInputStream

/-- Move `n` bytes on in the region `r`, and to the next one at its end. -/
def advance (r : Bytes) (rs : List Bytes) (pos abs n : ℕ) : ChainedBufferInputStream :=
  if pos + n = r.length then ⟨rs, 0, abs + n⟩ else ⟨r :: rs, pos + n, abs + n⟩

/-- `Read`: up to `nbytes`, across the ends of regions. -/
def read (nbytes : ℕ) : ChainedBufferInputStream → Bytes × ChainedBufferInputStream
  | ⟨[], pos, abs⟩ => ([], ⟨[], pos, abs⟩)
  | ⟨r :: rs, pos, abs⟩ =>
    if nbytes = 0 then ([], ⟨r :: rs, pos, abs⟩)
    else if r.length ≤ pos then read nbytes ⟨rs, 0, abs⟩
    else
      let n := min nbytes (r.length - pos)
      let rest := read (nbytes - n) (advance r rs pos abs n)
      ((r.drop pos).take n ++ rest.1, rest.2)
termination_by s => nbytes + s.regions.length
decreasing_by all_goals grind [advance]

/-- `Read` into a new buffer, without a copy if the range is in one region. -/
def readBuffer (nbytes : ℕ) : ChainedBufferInputStream → Bytes × ChainedBufferInputStream
  | ⟨[], pos, abs⟩ => read nbytes ⟨[], pos, abs⟩
  | ⟨r :: rs, pos, abs⟩ =>
    if r.length ≤ pos then readBuffer nbytes ⟨rs, 0, abs⟩
    else if nbytes ≤ r.length - pos then ((r.drop pos).take nbytes, advance r rs pos abs nbytes)
    -- the range spans regions: a buffer is allocated and read into
    else read nbytes ⟨r :: rs, pos, abs⟩
termination_by s => s.regions.length

/-- What has not been delivered. -/
def left : ChainedBufferInputStream → Bytes
  | ⟨[], _, _⟩ => []
  | ⟨r :: rs, pos, _⟩ => r.drop pos ++ rs.flatten

inductive Call
  | read (nbytes : ℕ)
  | readBuffer (nbytes : ℕ)

def Call.nbytes : Call → ℕ
  | .read n | .readBuffer n => n

variable (s : ChainedBufferInputStream)

def tell : ℕ := s.absPos

def call : Call → Bytes × ChainedBufferInputStream
  | .read n => s.read n
  | .readBuffer n => s.readBuffer n

/-- The calls one after the other. -/
def run (s : ChainedBufferInputStream) : List Call → List Bytes × ChainedBufferInputStream
  | [] => ([], s)
  | c :: cs =>
    let (out, s) := s.call c
    (out :: (s.run cs).1, (s.run cs).2)

/-- Pieces of the given sizes, cut off one after the other. -/
def pieces (bytes : Bytes) : List ℕ → List Bytes
  | [] => []
  | n :: ns => bytes.take n :: pieces (bytes.drop n) ns

/-- A reading of `n` bytes: the next ones, all that are left if these are fewer. -/
structure Reads (n : ℕ) (out : Bytes × ChainedBufferInputStream) : Prop where
  bytes : out.1 = s.left.take n
  left : out.2.left = s.left.drop n
  absPos : out.2.absPos = s.absPos + out.1.length

variable {s} {r : Bytes} {rs : List Bytes} {pos abs n : ℕ}

theorem left_flatten : left ⟨rs, 0, abs⟩ = rs.flatten := by
  cases rs <;> simp [left]

theorem reads_advance (hn : n ≤ r.length - pos) :
    Reads ⟨r :: rs, pos, abs⟩ n ((r.drop pos).take n, advance r rs pos abs n) := by
  have hlen : n ≤ (r.drop pos).length := by simpa using hn
  refine ⟨by simp [left, List.take_append_of_le_length hlen], ?_, by grind [advance]⟩
  have hdr : (advance r rs pos abs n).left = r.drop (pos + n) ++ rs.flatten := by
    rw [advance]
    split_ifs with hend
    · rw [left_flatten, hend, List.drop_length, List.nil_append]
    · rfl
  rw [hdr, left, List.drop_append_of_le_length hlen, List.drop_drop]

theorem reads_skip {out : Bytes × ChainedBufferInputStream} (h : Reads ⟨rs, 0, abs⟩ n out) (hr : r.length ≤ pos) :
    Reads ⟨r :: rs, pos, abs⟩ n out := by
  have hlf : left ⟨r :: rs, pos, abs⟩ = left ⟨rs, 0, abs⟩ := by
    rw [left_flatten, left, List.drop_eq_nil_of_le hr, List.nil_append]
  exact ⟨hlf ▸ h.bytes, hlf ▸ h.left, h.absPos⟩

variable (s : ChainedBufferInputStream)

theorem reads_read (n : ℕ) : s.Reads n (s.read n) := by
  fun_induction read n s with
  | case1 => constructor <;> simp [left]
  | case2 => constructor <;> simp
  | case3 n r rs pos abs hn hr ih => exact reads_skip ih hr
  | case4 n r rs pos abs hn hr m rest ih =>
    obtain ⟨hbt, hlf, hab⟩ := @reads_advance r rs pos abs m (min_le_right ..)
    have hnm : n = m + (n - m) := (Nat.add_sub_of_le (min_le_left ..)).symm
    constructor
    · rw [hnm, List.take_add, ← hbt, ← hlf, ← ih.bytes]
    · rw [hnm, ← List.drop_drop, ← hlf, ← ih.left]
    · rw [ih.absPos, hab, List.length_append, add_assoc]

theorem reads_call (c : Call) : s.Reads c.nbytes (s.call c) := by
  cases c with
  | read n => exact reads_read s n
  | readBuffer n =>
    change s.Reads n (s.readBuffer n)
    fun_induction readBuffer n s with
    | case1 | case4 => exact reads_read ..
    | case2 r rs pos abs hr ih => exact reads_skip ih hr
    | case3 r rs pos abs hr hn => exact reads_advance hn

theorem run_eq (calls : List Call) : (s.run calls).1 = pieces s.left (calls.map Call.nbytes) ∧
      (s.run calls).2.absPos = s.absPos + (s.run calls).1.flatten.length := by
  induction calls generalizing s with
  | nil => simp [run, pieces]
  | cons c cs ih =>
    obtain ⟨hbt, hlf, hab⟩ := reads_call s c
    obtain ⟨ihpieces, ihabs⟩ := ih (s.call c).2
    rw [hlf] at ihpieces
    constructor
    · simp only [run, List.map_cons, pieces, hbt, ihpieces]
    · simp only [run, List.flatten_cons, List.length_append, ihabs, hab, add_assoc]

/-- Whichever calls are made, they return pieces of the regions joined, and the position is how much was returned. -/
theorem run_pieces (regions : List Bytes) (calls : List Call) :
    (run ⟨regions, 0, 0⟩ calls).1 = pieces regions.flatten (calls.map Call.nbytes) ∧
      (run ⟨regions, 0, 0⟩ calls).2.tell = (run ⟨regions, 0, 0⟩ calls).1.flatten.length := by
  obtain ⟨hpc, hab⟩ := run_eq ⟨regions, 0, 0⟩ calls
  exact ⟨left_flatten ▸ hpc, hab.trans (Nat.zero_add _)⟩

end ChainedBufferInputStream

end Vgi
