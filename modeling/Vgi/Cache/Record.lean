import Vgi.Lib.Frame

/-!
# Records of a pack

A pack is a file of records, one after the other, each of which describes itself: the fingerprint of its key, the digest
of its blob, the expiry, the validators and the blob with its length. `buildRecord` writes one, `parseRecord` reads one,
and `scanRecords` reads a whole pack up to the first bytes that are no record.

* `parseRecord_build`: a record is read as it was written;
* `parseRecord_torn`: what is left of a record that was not written to its end is not read as one;
* `scanRecords_packed`: so the scan of records followed by a torn one finds exactly the records (`scan_recovers`);
* `scan_bounded_iff`: what is read is the bytes between the positions, and the scan ends, whatever the bytes are, iff no
  length of a blob leads beyond the numbers of 64 bits.
-/

namespace Vgi

open List Cursor

/-- What `Persist` writes. The digests are 64 hexadecimal digits, the texts come from the metadata of a message and from
    the names of the catalog, and a string is shorter than an address range. -/
structure PackRecord where
  keyfp : Bytes
  contentSha : Bytes
  exchange : Bool
  expires : Int64
  rows : Int64
  logical : UInt64
  scope : Bytes
  etag : Bytes
  lastModified : Bytes
  catalogName : Bytes
  blob : Bytes
  length_keyfp : keyfp.length = 64
  length_contentSha : contentSha.length = 64
  scope_lt : scope.length < 2 ^ 32
  etag_lt : etag.length < 2 ^ 32
  lastModified_lt : lastModified.length < 2 ^ 32
  catalogName_lt : catalogName.length < 2 ^ 32
  blob_lt : blob.length < 2 ^ 63

open PackRecord

/-- What `ParseRecord` reads. -/
structure Rec where
  keyfp : Bytes
  contentSha : Bytes
  flags : UInt8
  expires : Int64
  rows : Int64
  logical : UInt64
  scope : Bytes
  etag : Bytes
  lastModified : Bytes
  catalogName : Bytes
  blob : Bytes

/-- A signed number in eight bytes. -/
def putInt64 (x : Int64) : Bytes := putLE 8 x.toUInt64.toNat

/-- A text after its length. -/
def putText (s : Bytes) : Bytes := putLE 4 s.length ++ s

namespace PackRecord

variable (r : PackRecord)

/-- The flags of the record: whether it is of an exchange. -/
def flags : UInt8 := if r.exchange then 1 else 0

/-- The record before the length of its blob. -/
def header : Bytes :=
  ascii "VPK1" ++ (r.keyfp ++ (r.contentSha ++ ([r.flags] ++ (putInt64 r.expires ++
    (putInt64 r.rows ++ (putLE 8 r.logical.toNat ++ (putText r.scope ++ (putText r.etag ++
      (putText r.lastModified ++ putText r.catalogName)))))))))

/-- The record up to its blob. -/
def frame : Bytes := r.header ++ putLE 8 r.blob.length

/-- `BuildRecord`. -/
def buildRecord : Bytes := r.frame ++ r.blob

/-- The record as it is read. -/
def parsed : Rec where
  keyfp := r.keyfp
  contentSha := r.contentSha
  flags := r.flags
  expires := r.expires
  rows := r.rows
  logical := r.logical
  scope := r.scope
  etag := r.etag
  lastModified := r.lastModified
  catalogName := r.catalogName
  blob := r.blob

end PackRecord

/-! ## Reading -/

/-- A signed number. -/
def readInt64 : Cursor Int64 := (fun n => (UInt64.ofNat n).toInt64) <$> num 8

/-- `ParseRecord`, up to the length of the blob. -/
def parseHeader : Cursor Rec := do
  expect (ascii "VPK1")
  let keyfp ← bytes 64
  let contentSha ← bytes 64
  let flags ← (fun b => b.headD 0) <$> bytes 1
  let expires ← readInt64
  let rows ← readInt64
  let logical ← (fun n => UInt64.ofNat n) <$> num 8
  let scope ← text
  let etag ← text
  let lastModified ← text
  let catalogName ← text
  pure ⟨keyfp, contentSha, flags, expires, rows, logical, scope, etag, lastModified, catalogName, []⟩

/-- The blob, of `n` bytes. The position after it is computed in 64 bits, so a length near
    the largest number passes the check; then all that is there is taken. -/
def parseBlob (n : ℕ) : Cursor Bytes := fun buf pos =>
  if (pos + n) % 2 ^ 64 ≤ buf.length then some (slice buf pos n, (pos + n) % 2 ^ 64) else none

/-- `ParseRecord`, up to the blob. -/
def parseFrame : Cursor (Rec × ℕ) := do
  let r ← parseHeader
  let n ← num 8
  pure (r, n)

/-- `ParseRecord`: the record at the position, and the position after it. -/
def parseRecord : Cursor Rec := do
  let rn ← parseFrame
  let blob ← parseBlob rn.2
  pure { rn.1 with blob := blob }

/-- The records of a pack from a position on, with where they start and their lengths, up to the first bytes that are
    none. `none` if the end is not reached: with a length that passes the check of 64 bits the position may go back. -/
def scanFrom (buf : Bytes) : ℕ → ℕ → Option (List (ℕ × ℕ × Rec))
  | 0, _ => none
  | fuel + 1, pos =>
    if pos < buf.length then
      match parseRecord buf pos with
      | none => some []
      | some (r, pos') =>
        (scanFrom buf fuel pos').map ((pos, (pos' + 2 ^ 64 - pos) % 2 ^ 64, r) :: ·)
    else some []

/-- The records of a pack. -/
def scanRecords (buf : Bytes) : Option (List (ℕ × ℕ × Rec)) := scanFrom buf (buf.length + 1) 0

/-! ## What was written is read -/

open Cursor

theorem reads_int64 (x : Int64) : Reads readInt64 (putInt64 x) x := by
  have hrd := (reads_num (n := 8) (x.toUInt64.toNat_lt.trans_eq (by norm_num))).map fun n => (UInt64.ofNat n).toInt64
  rwa [UInt64.ofNat_toNat] at hrd

variable {r : PackRecord}

theorem reads_header (r : PackRecord) : Reads parseHeader r.header { r.parsed with blob := [] } := by
  have hkf : Reads (bytes 64) r.keyfp r.keyfp := r.length_keyfp ▸ reads_bytes r.keyfp
  have hsh : Reads (bytes 64) r.contentSha r.contentSha := r.length_contentSha ▸ reads_bytes r.contentSha
  have hfl : Reads ((fun b : Bytes => b.headD 0) <$> bytes 1) [r.flags] r.flags := (reads_bytes [r.flags]).map _
  have hlg : Reads (UInt64.ofNat <$> num 8) (putLE 8 r.logical.toNat) r.logical := by
    have hrd := (reads_num (n := 8) (r.logical.toNat_lt.trans_eq (by norm_num))).map fun n => UInt64.ofNat n
    rwa [UInt64.ofNat_toNat] at hrd
  have hct := (reads_text r.catalogName_lt).bind_pure fun c =>
    (⟨r.keyfp, r.contentSha, r.flags, r.expires, r.rows, r.logical, r.scope, r.etag, r.lastModified, c, []⟩ : Rec)
  exact (reads_expect _).bind <| hkf.bind <| hsh.bind <| hfl.bind <|
    (reads_int64 _).bind <| (reads_int64 _).bind <| hlg.bind <|
    (reads_text r.scope_lt).bind <| (reads_text r.etag_lt).bind <|
    (reads_text r.lastModified_lt).bind hct

theorem reads_frame (r : PackRecord) : Reads parseFrame r.frame ({ r.parsed with blob := [] }, r.blob.length) :=
  (reads_header r).bind <|
    (reads_num (r.blob_lt.trans (by norm_num))).bind_pure fun n => ({ r.parsed with blob := [] }, n)

/-- A record is read as it was written, in a buffer that fits into memory. -/
theorem parseRecord_build (r : PackRecord) {pre post : Bytes} (h : (pre ++ (r.buildRecord ++ post)).length < 2 ^ 64) :
    parseRecord (pre ++ (r.buildRecord ++ post)) pre.length = some (r.parsed, pre.length + r.buildRecord.length) := by
  rw [buildRecord, append_assoc] at h ⊢
  have hend : (pre.length + r.frame.length + r.blob.length) % 2 ^ 64 = pre.length + r.frame.length + r.blob.length := by
    refine Nat.mod_eq_of_lt ?_
    simp only [length_append] at h
    omega
  have hbl : parseBlob r.blob.length (pre ++ (r.frame ++ (r.blob ++ post)))
      (pre.length + r.frame.length) = some (r.blob, pre.length + r.frame.length + r.blob.length) := by
    rw [parseBlob, hend, if_pos, ← append_assoc, ← length_append, slice_append]
    simp only [length_append]
    omega
  rw [parseRecord, bind_eq, reads_frame r pre, Option.bind_some, bind_eq, hbl, length_append, ← Nat.add_assoc]
  rfl

/-! ## What is torn is not read -/

theorem cut_header : Cut parseHeader := by
  have hint64 : Cut readInt64 := (cut_num 8).map _
  exact (cut_expect _).bind fun _ => (cut_bytes 64).bind fun _ => (cut_bytes 64).bind fun _ =>
    ((cut_bytes 1).map _).bind fun _ => hint64.bind fun _ => hint64.bind fun _ =>
    ((cut_num 8).map _).bind fun _ => cut_text.bind fun _ => cut_text.bind fun _ =>
    cut_text.bind fun _ => cut_text.bind fun _ => cut_pure _

theorem cut_frame : Cut parseFrame := cut_header.bind fun _ => (cut_num 8).bind fun _ => cut_pure _

/-- The bytes are empty, or the beginning of a record. -/
def Torn (b : Bytes) : Prop := b = [] ∨ ∃ r : PackRecord, b <+: r.buildRecord ∧ b ≠ r.buildRecord

variable {tail : Bytes}

/-- What is left of a record is not read as one. -/
theorem parseRecord_torn {pre : Bytes} (htl : tail <+: r.buildRecord) (hne : tail ≠ r.buildRecord)
    (h : (pre ++ tail).length < 2 ^ 63) : parseRecord (pre ++ tail) pre.length = none := by
  rw [buildRecord] at htl hne
  rw [parseRecord, bind_eq]
  rcases lt_or_ge tail.length r.frame.length with hlt | hle
  · -- the frame is cut off
    have htk : (pre ++ r.frame).take (pre ++ tail).length = pre ++ tail := by
      obtain ⟨rest, hrs⟩ := prefix_of_prefix_length_le htl (prefix_append _ _) hlt.le
      rw [← hrs, ← append_assoc, take_left]
    rcases hrd : parseFrame (pre ++ tail) pre.length with _ | ⟨rn, pos⟩
    · rfl
    rw [← htk] at hrd
    obtain ⟨hrd', hpos⟩ := cut_frame (by simp) hrd
    have hwh := reads_frame r pre []
    rw [append_nil, hrd', Option.some.injEq] at hwh
    have := (Prod.ext_iff.1 hwh).2
    simp only [length_append] at hpos this
    omega
  · -- the blob is cut off
    obtain ⟨blob, rfl⟩ := prefix_of_prefix_length_le (prefix_append _ _) htl hle
    have hpre : blob <+: r.blob := (prefix_append_right_inj _).1 htl
    have hlen : blob.length < r.blob.length := by
      refine lt_of_le_of_ne hpre.length_le fun heq => hne ?_
      rw [hpre.eq_of_length heq]
    have hbl := r.blob_lt
    rw [reads_frame r pre blob, Option.bind_some, bind_eq, parseBlob, if_neg]
    · rfl
    · simp only [length_append] at h ⊢
      rw [Nat.mod_eq_of_lt (by omega)]
      omega

/-! ## The scan of a pack -/

theorem length_buildRecord_pos (r : PackRecord) : 0 < r.buildRecord.length := by
  rw [buildRecord, frame, header]
  simp only [length_append, length_putLE]
  omega

/-- Where the records are, written one after the other from a position on. -/
def layout : ℕ → List PackRecord → List (ℕ × PackRecord)
  | _, [] => []
  | pos, r :: rs => (pos, r) :: layout (pos + r.buildRecord.length) rs

variable {rs : List PackRecord}

theorem slice_of_mem_layout {pre : Bytes} {x : ℕ × PackRecord} (hx : x ∈ layout pre.length rs) :
    x.2 ∈ rs ∧ slice (pre ++ (rs.flatMap buildRecord ++ tail)) x.1 x.2.buildRecord.length = x.2.buildRecord := by
  induction rs generalizing pre with
  | nil => cases hx
  | cons r rs ih =>
    rw [flatMap_cons, append_assoc]
    rcases mem_cons.1 hx with rfl | hx
    · exact ⟨mem_cons_self, slice_append _ _ _⟩
    · rw [← length_append] at hx
      obtain ⟨hmem, hsl⟩ := ih hx
      rw [append_assoc] at hsl
      exact ⟨mem_cons_of_mem _ hmem, hsl⟩

variable {pos : ℕ}

theorem bound_of_mem_layout {x : ℕ × PackRecord} (hx : x ∈ layout pos rs) :
    x.1 + x.2.buildRecord.length ≤ pos + (rs.flatMap buildRecord).length := by
  induction rs generalizing pos with
  | nil => cases hx
  | cons r rs ih =>
    rw [flatMap_cons, length_append]
    rcases mem_cons.1 hx with rfl | hx
    · simp only
      omega
    · have := ih hx
      omega

/-- What the scan says of a record. -/
def scanned (x : ℕ × PackRecord) : ℕ × ℕ × Rec := (x.1, x.2.buildRecord.length, x.2.parsed)

theorem scanFrom_packed (htl : Torn tail) (rs : List PackRecord) {pre : Bytes} {fuel : ℕ}
    (h : (pre ++ (rs.flatMap buildRecord ++ tail)).length < 2 ^ 63) (hfl : rs.length < fuel) :
    scanFrom (pre ++ (rs.flatMap buildRecord ++ tail)) fuel pre.length = some ((layout pre.length rs).map scanned) := by
  induction rs generalizing pre fuel with
  | nil =>
    obtain ⟨fuel, rfl⟩ := Nat.exists_eq_succ_of_ne_zero (Nat.ne_of_gt hfl)
    rw [flatMap_nil, nil_append] at h ⊢
    rw [scanFrom]
    rcases htl with rfl | ⟨r, hpre, hne⟩
    · rw [if_neg (by simp)]
      rfl
    · split
      · rw [parseRecord_torn hpre hne h]
        rfl
      · rfl
  | cons r rs ih =>
    obtain ⟨fuel, rfl⟩ := Nat.exists_eq_succ_of_ne_zero (Nat.ne_of_gt (Nat.zero_lt_of_lt hfl))
    have hpos := length_buildRecord_pos r
    rw [flatMap_cons, append_assoc] at h ⊢
    have hrs := @ih (pre ++ r.buildRecord) fuel (by rwa [append_assoc]) (Nat.lt_of_succ_lt_succ hfl)
    rw [append_assoc, length_append] at hrs
    have hlt : pre.length < (pre ++ (r.buildRecord ++ (rs.flatMap buildRecord ++ tail))).length := by
      simp only [length_append]
      omega
    rw [scanFrom, if_pos hlt, parseRecord_build r (h.trans (by norm_num))]
    simp only
    rw [hrs, Option.map_some, layout, map_cons, scanned]
    have hlen : (pre.length + r.buildRecord.length + 2 ^ 64 - pre.length) % 2 ^ 64 =
        r.buildRecord.length := by
      simp only [length_append] at h
      omega
    rw [hlen]

theorem length_le_flatMap_build (rs : List PackRecord) : rs.length ≤ (rs.flatMap buildRecord).length := by
  induction rs with
  | nil => exact le_rfl
  | cons r rs ih =>
    have hpos := length_buildRecord_pos r
    rw [flatMap_cons, length_append, length_cons]
    omega

/-- The scan of a pack finds the records that were written, and nothing of one that was not written to its end. -/
theorem scanRecords_packed (htl : Torn tail) (h : (rs.flatMap buildRecord ++ tail).length < 2 ^ 63) :
    scanRecords (rs.flatMap buildRecord ++ tail) = some ((layout 0 rs).map scanned) := by
  refine @scanFrom_packed tail htl rs [] _ h ?_
  have := length_le_flatMap_build rs
  rw [length_append]
  omega

theorem scanned_layout (pos : ℕ) (rs : List PackRecord) : (layout pos rs).map scanned = rs.mapIdx fun i r =>
    (pos + ((rs.take i).flatMap buildRecord).length, r.buildRecord.length, r.parsed) := by
  induction rs generalizing pos with
  | nil => rfl
  | cons r rs ih =>
    rw [layout, map_cons, ih, mapIdx_cons]
    simp only [scanned, take_zero, flatMap_nil, length_nil, Nat.add_zero, take_succ_cons, flatMap_cons, length_append,
      Nat.add_assoc]

/-- Of records and the beginning of a further one the scan finds the records, with their offsets and lengths, and
    stops at the beginning of the further one. -/
theorem scan_recovers {rs : List PackRecord} {r : PackRecord} {p : Bytes} (hp : p <+: r.buildRecord)
    (hne : p ≠ r.buildRecord) (h : (rs.flatMap buildRecord ++ p).length < 2 ^ 63) :
    scanRecords (rs.flatMap buildRecord ++ p) = some (rs.mapIdx fun i r =>
      (((rs.take i).flatMap buildRecord).length, r.buildRecord.length, r.parsed)) ∧
    parseRecord (rs.flatMap buildRecord ++ p) (rs.flatMap buildRecord).length = none := by
  refine ⟨?_, parseRecord_torn hp hne h⟩
  rw [scanRecords_packed (.inr ⟨r, hp, hne⟩) h, scanned_layout]
  simp only [Nat.zero_add]

/-- A record of this blob. -/
def bareRecord (blob : Bytes) (h : blob.length < 2 ^ 63) : PackRecord :=
  ⟨replicate 64 48, replicate 64 48, true, 0, 0, 0, [], [], [], [], blob, rfl, rfl, by decide, by decide, by decide,
    by decide, h⟩

theorem scan_recovers_torn : let r := bareRecord [7] (by decide)
    scanRecords (r.buildRecord ++ r.buildRecord.take 181) = some [(0, 182, r.parsed)] := by
  intro r
  have hne : r.buildRecord.take 181 ≠ r.buildRecord := by decide +kernel
  have h := (@scan_recovers [r] r _ ( take_prefix 181 r.buildRecord) hne (by decide +kernel)).1
  rw [flatMap_singleton] at h
  exact h

/-! ## Any bytes -/

theorem spans_uint64 : Spans ((fun n => UInt64.ofNat n) <$> num 8) fun x b => b = putLE 8 x.toNat := by
  refine (spans_num 8).map ?_
  rintro n _ ⟨rfl, hn⟩
  rw [UInt64.toNat_ofNat_of_lt' (hn.trans_eq (by norm_num))]

theorem spans_int64 : Spans readInt64 fun x b => b = putInt64 x := by
  refine (spans_num 8).map ?_
  rintro n _ ⟨rfl, hn⟩
  exact congrArg (putLE 8) (UInt64.toNat_ofNat_of_lt' (hn.trans_eq (by norm_num))).symm

/-- The bytes of a record, up to the length of its blob. -/
def Rec.header (r : Rec) : Bytes :=
  ascii "VPK1" ++ (r.keyfp ++ (r.contentSha ++ ([r.flags] ++ (putInt64 r.expires ++ (putInt64 r.rows ++
    (putLE 8 r.logical.toNat ++ (putText r.scope ++ (putText r.etag ++ (putText r.lastModified ++
      putText r.catalogName)))))))))

theorem spans_header : Spans parseHeader fun r b => b = r.header := by
  have hfl : Spans ((fun b : Bytes => b.headD 0) <$> bytes 1) fun x b => b = [x] := by
    refine (spans_bytes 1).map ?_
    rintro a _ ⟨rfl, ha⟩
    obtain ⟨x, rfl⟩ := length_eq_one_iff.1 ha
    rfl
  have hbt : Spans (bytes 64) fun a b => b = a := fun _ _ _ _ h => (spans_bytes 64 h).imp fun _ h => ⟨h.1.1, h.2⟩
  exact (spans_expect _).andThen fun _ => hbt.andThen fun _ => hbt.andThen fun _ => hfl.andThen fun _ =>
    spans_int64.andThen fun _ => spans_int64.andThen fun _ => spans_uint64.andThen fun _ => spans_text.andThen fun _ =>
    spans_text.andThen fun _ => spans_text.andThen fun _ => spans_text.andThen fun _ =>
    spans_pure (by rw [append_nil]; rfl)

/-- The bytes of a record, as it is read. -/
def Rec.bytes (r : Rec) : Bytes := r.header ++ (putLE 8 r.blob.length ++ r.blob)

theorem parseRecord_eq_some {buf : Bytes} {pos' : ℕ} {r : Rec} :
    parseRecord buf pos = some (r, pos') ↔ ∃ rn q, parseFrame buf pos = some (rn, q) ∧
      (q + rn.2) % 2 ^ 64 ≤ buf.length ∧ r = { rn.1 with blob := slice buf q rn.2 } ∧ pos' = (q + rn.2) % 2 ^ 64 := by
  rw [parseRecord, bind_eq, Option.bind_eq_some_iff]
  constructor
  · rintro ⟨⟨rn, q⟩, hfr, hrd⟩
    rw [bind_eq, parseBlob] at hrd
    split_ifs at hrd with hle
    · cases hrd
      exact ⟨rn, q, hfr, hle, rfl, rfl⟩
    · cases hrd
  · rintro ⟨rn, q, hfr, hle, rfl, rfl⟩
    refine ⟨(rn, q), hfr, ?_⟩
    rw [bind_eq, parseBlob, if_pos hle]
    rfl

theorem parseFrame_spans {buf : Bytes} {q : ℕ} {rn : Rec × ℕ} (h : parseFrame buf pos = some (rn, q)) :
    pos + 8 ≤ q ∧ q ≤ buf.length ∧ rn.2 < 2 ^ 64 ∧ slice buf pos (q - pos) = rn.1.header ++ putLE 8 rn.2 := by
  have hfr : Spans parseFrame fun rn b => b = rn.1.header ++ putLE 8 rn.2 ∧ rn.2 < 256 ^ 8 := by
    refine spans_header.andThen fun r => (spans_num 8).bind ?_
    rintro n _ ⟨rfl, hn⟩
    exact spans_pure ⟨by rw [append_nil], hn⟩
  obtain ⟨b, ⟨hb, hn⟩, hsl, rfl⟩ := hfr h
  have hlen := congrArg length hsl
  have hb8 := congrArg length hb
  rw [length_append, length_putLE] at hb8
  rw [length_slice] at hlen
  rw [Nat.add_sub_cancel_left, hsl]
  exact ⟨by omega, by omega, hn.trans_eq (by norm_num), hb⟩

/-- What is read at the position is the bytes up to the next one, which is further on and in the buffer. -/
def Exact (buf : Bytes) (pos : ℕ) : Prop :=
  ∀ r pos', parseRecord buf pos = some (r, pos') → pos < pos' ∧ pos' ≤ buf.length ∧ slice buf pos (pos' - pos) = r.bytes

/-- The end of the blob of the record at the position is no larger than a number of 64 bits. -/
def Unwrapped (buf : Bytes) (pos : ℕ) : Prop := ∀ rn q, parseFrame buf pos = some (rn, q) → q + rn.2 < 2 ^ 64

variable {buf : Bytes} (hbuf : buf.length < 2 ^ 63)

include hbuf

theorem exact_iff (pos : ℕ) : Exact buf pos ↔ Unwrapped buf pos := by
  constructor
  · intro h rn q hfr
    obtain ⟨hq, hend, hn, hsl⟩ := parseFrame_spans hfr
    by_contra! hle
    -- the position goes back into the frame
    have hmod : (q + rn.2) % 2 ^ 64 = q + rn.2 - 2 ^ 64 := by omega
    obtain ⟨-, -, hbt⟩ := h _ _ (parseRecord_eq_some.2 ⟨rn, q, hfr, by omega, rfl, rfl⟩)
    have hlen := congrArg length hsl
    have hlen' := congrArg length hbt
    simp only [Rec.bytes, Rec.header, length_append, length_putLE, length_slice] at hlen hlen'
    omega
  · intro h r pos' hrd
    obtain ⟨rn, q, hfr, hle, rfl, rfl⟩ := parseRecord_eq_some.1 hrd
    obtain ⟨hq, hend, hn, hsl⟩ := parseFrame_spans hfr
    rw [Nat.mod_eq_of_lt (h rn q hfr)] at hle ⊢
    have hlen : (slice buf q rn.2).length = rn.2 := (length_slice ..).trans (by omega)
    have hsp : q + rn.2 - pos = q - pos + rn.2 := by omega
    refine ⟨by omega, hle, ?_⟩
    rw [hsp, slice_add, hsl, Nat.add_sub_cancel' (by omega), Rec.bytes, hlen, append_assoc]
    rfl

theorem scanFrom_bounded (h : ∀ pos, Exact buf pos) {fuel : ℕ} (hpos : pos ≤ buf.length)
    (hfl : buf.length < pos + fuel) :
    ∃ found, scanFrom buf fuel pos = some found ∧ ∀ x ∈ found, x.1 + x.2.1 ≤ buf.length := by
  induction fuel generalizing pos with
  | zero => omega
  | succ fuel ih =>
    rw [scanFrom]
    split_ifs with hlt
    · rcases hrd : parseRecord buf pos with _ | ⟨r, pos'⟩
      · exact ⟨[], rfl, by simp⟩
      obtain ⟨had, hle, -⟩ := h pos r pos' hrd
      obtain ⟨found, hfn, hbd⟩ := ih hle (by omega)
      refine ⟨_, congrArg (Option.map _) hfn, forall_mem_cons.2 ⟨?_, hbd⟩⟩
      dsimp only
      omega
    · exact ⟨[], rfl, by simp⟩

/-- What is read is exact everywhere, and the scan of the pack ends and is about bytes of the pack, iff no length of a
    blob leads beyond the numbers of 64 bits. -/
theorem scan_bounded_iff : ((∀ pos, Exact buf pos) ∧
    ∃ found, scanRecords buf = some found ∧ ∀ x ∈ found, x.1 + x.2.1 ≤ buf.length) ↔ ∀ pos, Unwrapped buf pos := by
  simp only [← exact_iff hbuf]
  exact ⟨And.left, fun h => ⟨h, scanFrom_bounded hbuf h (Nat.zero_le _) (by omega)⟩⟩

omit hbuf

/-- A record without texts, up to its blob. -/
def bareFrame (blobLength : ℕ) : Bytes :=
  Rec.header ⟨replicate 64 48, replicate 64 48, 1, 0, 0, 0, [], [], [], [], []⟩ ++ putLE 8 blobLength

/-- The record says that its blob ends where the record starts, and the scan reads it again and again. -/
theorem scan_endless : ∃ buf, buf.length = 181 ∧ ∀ fuel, scanFrom buf fuel 0 = none := by
  have hrd : (parseRecord (bareFrame (2 ^ 64 - 181)) 0).map (·.2) = some 0 := by decide +kernel
  obtain ⟨⟨r, pos⟩, hr, rfl⟩ := Option.map_eq_some_iff.1 hrd
  refine ⟨bareFrame (2 ^ 64 - 181), by decide +kernel, fun fuel => ?_⟩
  induction fuel with
  | zero => rfl
  | succ fuel ih =>
    rw [scanFrom, if_pos (by decide +kernel), hr]
    exact congrArg (Option.map _) ih

theorem bareFrame_not_bounded : ¬((∀ pos, Exact (bareFrame (2 ^ 64 - 181)) pos) ∧
    ∃ found, scanRecords (bareFrame (2 ^ 64 - 181)) = some found ∧
      ∀ x ∈ found, x.1 + x.2.1 ≤ (bareFrame (2 ^ 64 - 181)).length) := by
  rw [scan_bounded_iff (by decide +kernel)]
  intro h
  have hfr : ((parseFrame (bareFrame (2 ^ 64 - 181)) 0).map fun x => (x.1.2, x.2)) = some (2 ^ 64 - 181, 181) := by
    decide +kernel
  obtain ⟨⟨rn, q⟩, hrn, heq⟩ := Option.map_eq_some_iff.1 hfr
  obtain ⟨hn, hq⟩ := Prod.mk.inj heq
  have hlt := h 0 rn q hrn
  dsimp only at hn hq
  omega

end Vgi
