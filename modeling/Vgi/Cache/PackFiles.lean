import Vgi.Cache.Pack

/-!
# Packs and their sidecars

The names of the packs of a process differ, and a sidecar belongs to one pack and is none
itself. A sidecar is read as it was written (`readVidx_entries`), and from one that was not
written to its end no other entries are read (`vidxFor_sub`).
-/

namespace Vgi

open List

namespace PackStore

variable {cfg : PackConfig}

/-! ## Names -/

theorem isVpack_iff {name : Bytes} : isVpack name ↔ ∃ stem, stem ≠ [] ∧ name = stem ++ ascii ".vpack" := by
  have hlen : (ascii ".vpack").length = 6 := rfl
  rw [isVpack, Bool.and_eq_true, decide_eq_true_eq, decide_eq_true_eq]
  refine ⟨fun ⟨hlt, hdr⟩ => ⟨name.take (name.length - 6), ?_, ?_⟩, ?_⟩
  · refine ne_nil_of_length_pos ?_
    rw [length_take]
    omega
  · rw [← hdr, take_append_drop]
  · rintro ⟨stem, hst, rfl⟩
    have hpos := length_pos_of_ne_nil hst
    rw [length_append, hlen, Nat.add_sub_cancel, drop_left]
    exact ⟨by omega, rfl⟩

theorem vidxOf_append (stem : Bytes) : vidxOf (stem ++ ascii ".vpack") = stem ++ ascii ".vidx" := by
  have hlen : (ascii ".vpack").length = 6 := rfl
  rw [vidxOf, length_append, hlen, Nat.add_sub_cancel, take_left]

theorem isVpack_packName (n : ℕ) : isVpack (packName cfg n) := by
  refine isVpack_iff.2 ⟨cfg.selfId ++ (ascii "-" ++ decimal n), ?_, ?_⟩
  · simp [ascii]
  · simp only [packName, append_assoc]

theorem packName_inj {m n : ℕ} (h : packName cfg m = packName cfg n) : m = n :=
  decimal_natCast_inj (append_cancel_right (append_cancel_left (append_cancel_left h)))

/-- The packs are told apart by their sidecars. -/
theorem vidxOf_inj {a b : Bytes} (ha : isVpack a) (hb : isVpack b) (h : vidxOf a = vidxOf b) : a = b := by
  obtain ⟨s, -, rfl⟩ := isVpack_iff.1 ha
  obtain ⟨t, -, rfl⟩ := isVpack_iff.1 hb
  rw [vidxOf_append, vidxOf_append] at h
  rw [append_cancel_right h]

/-- A sidecar is not a pack. -/
theorem not_isVpack_vidxOf (a : Bytes) : ¬isVpack (vidxOf a) := by
  intro h
  obtain ⟨s, -, hs⟩ := isVpack_iff.1 h
  have hls := congrArg List.getLast? hs
  rw [vidxOf, getLast?_append, getLast?_append] at hls
  revert hls
  simp [ascii]

theorem vidxOf_ne {a b : Bytes} (hb : isVpack b) : b ≠ vidxOf a := fun h => not_isVpack_vidxOf a (h ▸ hb)

/-! ## Appending -/

/-- What is written at the end of a file is appended. -/
theorem writeFile_end {files : Files} {name content : Bytes} (h : files.lookup name = some content)
    (b : Bytes) : writeFile name content.length b files = files.insert name (content ++ b) := by
  rw [writeFile, h]
  simp only [overwrite, take_length, drop_eq_nil_of_le (Nat.le_add_right _ _), append_nil]

/-! ## Sidecars -/

variable {base : Bytes}

theorem mem_liveIn {st : ShardState} {x : Bytes × Loc} :
    x ∈ liveIn cfg st base ↔ st.index.lookup x.1 = some x.2 ∧ x.2.pack = base := by
  rw [liveIn, mem_filter, (cfg.order_perm _).mem_iff, decide_eq_true_eq, mem_map]
  refine and_congr_left fun _ => ⟨?_, fun h => ⟨⟨x.1, x.2⟩, AList.mem_lookup_iff.1 h, rfl⟩⟩
  rintro ⟨y, hy, rfl⟩
  exact AList.mem_lookup_iff.2 hy

theorem nodup_liveIn (st : ShardState) (base : Bytes) : ((liveIn cfg st base).map (·.1)).Nodup := by
  have hks : (st.index.entries.map fun x => (x.1, x.2)).map (·.1) = st.index.keys := by
    rw [map_map]
    rfl
  have hnd : ((cfg.order (st.index.entries.map fun x => (x.1, x.2))).map (·.1)).Nodup := by
    rw [((cfg.order_perm _).map _).nodup_iff, hks]
    exact st.index.keys_nodup
  exact hnd.sublist (filter_sublist.map _)

open Cursor

theorem cut_vidxHeader : Cut parseVidxHeader :=
  (cut_expect _).bind fun _ => (cut_num 8).bind fun _ => (cut_num 8).bind fun _ => cut_pure _

theorem cut_vidxEntry (base : Bytes) (own : Bool) : Cut (parseVidxEntry base own) := by
  have hint64 : Cut readInt64 := (cut_num 8).map _
  exact (cut_bytes 64).bind fun _ => (cut_num 8).bind fun _ => (cut_num 8).bind fun _ =>
    hint64.bind fun _ => ((cut_num 8).map _).bind fun _ => hint64.bind fun _ =>
    ((cut_bytes 1).map _).bind fun _ => cut_pure _

/-- The entry of a sidecar as it is read. -/
def loadedLoc (base : Bytes) (own : Bool) (x : Bytes × Loc) : Bytes × Loc :=
  (x.1, { x.2 with pack := base, own := own, seq := 0 })

/-- The numbers of an entry fit into their fields. -/
structure Fits (x : Bytes × Loc) : Prop where
  keyfp : x.1.length = 64
  offset : x.2.offset < 2 ^ 64
  recLen : x.2.recLen < 2 ^ 64

theorem reads_vidxEntry {x : Bytes × Loc} (hx : Fits x) (base : Bytes) (own : Bool) :
    Reads (parseVidxEntry base own) (vidxEntry x) (loadedLoc base own x) := by
  obtain ⟨keyfp, loc⟩ := x
  have hkf : Reads (bytes 64) keyfp keyfp := hx.keyfp ▸ reads_bytes keyfp
  have hlg : Reads (UInt64.ofNat <$> num 8) (putLE 8 loc.logical.toNat) loc.logical := by
    have hrd := (reads_num (n := 8) (loc.logical.toNat_lt.trans_eq (by norm_num))).map fun n => UInt64.ofNat n
    rwa [UInt64.ofNat_toNat] at hrd
  have hfl := ((reads_bytes [if loc.exchange then 1 else 0]).map
    fun b : Bytes => b.headD 0).bind_pure fun flags =>
      (keyfp, (⟨base, loc.offset, loc.recLen, loc.expiresUnix, loc.logical, loc.rows, flags ≠ 0, own, 0⟩ : Loc))
  have hex : decide ((if loc.exchange then (1 : UInt8) else 0) ≠ 0) = loc.exchange := by
    cases loc.exchange <;> simp
  rw [headD_cons, hex] at hfl
  exact hkf.bind <| (reads_num (hx.offset.trans_eq (by norm_num))).bind <|
    (reads_num (hx.recLen.trans_eq (by norm_num))).bind <| (reads_int64 _).bind <|
    hlg.bind <| (reads_int64 _).bind hfl

variable {packSize : ℕ}

theorem reads_vidxHeader {count : ℕ} (hsz : packSize < 2 ^ 64) (hcn : count < 2 ^ 64) :
    Reads parseVidxHeader (ascii "VIX1" ++ (putLE 8 packSize ++ putLE 8 count)) (packSize, count) :=
  (reads_expect _).bind <| (reads_num (hsz.trans_eq (by norm_num))).bind <|
    (reads_num (hcn.trans_eq (by norm_num))).bind_pure fun n => (packSize, n)

variable {live : List (Bytes × Loc)}

theorem readVidx_entries (hlv : ∀ x ∈ live, Fits x) (base : Bytes) (own : Bool) (count : ℕ) (pre : Bytes) :
    readVidx base own (pre ++ live.flatMap vidxEntry) count pre.length =
      ((live.take count).map (loadedLoc base own), decide (count ≤ live.length)) := by
  induction count generalizing live pre with
  | zero => simp [readVidx]
  | succ count ih =>
    rcases live with _ | ⟨x, live⟩
    · have hend : parseVidxEntry base own pre pre.length = none := by
        rw [parseVidxEntry, bind_eq, bytes, if_neg (by omega)]
        rfl
      simp [readVidx, hend]
    · have hrd := reads_vidxEntry (hlv x mem_cons_self) base own pre (live.flatMap vidxEntry)
      have hrs := ih (fun y hy => hlv y (mem_cons_of_mem _ hy)) (pre ++ vidxEntry x)
      rw [append_assoc, length_append] at hrs
      rw [readVidx, flatMap_cons, hrd]
      simp only [hrs, take_succ_cons, map_cons, length_cons, Nat.add_le_add_iff_right]

/-- A sidecar is read as it was written. -/
theorem vidxFor_whole (hlv : ∀ x ∈ live, Fits x) (hsz : packSize < 2 ^ 64) (hcn : live.length < 2 ^ 64)
    (base : Bytes) (own : Bool) :
    vidxFor base own packSize (some (vidxBytes packSize live)) = (live.map (loadedLoc base own), true) := by
  have hhd := reads_vidxHeader hsz hcn [] (live.flatMap vidxEntry)
  have hrd := readVidx_entries hlv base own live.length (ascii "VIX1" ++ (putLE 8 packSize ++ putLE 8 live.length))
  rw [nil_append, length_nil, Nat.zero_add, append_assoc, append_assoc] at hhd
  rw [append_assoc, append_assoc] at hrd
  rw [vidxFor, vidxBytes, hhd]
  simp only [if_pos, hrd, take_length, le_refl, decide_true]

variable {idx : Bytes}

/-- From a sidecar that is cut off no other entries are read. -/
theorem readVidx_take {own : Bool} {m : ℕ} (count : ℕ) {p : ℕ} (hp : p ≤ m) :
    (readVidx base own (idx.take m) count p).1 <+: (readVidx base own idx count p).1 := by
  induction count generalizing p with
  | zero => exact prefix_rfl
  | succ count ih =>
    rw [readVidx]
    rcases hrd : parseVidxEntry base own (idx.take m) p with _ | ⟨x, p'⟩
    · exact nil_prefix
    · obtain ⟨hrd', hp'⟩ := cut_vidxEntry base own hp hrd
      rw [readVidx, hrd']
      exact prefix_cons_inj x |>.2 (ih hp')

theorem parseVidxHeader_pos {r : ℕ × ℕ} {p : ℕ} (h : parseVidxHeader idx 0 = some (r, p)) : p = 20 := by
  simp only [parseVidxHeader, expect, num, bytes, bind_eq, map_eq, Option.bind_eq_some_iff,
    Option.map_eq_some_iff, Option.ite_none_right_eq_some, Prod.exists, Option.some.injEq,
    Prod.mk.injEq] at h
  obtain ⟨_, p₁, ⟨_, p₂, ⟨-, -, rfl⟩, hex⟩, _, p₃, ⟨_, p₄, ⟨-, -, rfl⟩, -, rfl⟩, _, p₅,
    ⟨_, p₆, ⟨-, -, rfl⟩, -, rfl⟩, hp⟩ := h
  split at hex
  · cases hex
    cases hp
    rfl
  · cases hex

/-- What is read from a sidecar was written there. -/
theorem vidxFor_sub (hlv : ∀ x ∈ live, Fits x) (hidx : idx <+: vidxBytes packSize live) {own : Bool}
    {actualSize : ℕ} {y : Bytes × Loc} (hy : y ∈ (vidxFor base own actualSize (some idx)).1) :
    ∃ x ∈ live, y = loadedLoc base own x := by
  rw [vidxFor] at hy
  rcases hhd : parseVidxHeader idx 0 with _ | ⟨⟨size, count⟩, p⟩ <;> rw [hhd] at hy
  · cases hy
  simp only at hy
  split at hy
  · have htk : (vidxBytes packSize live).take idx.length = idx := by
      obtain ⟨rest, hrs⟩ := hidx
      rw [← hrs, take_left]
    rw [← htk] at hhd hy
    have hp := (cut_vidxHeader (Nat.zero_le _) hhd).2
    have hpos := parseVidxHeader_pos hhd
    have hy' := (readVidx_take count hp).subset hy
    have hrd := readVidx_entries hlv base own count (ascii "VIX1" ++ (putLE 8 packSize ++ putLE 8 live.length))
    have hlen : (ascii "VIX1" ++ (putLE 8 packSize ++ putLE 8 live.length)).length = 20 := by
      simp only [length_append, length_putLE]
      rfl
    rw [hlen, append_assoc, append_assoc, ← hpos] at hrd
    rw [vidxBytes, hrd] at hy'
    obtain ⟨x, hx, rfl⟩ := mem_map.1 hy'
    exact ⟨x, mem_of_mem_take hx, rfl⟩
  · cases hy

end PackStore

end Vgi
