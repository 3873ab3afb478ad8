import Vgi.Lib.Capacity
import Vgi.Lib.Text
import Vgi.Cache.Entry

/-!
# The reaper of the loose store

The loose store keeps, for each identity, a shard with two directories: `refs`,
a small text file for each key, and `objects`, the content-addressed blobs the
refs name. Several refs of a shard may name one object.

`reapDisk` is one pass of the reaper: refs past their expiry are unlinked
(pass 1); the oldest refs are evicted while the store is over its byte cap
(pass 2), and the oldest exchange refs while there are more than `max_refs` of
them (pass 2b); then every object no live ref names is swept, once it is past a
grace period (pass 3).

Liveness is a *set* of object names, and an eviction erases the name of its
object from it. So a ref that survives keeps its object if and only if the caps
take all of the refs that share it, or none of them
(`reapDisk_keepsObjects_iff`).
-/

namespace Vgi

open List

/-! ## The store -/

/-- A file of a `refs` directory. -/
structure RefFile where
  name : Bytes
  body : Bytes
  mtime : ℤ
  deriving DecidableEq

/-- A file of an `objects` directory. -/
structure ObjectFile where
  name : Bytes
  mtime : ℤ
  deriving DecidableEq

/-- The directory of an identity. -/
structure Shard where
  name : Bytes
  refs : List RefFile
  objects : List ObjectFile
  refs_nodup : (refs.map (·.name)).Nodup
  objects_nodup : (objects.map (·.name)).Nodup

/-- The directories of all identities. -/
structure LooseStore where
  shards : List Shard
  shards_nodup : (shards.map (·.name)).Nodup

open LooseStore

/-- `ParseInt`: a decimal number, or the fallback. -/
def parseInt (s : Bytes) (fallback : ℤ) : ℤ := (stoll s).getD fallback

/-- What the reaper reads of a ref file. -/
structure RefFields where
  content : Bytes := []
  expires : ℤ := int64Max
  bytes : ℤ := 0
  exchange : Bool := false
  deriving DecidableEq

def RefFields.set (r : RefFields) (f : Bytes × Bytes) : RefFields :=
  if f.1 = ascii "content" then { r with content := f.2 }
  else if f.1 = ascii "expires_unix" then { r with expires := parseInt f.2 int64Max }
  else if f.1 = ascii "bytes" then { r with bytes := parseInt f.2 0 }
  else if f.1 = ascii "exch" then { r with exchange := f.2 = ascii "1" }
  else r

/-- The fields of a ref file; of a repeated field, the last one. -/
def RefFile.parse (f : RefFile) : RefFields := (fields f.body).foldl RefFields.set {}

/-- The name of the object file of the content `c`. -/
def objectName (c : Bytes) : Bytes := c ++ ascii ".vrc"

variable (st : LooseStore)

namespace LooseStore

/-- The shard holds the ref file. -/
abbrev HasRef (shard : Bytes) (f : RefFile) : Prop :=
  ∃ s ∈ st.shards, s.name = shard ∧ f ∈ s.refs

/-- The shard holds the object file. -/
abbrev HasObject (shard : Bytes) (o : ObjectFile) : Prop :=
  ∃ s ∈ st.shards, s.name = shard ∧ o ∈ s.objects

/-- Every ref that is still there and whose object was there before still has its object. -/
def KeepsObjects (before after : LooseStore) : Prop :=
  ∀ shard f, after.HasRef shard f → ∀ o, o.name = objectName f.parse.content →
    before.HasObject shard o → after.HasObject shard o

end LooseStore

/-! ## The passes -/

/-- A live ref. Its file is named by its shard and its name. -/
structure RefInfo where
  name : Bytes
  shard : Bytes
  content : Bytes
  mtime : ℤ
  bytes : ℤ
  exchange : Bool
  deriving DecidableEq

/-- The path of the ref file. -/
def RefInfo.path (r : RefInfo) : Bytes × Bytes := (r.shard, r.name)

/-- The object the ref names. -/
def RefInfo.object (r : RefInfo) : Bytes × Bytes := (r.shard, r.content)

/-- A sort by age. The order of refs of the same age is unspecified. -/
structure MtimeSort where
  sort : List RefInfo → List RefInfo
  perm : ∀ l, (sort l).Perm l
  sorted : ∀ l, (sort l).Pairwise fun a b => a.mtime ≤ b.mtime

def graceSeconds : ℤ := 60

def streamTmpGraceSeconds : ℤ := 3600

/-- The idle time after which a file of an `objects` directory may be swept. -/
def ObjectFile.grace (o : ObjectFile) : ℤ :=
  if ascii ".tmp-stream-" <:+: o.name then streamTmpGraceSeconds else graceSeconds

/-- The ref is past its expiry. -/
def RefFile.isExpired (f : RefFile) (now : ℤ) : Bool :=
  f.parse.expires ≠ int64Max && f.parse.expires ≤ now

/-- The live ref of a file: one that is not expired and names an object. -/
def RefFile.toInfo (now : ℤ) (shard : Bytes) (f : RefFile) : Option RefInfo :=
  if f.isExpired now then none
  else if f.parse.content = [] then none
  else some
    { name := f.name
      shard := shard
      content := f.parse.content
      mtime := f.mtime
      bytes := f.parse.bytes
      exchange := f.parse.exchange }

/-- Pass 1: the refs to unlink. -/
def Shard.expired (s : Shard) (now : ℤ) : List (Bytes × Bytes) :=
  (s.refs.filter (·.isExpired now)).map fun f => (s.name, f.name)

/-- Pass 1: the live refs. -/
def LooseStore.liveRefs (now : ℤ) : List RefInfo :=
  st.shards.flatMap fun s => s.refs.filterMap (·.toInfo now s.name)

/-- Pass 2: the refs evicted by the byte cap, and those left, in the order of
    the vector (sorted by age, if over the cap). -/
def evictBytes (ages : MtimeSort) (maxBytes : ℕ) (refs : List RefInfo) : List RefInfo × List RefInfo :=
  let total := (refs.map (·.bytes)).sum
  if toInt64 maxBytes < total then dropOver (toInt64 maxBytes) (·.bytes) total (ages.sort refs)
  else ([], refs)

/-- Pass 2b: the refs evicted by the cap on exchange refs. -/
def evictExchange (ages : MtimeSort) (maxRefs : ℕ) (refs : List RefInfo) : List RefInfo :=
  let exch := refs.filter (·.exchange)
  if 0 < maxRefs && maxRefs < exch.length then (ages.sort exch).take (exch.length - maxRefs) else []

/-- Pass 3: whether a file of an `objects` directory is swept. -/
def sweeps (live : Finset (Bytes × Bytes)) (now : ℤ) (shard : Bytes) (o : ObjectFile) : Bool :=
  let isTmp := ascii ".tmp-" <:+: o.name
  let isObj := 4 < o.name.length ∧ ascii ".vrc" <:+ o.name
  if ¬isTmp ∧ ¬isObj then false
  else if isObj ∧ (shard, o.name.take (o.name.length - 4)) ∈ live then false
  else o.grace ≤ now - o.mtime

/-- Remove files. -/
def Shard.prune (s : Shard) (ref : RefFile → Bool) (object : ObjectFile → Bool) : Shard where
  name := s.name
  refs := s.refs.filter (!ref ·)
  objects := s.objects.filter (!object ·)
  refs_nodup := (filter_sublist.map _).nodup s.refs_nodup
  objects_nodup := (filter_sublist.map _).nodup s.objects_nodup

/-- Remove the ref files at the given paths, and the objects swept. -/
def LooseStore.prune (unlinked : List (Bytes × Bytes))
    (swept : Bytes → ObjectFile → Bool) : LooseStore where
  shards := st.shards.map fun s => s.prune (fun f => (s.name, f.name) ∈ unlinked) (swept s.name)
  shards_nodup := by
    rw [map_map]
    exact st.shards_nodup

namespace LooseStore

variable (st : LooseStore) (ages : MtimeSort) (maxBytes maxRefs : ℕ) (now : ℤ)

/-- The refs evicted by passes 2 and 2b. -/
def evicted : List RefInfo :=
  let byBytes := evictBytes ages maxBytes (st.liveRefs now)
  byBytes.1 ++ evictExchange ages maxRefs byBytes.2

/-- The objects live after passes 2 and 2b: each eviction erases the name of its object from the set. -/
def liveObjects : Finset (Bytes × Bytes) :=
  (st.evicted ages maxBytes maxRefs now).foldl (fun live r => live.erase r.object)
    ((st.liveRefs now).map (·.object)).toFinset

/-- The paths of the ref files unlinked. -/
def unlinked : List (Bytes × Bytes) :=
  st.shards.flatMap (·.expired now) ++ (st.evicted ages maxBytes maxRefs now).map (·.path)

end LooseStore

/-- One pass of the reaper over the store at `dir`, and the number of refs it unlinked. -/
def reapDisk (ages : MtimeSort) (dir : Bytes) (st : LooseStore) (maxBytes maxRefs : ℕ) (now : ℤ) :
    LooseStore × ℕ :=
  if dir = [] ∨ maxBytes = 0 then (st, 0)
  else
    (st.prune (st.unlinked ages maxBytes maxRefs now)
      (sweeps (st.liveObjects ages maxBytes maxRefs now) now),
      (st.unlinked ages maxBytes maxRefs now).length)

/-! ## What the caps take -/

variable {ages : MtimeSort} {maxBytes maxRefs : ℕ} {now : ℤ} {refs : List RefInfo} {r : RefInfo}

/-- The byte cap takes a ref when it and whatever is not older, in the order of
    the ages, is over the cap, and so is every larger part of the store. -/
def byteCapTakes (ages : MtimeSort) (maxBytes : ℕ) (refs : List RefInfo) (r : RefInfo) : Prop :=
  OverCap (toInt64 maxBytes) (·.bytes) (ages.sort refs) r

instance : DecidablePred (byteCapTakes ages maxBytes refs) :=
  fun r => inferInstanceAs (Decidable (OverCap _ _ _ r))

/-- The exchange refs the byte cap leaves, in the order of the vector. -/
def exchangeLeft (ages : MtimeSort) (maxBytes : ℕ) (refs : List RefInfo) : List RefInfo :=
  (if toInt64 maxBytes < (refs.map (·.bytes)).sum then ages.sort refs else refs).filter
    fun r => r.exchange ∧ ¬byteCapTakes ages maxBytes refs r

/-- The exchange refs the byte cap leaves, by age. -/
def exchangeAges (ages : MtimeSort) (maxBytes : ℕ) (refs : List RefInfo) : List RefInfo :=
  ages.sort (exchangeLeft ages maxBytes refs)

/-- The cap on exchange refs takes one when there are more than `maxRefs` from it on, in the order of the ages. -/
def refCapTakes (ages : MtimeSort) (maxBytes maxRefs : ℕ) (refs : List RefInfo) (r : RefInfo) : Prop :=
  0 < maxRefs ∧ r ∈ exchangeAges ages maxBytes refs ∧
    OverCap maxRefs (fun _ => 1) (exchangeAges ages maxBytes refs) r

theorem sum_bytes_sort (ages : MtimeSort) (refs : List RefInfo) :
    ((ages.sort refs).map (·.bytes)).sum = (refs.map (·.bytes)).sum :=
  ((ages.perm refs).map _).sum_eq

/-- Under the cap, it takes nothing. -/
theorem not_byteCapTakes (hle : (refs.map (·.bytes)).sum ≤ toInt64 maxBytes) (hr : r ∈ refs) :
    ¬byteCapTakes ages maxBytes refs r := by
  intro ho
  have := ho _ ((mem_tails _ _).2 suffix_rfl) ((ages.perm refs).mem_iff.2 hr)
  rw [sum_bytes_sort] at this
  exact absurd this (Int.not_lt.2 hle)

theorem mem_evictBytes_iff (ages : MtimeSort) (maxBytes : ℕ) (hnd : refs.Nodup) (r : RefInfo) :
    r ∈ (evictBytes ages maxBytes refs).1 ↔ r ∈ refs ∧ byteCapTakes ages maxBytes refs r := by
  rw [evictBytes]
  split
  case isTrue =>
    rw [← sum_bytes_sort ages, mem_dropOver_iff ((ages.perm refs).nodup_iff.2 hnd), (ages.perm refs).mem_iff]
    rfl
  case isFalse hle =>
    simp only [not_mem_nil, false_iff, not_and]
    exact not_byteCapTakes (Int.not_lt.1 hle)

/-- The exchange refs among those left by the byte cap. -/
theorem filter_evictBytes (hnd : refs.Nodup) :
    (evictBytes ages maxBytes refs).2.filter (·.exchange) = exchangeLeft ages maxBytes refs := by
  have hmem := mem_evictBytes_iff ages maxBytes hnd
  rw [evictBytes] at hmem ⊢
  rw [exchangeLeft]
  split
  case isTrue hlt =>
    simp only [hlt, if_true] at hmem
    have hap := dropOver_append (toInt64 maxBytes) (·.bytes) (refs.map (·.bytes)).sum (ages.sort refs)
    have hnd' : (ages.sort refs).Nodup := (ages.perm refs).nodup_iff.2 hnd
    generalize dropOver (toInt64 maxBytes) (·.bytes) (refs.map (·.bytes)).sum (ages.sort refs) = d at hmem hap ⊢
    rw [← hap] at hnd' ⊢
    have hds := disjoint_of_nodup_append hnd'
    have hkp : ∀ r ∈ d.2, ¬byteCapTakes ages maxBytes refs r := fun r hr ho =>
      hds ((hmem r).2 ⟨(ages.perm refs).mem_iff.1 (hap ▸ mem_append_right _ hr), ho⟩) hr
    have hgn : d.1.filter (fun r => r.exchange ∧ ¬byteCapTakes ages maxBytes refs r) = [] :=
      filter_eq_nil_iff.2 fun r hr => by simp [((hmem r).1 hr).2]
    rw [filter_append, hgn, nil_append]
    exact filter_congr fun r hr => by simp [hkp r hr]
  case isFalse hle => exact filter_congr fun r hr => by simp [not_byteCapTakes (Int.not_lt.1 hle) hr]

theorem exchangeAges_nodup (hnd : refs.Nodup) : (exchangeAges ages maxBytes refs).Nodup := by
  refine (ages.perm _).nodup_iff.2 (List.Nodup.filter _ ?_)
  split
  · exact (ages.perm refs).nodup_iff.2 hnd
  · exact hnd

theorem mem_evictExchange_iff (hnd : refs.Nodup) :
    r ∈ evictExchange ages maxRefs (evictBytes ages maxBytes refs).2 ↔ refCapTakes ages maxBytes maxRefs refs r := by
  have hlen : (exchangeAges ages maxBytes refs).length = (exchangeLeft ages maxBytes refs).length :=
    (ages.perm _).length_eq
  rw [evictExchange, filter_evictBytes hnd, refCapTakes,
    ← mem_dropOver_iff (exchangeAges_nodup hnd), ← take_eq_dropOver, hlen, ← exchangeAges]
  split
  case isTrue h =>
    simp only [Bool.and_eq_true, decide_eq_true_eq] at h
    simp only [h.1, true_and]
  case isFalse h =>
    simp only [Bool.and_eq_true, decide_eq_true_eq, not_and, not_lt] at h
    simp only [not_mem_nil, false_iff, not_and]
    intro hpos
    rw [Nat.sub_eq_zero_of_le (h hpos)]
    exact not_mem_nil

/-! ## The live refs -/

variable {st : LooseStore}

theorem mem_liveRefs : r ∈ st.liveRefs now ↔ ∃ s ∈ st.shards, ∃ f ∈ s.refs, f.toInfo now s.name = some r := by
  simp [liveRefs]

variable {f : RefFile} {shard : Bytes}

/-- The live ref of a file that is not expired and names an object. -/
theorem RefFile.toInfo_eq_some_iff :
    f.toInfo now shard = some r ↔ f.isExpired now = false ∧ f.parse.content ≠ [] ∧
      r = ⟨f.name, shard, f.parse.content, f.mtime, f.parse.bytes, f.parse.exchange⟩ := by
  rw [RefFile.toInfo]
  split
  case isTrue h => simp [h]
  rename_i h
  split
  case isTrue hc => simp [hc]
  case isFalse hc => simp [h, hc, eq_comm]

/-- No two live refs are of one file. -/
theorem liveRefs_nodup (st : LooseStore) (now : ℤ) : (st.liveRefs now).Nodup := by
  refine nodup_flatMap.2 ⟨fun s _ => ?_, ?_⟩
  · refine pairwise_filterMap.2 ((pairwise_map.1 s.refs_nodup).imp ?_)
    intro f g hne r hf r' hg e
    rw [RefFile.toInfo_eq_some_iff] at hf hg
    exact hne (RefInfo.mk.inj (hf.2.2.symm.trans (e.trans hg.2.2))).1
  · refine (pairwise_map.1 st.shards_nodup).imp fun {s s'} hne r hr hr' => hne ?_
    obtain ⟨f, _, hf⟩ := mem_filterMap.1 hr
    obtain ⟨g, _, hg⟩ := mem_filterMap.1 hr'
    rw [RefFile.toInfo_eq_some_iff] at hf hg
    have := hf.2.2.symm.trans hg.2.2
    exact (RefInfo.mk.inj this).2.1

variable {live : Finset (Bytes × Bytes)}

/-- Erasing the objects of the evicted refs one after the other. -/
theorem mem_foldl_erase {evicted : List RefInfo} {x : Bytes × Bytes} :
    x ∈ evicted.foldl (fun live r => live.erase r.object) live ↔ x ∈ live ∧ ∀ r ∈ evicted, r.object ≠ x := by
  induction evicted generalizing live with
  | nil => simp
  | cons r evicted ih =>
    rw [foldl_cons, ih, Finset.mem_erase, forall_mem_cons]
    tauto

/-! ## Survival -/

/-- The refs the caps take, of those live at `now`. -/
def LooseStore.CapsTake (st : LooseStore) (ages : MtimeSort) (maxBytes maxRefs : ℕ) (now : ℤ)
    (r : RefInfo) : Prop :=
  byteCapTakes ages maxBytes (st.liveRefs now) r ∨
    refCapTakes ages maxBytes maxRefs (st.liveRefs now) r

/-- The shard has an object of the content, past its grace period. -/
def LooseStore.Sweepable (st : LooseStore) (now : ℤ) (shard content : Bytes) : Prop :=
  ∃ o, st.HasObject shard o ∧ o.name = objectName content ∧ o.grace ≤ now - o.mtime

/-- The refs evicted are the live refs the caps take. -/
theorem mem_evicted_iff : r ∈ st.evicted ages maxBytes maxRefs now ↔
    r ∈ st.liveRefs now ∧ st.CapsTake ages maxBytes maxRefs now r := by
  have hnd := liveRefs_nodup st now
  rw [evicted, mem_append, mem_evictBytes_iff ages maxBytes hnd, mem_evictExchange_iff hnd, CapsTake]
  constructor
  · rintro (⟨hr, hb⟩ | he)
    · exact ⟨hr, .inl hb⟩
    -- a ref the second cap takes is one of those the first cap leaves
    have hr := mem_of_mem_filter ((ages.perm _).mem_iff.1 he.2.1)
    refine ⟨?_, .inr he⟩
    split at hr
    · exact (ages.perm _).mem_iff.1 hr
    · exact hr
  · rintro ⟨hr, hb | he⟩
    · exact .inl ⟨hr, hb⟩
    · exact .inr he

variable {unlinked : List (Bytes × Bytes)} {swept : Bytes → ObjectFile → Bool}

theorem LooseStore.hasRef_prune :
    (st.prune unlinked swept).HasRef shard f ↔ st.HasRef shard f ∧ (shard, f.name) ∉ unlinked := by
  simp only [HasRef, prune, mem_map, exists_exists_and_eq_and, Shard.prune, mem_filter,
    Bool.not_eq_eq_eq_not, Bool.not_true, decide_eq_false_iff_not]
  constructor
  · rintro ⟨s, hs, rfl, hf, hu⟩
    exact ⟨⟨s, hs, rfl, hf⟩, hu⟩
  · rintro ⟨⟨s, hs, rfl, hf⟩, hu⟩
    exact ⟨s, hs, rfl, hf, hu⟩

variable {o : ObjectFile}

theorem LooseStore.hasObject_prune :
    (st.prune unlinked swept).HasObject shard o ↔ st.HasObject shard o ∧ swept shard o = false := by
  simp only [HasObject, prune, mem_map, exists_exists_and_eq_and, Shard.prune,
    mem_filter, Bool.not_eq_eq_eq_not, Bool.not_true]
  constructor
  · rintro ⟨s, hs, rfl, ho, hu⟩
    exact ⟨⟨s, hs, rfl, ho⟩, hu⟩
  · rintro ⟨⟨s, hs, rfl, ho⟩, hu⟩
    exact ⟨s, hs, rfl, ho, hu⟩

/-- Whether the sweep removes the object of a content. -/
theorem sweeps_objectName {content : Bytes} (ho : o.name = objectName content) (hc : content ≠ []) :
    sweeps live now shard o = true ↔ (shard, content) ∉ live ∧ o.grace ≤ now - o.mtime := by
  have hlen : o.name.length = content.length + 4 := by rw [ho, objectName, length_append]; rfl
  have hob : 4 < o.name.length ∧ ascii ".vrc" <:+ o.name :=
    ⟨by have := length_pos_iff.2 hc; omega, ho ▸ suffix_append _ _⟩
  have htk : o.name.take (o.name.length - 4) = content := by
    rw [hlen, Nat.add_sub_cancel, ho, objectName, take_left]
  simp only [sweeps, hob, htk, not_true_eq_false, and_false, if_false, true_and, and_self]
  split
  case isTrue h => simp [h]
  case isFalse h => simp [h]

/-- A ref without content names no object the sweep removes. -/
theorem sweeps_objectName_nil (ho : o.name = objectName []) : sweeps live now shard o = false := by
  have h : ¬ascii ".tmp-" <:+: o.name ∧ ¬(4 < o.name.length ∧ ascii ".vrc" <:+ o.name) := by
    rw [ho]
    decide
  simp [sweeps, h]

/-- The files unlinked at their expiry. -/
theorem mem_expired {name : Bytes} :
    (shard, name) ∈ st.shards.flatMap (·.expired now) ↔
      ∃ f, st.HasRef shard f ∧ f.name = name ∧ f.isExpired now = true := by
  simp only [Shard.expired, mem_flatMap, mem_map, mem_filter, Prod.mk.injEq, HasRef]
  constructor
  · rintro ⟨s, hs, f, ⟨hf, he⟩, rfl, rfl⟩
    exact ⟨f, ⟨s, hs, rfl, hf⟩, rfl, he⟩
  · rintro ⟨f, ⟨s, hs, rfl, hf⟩, rfl, he⟩
    exact ⟨s, hs, f, ⟨hf, he⟩, rfl, rfl⟩

/-- Shards and the ref files of one are told apart by their names. -/
theorem LooseStore.HasRef.eq_of_name {g : RefFile}
    (hf : st.HasRef shard f) (hg : st.HasRef shard g) (e : f.name = g.name) : f = g := by
  obtain ⟨s, hs, rfl, hf⟩ := hf
  obtain ⟨s', hs', hss, hg⟩ := hg
  obtain rfl := inj_on_of_nodup_map st.shards_nodup hs' hs hss
  exact inj_on_of_nodup_map s'.refs_nodup hf hg e

/-- The ref files unlinked: those expired, and those the caps take. -/
theorem mem_unlinked_iff (hf : st.HasRef shard f) :
    (shard, f.name) ∈ st.unlinked ages maxBytes maxRefs now ↔
      f.isExpired now = true ∨ ∃ r, f.toInfo now shard = some r ∧ st.CapsTake ages maxBytes maxRefs now r := by
  rw [unlinked, mem_append, mem_expired]
  refine or_congr ⟨?_, fun he => ⟨f, hf, rfl, he⟩⟩ ?_
  · rintro ⟨g, hg, hn, he⟩
    rwa [hf.eq_of_name hg hn.symm]
  simp only [mem_map, mem_evicted_iff, mem_liveRefs]
  constructor
  · rintro ⟨r, ⟨⟨s, hs, g, hg, hi⟩, ht⟩, hp⟩
    obtain ⟨he, hc, rfl⟩ := RefFile.toInfo_eq_some_iff.1 hi
    obtain ⟨rfl, hn⟩ := Prod.mk.inj hp
    obtain rfl := hf.eq_of_name ⟨s, hs, rfl, hg⟩ hn.symm
    exact ⟨_, hi, ht⟩
  · rintro ⟨r, hi, ht⟩
    obtain ⟨s, hs, rfl, hg⟩ := hf
    refine ⟨r, ⟨⟨s, hs, f, hg, hi⟩, ht⟩, ?_⟩
    obtain ⟨_, _, rfl⟩ := RefFile.toInfo_eq_some_iff.1 hi
    rfl

/-- An object stays live when a live ref names it and the caps take none that does. -/
theorem mem_liveObjects_iff {x : Bytes × Bytes} :
    x ∈ st.liveObjects ages maxBytes maxRefs now ↔ (∃ r ∈ st.liveRefs now, r.object = x) ∧
      ∀ r ∈ st.liveRefs now, st.CapsTake ages maxBytes maxRefs now r → r.object ≠ x := by
  simp only [liveObjects, mem_foldl_erase, mem_toFinset, mem_map, mem_evicted_iff, and_imp]

/-- The live ref of a file that the pass does not unlink. -/
theorem exists_live_of_stays (hf : st.HasRef shard f) (hc : f.parse.content ≠ [])
    (hs : (shard, f.name) ∉ st.unlinked ages maxBytes maxRefs now) :
    ∃ r ∈ st.liveRefs now, r.object = (shard, f.parse.content) ∧ ¬st.CapsTake ages maxBytes maxRefs now r := by
  rw [mem_unlinked_iff hf, not_or] at hs
  obtain ⟨s, hs', rfl, hg⟩ := hf
  have hi : f.toInfo now s.name = some _ := RefFile.toInfo_eq_some_iff.2 ⟨Bool.eq_false_of_not_eq_true hs.1, hc, rfl⟩
  exact ⟨_, mem_liveRefs.2 ⟨s, hs', f, hg, hi⟩, rfl, fun ht => hs.2 ⟨_, hi, ht⟩⟩

/-- The file of a live ref the caps do not take stays. -/
theorem exists_stays_of_live (hr : r ∈ st.liveRefs now) (ht : ¬st.CapsTake ages maxBytes maxRefs now r) :
    ∃ f, st.HasRef r.shard f ∧ f.parse.content = r.content ∧ r.content ≠ [] ∧
      (r.shard, f.name) ∉ st.unlinked ages maxBytes maxRefs now := by
  obtain ⟨s, hs, f, hf, hi⟩ := mem_liveRefs.1 hr
  have hhs : st.HasRef s.name f := ⟨s, hs, rfl, hf⟩
  obtain ⟨hne, hc, hreq⟩ := RefFile.toInfo_eq_some_iff.1 hi
  have hst : (s.name, f.name) ∉ st.unlinked ages maxBytes maxRefs now := by
    rw [mem_unlinked_iff hhs]
    rintro (he | ⟨r', hi', ht'⟩)
    · exact Bool.false_ne_true (hne.symm.trans he)
    · obtain rfl := Option.some.inj (hi.symm.trans hi')
      exact ht ht'
  subst hreq
  exact ⟨f, hhs, rfl, hc, hst⟩

/-- A pass of the reaper keeps the objects of the refs that survive it if and only if, of the live refs that share an
    object past its grace period, the caps take all or none. -/
theorem reapDisk_keepsObjects_iff (ages : MtimeSort) (dir : Bytes) (st : LooseStore) (maxBytes maxRefs : ℕ) (now : ℤ) :
    st.KeepsObjects (reapDisk ages dir st maxBytes maxRefs now).1 ↔
      dir = [] ∨ maxBytes = 0 ∨
        ∀ r ∈ st.liveRefs now, ∀ r' ∈ st.liveRefs now, r.object = r'.object →
          st.Sweepable now r.shard r.content →
            st.CapsTake ages maxBytes maxRefs now r → st.CapsTake ages maxBytes maxRefs now r' := by
  rw [reapDisk]
  split
  case isTrue h => exact iff_of_true (fun _ _ _ _ _ ho => ho) (or_assoc.1 (.inl h))
  rename_i h
  obtain ⟨hdir, hmax⟩ := not_or.1 h
  simp only [hdir, hmax, false_or]
  constructor
  · -- a ref left behind by one the caps take would lose its object
    intro hk r hr r' hr' hob ⟨o, ho, hnm, hgr⟩ ht
    by_contra ht'
    obtain ⟨hsh, hcnt⟩ := Prod.mk.inj hob
    obtain ⟨f, hf, hfc, hc, hst⟩ := exists_stays_of_live hr' ht'
    rw [hcnt] at hnm
    have hkp := hk r'.shard f (hasRef_prune.2 ⟨hf, hst⟩) o (hfc ▸ hnm)
      (hsh ▸ ho)
    have hnt : (r'.shard, r'.content) ∉ st.liveObjects ages maxBytes maxRefs now := fun hl =>
      (mem_liveObjects_iff.1 hl).2 r hr ht hob
    have hsw := (sweeps_objectName hnm hc).2 ⟨hnt, hgr⟩
    exact Bool.false_ne_true ((hasObject_prune.1 hkp).2.symm.trans hsw)
  · intro hcn shard f hf o hnm ho
    obtain ⟨hf, hst⟩ := hasRef_prune.1 hf
    refine hasObject_prune.2 ⟨ho, ?_⟩
    by_cases hc : f.parse.content = []
    · exact sweeps_objectName_nil (hc ▸ hnm)
    -- the surviving ref keeps the object live, unless one that shares it is taken
    obtain ⟨r', hr', hob', ht'⟩ := exists_live_of_stays hf hc hst
    rw [← Bool.not_eq_true, sweeps_objectName hnm hc, mem_liveObjects_iff]
    rintro ⟨hnt, hgr⟩
    refine hnt ⟨⟨r', hr', hob'⟩, fun r hr ht hob => ht' ?_⟩
    obtain ⟨rfl, hcnt⟩ := Prod.mk.inj hob
    exact hcn r hr r' hr' (hob.trans hob'.symm) ⟨o, ho, hcnt ▸ hnm, hgr⟩ ht

/-- Insertion sort is a sort by age. -/
def MtimeSort.insertion : MtimeSort where
  sort := List.insertionSort fun a b => a.mtime ≤ b.mtime
  perm := perm_insertionSort _
  sorted l := by
    have : Std.Total fun a b : RefInfo => a.mtime ≤ b.mtime := ⟨fun a b => Int.le_total _ _⟩
    have : IsTrans RefInfo fun a b => a.mtime ≤ b.mtime := ⟨fun _ _ _ => Int.le_trans⟩
    exact pairwise_insertionSort _ l

/-- Two refs of `10` bytes that name one object. -/
def sharingStore : LooseStore where
  shards :=
    [{ name := ascii "shard"
       refs := [⟨ascii "a.ref", ascii "content=c\nbytes=10\n", 0⟩,
         ⟨ascii "b.ref", ascii "content=c\nbytes=10\n", 5⟩]
       objects := [⟨ascii "c.vrc", 5⟩]
       refs_nodup := by decide
       objects_nodup := by decide }]
  shards_nodup := by decide

/-- A byte cap of `10` evicts the older of two refs that share an object, and the
    sweep takes the object from the other. -/
theorem reapDisk_orphans_shared :
    (reapDisk .insertion (ascii "d") sharingStore 10 0 100).1.HasRef (ascii "shard")
        ⟨ascii "b.ref", ascii "content=c\nbytes=10\n", 5⟩ ∧
      ¬sharingStore.KeepsObjects (reapDisk .insertion (ascii "d") sharingStore 10 0 100).1 := by
  refine ⟨by decide, fun h => ?_⟩
  have := h (ascii "shard") ⟨ascii "b.ref", ascii "content=c\nbytes=10\n", 5⟩ (by decide)
    ⟨ascii "c.vrc", 5⟩ (by decide) (by decide)
  exact absurd this (by decide)

end Vgi
