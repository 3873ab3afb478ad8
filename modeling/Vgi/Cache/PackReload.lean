import Vgi.Cache.PackFiles
import Vgi.Lib.Assoc

/-!
# A store that is loaded again

A process persists records to a shard, one call after the other (`persistAll`), and then a new
store is loaded from the files. Sidecars may have been removed in between, so that packs are
loaded from their sidecars or by a scan.

The live index has the record of the last call for each key. The load does not: where it finds
several records for a key it keeps the one that expires last, the first one it reads among
equals (`reload_resolves`). So a record that was superseded comes back if it does not expire
before the one that superseded it (`reload_resurrects`).
-/

namespace Vgi

open List Option AList

namespace PackStore

open Fallible

variable {cfg : PackConfig}

/-! ## Where nothing fails -/

section Calm

variable {e : PackEnv}

theorem nextFault_calm (h : e.faults = []) : nextFault e = (some .ok, e) := by
  obtain ⟨shard, ageSeq, faults⟩ := e
  subst h
  rfl

theorem access_calm (h : e.faults = []) : access e = (some (), e) := by
  rw [access, bind_of_some (nextFault_calm h)]
  rfl

theorem openRead_calm (h : e.faults = []) (name : Bytes) : openRead name e = (e.shard.files.lookup name, e) := by
  rw [openRead, bind_of_some (access_calm h), get_then]
  rcases e.shard.files.lookup name with _ | content <;> rfl

theorem attempt_eq {α : Type} (c : PackM α) (e : PackEnv) : attempt c e = (some (c e).1, (c e).2) := by
  rcases h : c e with ⟨_ | a, e'⟩
  · rw [attempt, catching, bind_of_none h]
    rfl
  · rw [attempt, catching, bind_of_some h]
    rfl

theorem readFileAll_calm (h : e.faults = []) (name : Bytes) :
    readFileAll name e = (some (e.shard.files.lookup name), e) := by
  rw [readFileAll, attempt_eq, openRead_calm h]

/-- The environment with other files. -/
def withFiles (files : Files) (e : PackEnv) : PackEnv := { e with shard := { e.shard with files := files } }

/-- The environment with another state. -/
def withState (st : ShardState) (e : PackEnv) : PackEnv := { e with shard := { e.shard with st := st } }

theorem modifyState_bind {α : Type} (f : ShardState → ShardState) (k : Unit → PackM α) (e : PackEnv) :
    (modifyState f >>= k) e = k () (withState (f e.shard.st) e) := rfl

theorem writeVidx_calm (h : e.faults = []) (base : Bytes) (packSize : ℕ) :
    writeVidx cfg base packSize e = (some (), withFiles
      (e.shard.files.insert (vidxOf base) (vidxBytes packSize (liveIn cfg e.shard.st base))) e) := by
  have hwr b : writeFileAtomic (vidxOf base) b e = (some (), withFiles (e.shard.files.insert (vidxOf base) b) e) := by
    rw [writeFileAtomic, bind_of_some (nextFault_calm h)]
    rfl
  change catching (writeFileAtomic (vidxOf base) _) (pure ()) e = _
  rw [catching, hwr]

theorem closeWriter_calm (h : e.faults = []) :
    closeWriter cfg e = (some (), withState { e.shard.st with writer := none } (withFiles
      (e.shard.files.insert (vidxOf e.shard.st.writerPack) (vidxBytes e.shard.st.writerSize
        (liveIn cfg e.shard.st e.shard.st.writerPack))) e)) := by
  have hsn : attempt access e = (some (some ()), e) := by rw [attempt_eq, access_calm h]
  rw [closeWriter, get_then, bind_of_some hsn, bind_of_some (writeVidx_calm h _ _)]
  rfl

theorem openCreate_calm (h : e.faults = []) {name : Bytes} (hnm : e.shard.files.lookup name = none) :
    openCreate name e = (some (), withFiles (e.shard.files.insert name []) e) := by
  rw [openCreate, bind_of_some (access_calm h)]
  change (some (), withFiles (if _ then _ else _) e) = _
  rw [hnm]
  rfl

theorem writeAt_calm (h : e.faults = []) (name : Bytes) (pos : ℕ) (b : Bytes) :
    writeAt name pos b e = (some (min b.length (maxFileBytes - pos)),
      withFiles (writeFile name pos (b.take (min b.length (maxFileBytes - pos))) e.shard.files) e) := by
  rw [writeAt, bind_of_some (nextFault_calm h)]
  rfl

end Calm

/-! ## What was persisted -/

/-- The calls of `Persist` in their order, each with what it entered into the index. -/
abbrev Journal := List (PackRecord × Loc)

variable {js : Journal} {s : PackShard} {base k : Bytes}

/-- What was persisted to a pack. -/
def inPack (js : Journal) (base : Bytes) : Journal := js.filter fun x => x.2.pack = base

/-- What was persisted for a key. -/
def ofKey (js : Journal) (k : Bytes) : Journal := js.filter fun x => x.1.keyfp = k

/-- The bytes of a pack. -/
def contentOf (js : Journal) (base : Bytes) : Bytes := (inPack js base).flatMap fun x => x.1.buildRecord

/-- What the files say of the calls: packs hold the records one after the other, and a sidecar has what its pack was
    last given for each key. -/
structure OnDisk (js : Journal) (files : Files) : Prop where
  pack : ∀ {base c}, isVpack base → files.lookup base = some c → c = contentOf js base ∧ c.length < 2 ^ 63
  placed : ∀ base, (inPack js base).map (fun x => (x.2.offset, x.1)) = layout 0 ((inPack js base).map (·.1))
  stored : ∀ x ∈ js, isVpack x.2.pack ∧ (files.lookup x.2.pack).isSome ∧
    x.2.recLen = x.1.buildRecord.length
  sidecar : ∀ {base idx}, isVpack base → files.lookup (vidxOf base) = some idx →
    ∃ live, idx = vidxBytes (contentOf js base).length live ∧ (live.map (·.1)).Nodup ∧
      ∀ x, x ∈ live ↔ (ofKey (inPack js base) x.1).getLast?.map (·.2) = some x.2

/-- The shard and its files after the calls: the index has the last one of each key. -/
structure Stored (cfg : PackConfig) (js : Journal) (s : PackShard) : Prop extends OnDisk js s.files where
  fresh : s.st.loaded = false → s.files = ∅
  index : ∀ k, s.st.index.lookup k = (ofKey js k).getLast?.map (·.2)
  unused : ∀ n, s.st.writerSeq ≤ n → s.files.lookup (packName cfg n) = none ∧
    s.files.lookup (vidxOf (packName cfg n)) = none

/-- The writer is open, at the end of the pack that was written to last. -/
structure Writing (js : Journal) (s : PackShard) : Prop where
  writer : s.st.writer = some s.st.writerSize
  vpack : isVpack s.st.writerPack
  content : s.files.lookup s.st.writerPack = some (contentOf js s.st.writerPack)
  size : s.st.writerSize = (contentOf js s.st.writerPack).length
  noSidecar : s.files.lookup (vidxOf s.st.writerPack) = none
  last : ∃ js₁, js = js₁ ++ inPack js s.st.writerPack ∧ ∀ x ∈ js₁, x.2.pack ≠ s.st.writerPack

variable {x : PackRecord × Loc}

theorem mem_inPack : x ∈ inPack js base ↔ x ∈ js ∧ x.2.pack = base := by
  rw [inPack, mem_filter, decide_eq_true_eq]

theorem mem_ofKey : x ∈ ofKey js k ↔ x ∈ js ∧ x.1.keyfp = k := by
  rw [ofKey, mem_filter, decide_eq_true_eq]

/-- Nothing was persisted to a pack that is not there. -/
theorem Stored.inPack_eq_nil (hs : Stored cfg js s) (h : s.files.lookup base = none) : inPack js base = [] := by
  refine eq_nil_iff_forall_not_mem.2 fun x hx => ?_
  obtain ⟨hmem, rfl⟩ := mem_inPack.1 hx
  have hsm := (hs.stored x hmem).2.1
  rw [h] at hsm
  cases hsm

theorem inPack_append (js js' : Journal) (base : Bytes) :
    inPack (js ++ js') base = inPack js base ++ inPack js' base := filter_append ..

theorem ofKey_append (js js' : Journal) (k : Bytes) : ofKey (js ++ js') k = ofKey js k ++ ofKey js' k :=
  filter_append ..

theorem inPack_singleton_self (x : PackRecord × Loc) : inPack [x] x.2.pack = [x] := by
  simp [inPack]

theorem inPack_singleton_of_ne (h : base ≠ x.2.pack) : inPack [x] base = [] := by
  simp [inPack, h.symm]

theorem layout_append (pos : ℕ) (rs rs' : List PackRecord) :
    layout pos (rs ++ rs') = layout pos rs ++ layout (pos + (rs.flatMap PackRecord.buildRecord).length) rs' := by
  induction rs generalizing pos with
  | nil => rfl
  | cons r rs ih => rw [cons_append, layout, ih, layout, flatMap_cons, length_append, Nat.add_assoc, cons_append]

theorem Writing.ne_of_unused (hw : Writing js s) (h : s.files.lookup base = none) : base ≠ s.st.writerPack := by
  rintro rfl
  rw [hw.content] at h
  cases h

/-- The last one for a key in the pack of the writer is the last one for the key of all. -/
theorem Writing.getLast?_ofKey (hw : Writing js s) {loc : Loc} :
    (ofKey (inPack js s.st.writerPack) k).getLast?.map (·.2) = some loc ↔
      (ofKey js k).getLast?.map (·.2) = some loc ∧ loc.pack = s.st.writerPack := by
  obtain ⟨js₁, hjs, hot⟩ := hw.last
  have hkey : ofKey js k = ofKey js₁ k ++ ofKey (inPack js s.st.writerPack) k := by
    conv_lhs => rw [hjs]
    exact ofKey_append _ _ _
  rw [hkey, getLast?_append]
  rcases hls : (ofKey (inPack js s.st.writerPack) k).getLast? with _ | x
  · rw [none_or, map_none]
    refine ⟨nofun, fun ⟨h, hpc⟩ => ?_⟩
    obtain ⟨x, hx, rfl⟩ := map_eq_some_iff.1 h
    exact absurd hpc (hot x (mem_ofKey.1 (mem_of_getLast? hx)).1)
  · have hmem := mem_inPack.1 (mem_ofKey.1 (mem_of_getLast? hls)).1
    rw [some_or, map_some, Option.some.injEq]
    exact ⟨fun h => ⟨h, h ▸ hmem.2⟩, fun h => h.1⟩

/-! ## Persisting -/

variable {e : PackEnv}

theorem ensureLoaded_calm (h : e.faults = []) (hs : Stored cfg js e.shard) :
    ensureLoaded cfg e = (some (), withState { e.shard.st with loaded := true } e) := by
  rw [ensureLoaded, get_then]
  rcases hld : e.shard.st.loaded with _ | _
  · have hls : access (withState { e.shard.st with loaded := true } e) = (some (), _) := access_calm h
    have hno : vpacks e.shard.files = [] := by
      rw [hs.fresh hld]
      exact mergeSort_nil
    rw [if_neg (by simp), modifyState_bind, bind_of_some hls, hno]
    rfl
  · have hsm : withState { e.shard.st with loaded := true } e = e := by
      rw [← hld]
      rfl
    rw [if_pos rfl, hsm]
    rfl

/-- The pack of the writer is closed, with its sidecar. -/
theorem Stored.closeWriter (hs : Stored cfg js s) (hw : Writing js s) (hld : s.st.loaded) :
    Stored cfg js ⟨{ s.st with writer := none }, s.files.insert (vidxOf s.st.writerPack)
      (vidxBytes s.st.writerSize (liveIn cfg s.st s.st.writerPack)), s.log⟩ := by
  have hpc {b : Bytes} hb idx : (s.files.insert (vidxOf s.st.writerPack) idx).lookup b = s.files.lookup b :=
    lookup_insert_ne (vidxOf_ne hb)
  refine ⟨⟨fun {b c} hb hc => ?_, hs.placed, fun x hx => ?_, fun {b idx} hb hidx => ?_⟩,
    fun h => absurd hld (ne_true_of_eq_false h), hs.index, fun n hn => ?_⟩
  · rw [hpc hb] at hc
    exact hs.pack hb hc
  · obtain ⟨hvp, hsm, hlen⟩ := hs.stored x hx
    exact ⟨hvp, by rwa [hpc hvp], hlen⟩
  · rcases lookup_insert_eq_some hidx with ⟨heq, rfl⟩ | ⟨-, hidx⟩
    · obtain rfl := vidxOf_inj hb hw.vpack heq
      refine ⟨_, by rw [hw.size], nodup_liveIn _ _, fun x => ?_⟩
      rw [mem_liveIn, hw.getLast?_ofKey, hs.index]
    · exact hs.sidecar hb hidx
  · obtain ⟨hnm, hvd⟩ := hs.unused n hn
    rw [hpc (isVpack_packName n),
      lookup_insert_ne fun h => hw.ne_of_unused hnm (vidxOf_inj (isVpack_packName n) hw.vpack h)]
    exact ⟨hnm, hvd⟩

/-- The state of the writer after a new pack was made. -/
def opened (cfg : PackConfig) (st : ShardState) : ShardState :=
  { st with
    writerSeq := (st.writerSeq + 1) % 2 ^ 32
    writer := some 0
    writerPack := packName cfg st.writerSeq
    writerSize := 0
    packs := st.packs.insert (packName cfg st.writerSeq) ⟨true, 0⟩ }

theorem openWriter_calm (h : e.faults = []) (hs : Stored cfg js e.shard) :
    openWriter cfg e = (some (), withState (opened cfg e.shard.st)
      (withFiles (e.shard.files.insert (packName cfg e.shard.st.writerSeq) []) e)) := by
  have htk : takeName cfg e = (some (packName cfg e.shard.st.writerSeq),
    withState { e.shard.st with writerSeq := (e.shard.st.writerSeq + 1) % 2 ^ 32 } e) := rfl
  have hcr := openCreate_calm (e := withState { e.shard.st with writerSeq := (e.shard.st.writerSeq + 1) % 2 ^ 32 } e) h
    (hs.unused _ le_rfl).1
  rw [openWriter, bind_of_some (access_calm h), bind_of_some htk, bind_of_some hcr]
  rfl

/-- A new pack is made. -/
theorem Stored.openWriter (hs : Stored cfg js s) (hld : s.st.loaded) (hbd : s.st.writerSeq + 1 < 2 ^ 32) :
    Stored cfg js ⟨opened cfg s.st, s.files.insert (packName cfg s.st.writerSeq) [], s.log⟩ ∧
      Writing js ⟨opened cfg s.st, s.files.insert (packName cfg s.st.writerSeq) [], s.log⟩ := by
  obtain ⟨hnm, hvd⟩ := hs.unused _ le_rfl
  have hnx : (s.st.writerSeq + 1) % 2 ^ 32 = s.st.writerSeq + 1 := Nat.mod_eq_of_lt hbd
  have hem : inPack js (packName cfg s.st.writerSeq) = [] := hs.inPack_eq_nil hnm
  have hvd' b : (s.files.insert (packName cfg s.st.writerSeq) []).lookup (vidxOf b) = s.files.lookup (vidxOf b) :=
    lookup_insert_ne (vidxOf_ne (isVpack_packName _)).symm
  refine ⟨⟨⟨fun {b c} hb hc => ?_, hs.placed, fun x hx => ?_, fun {b idx} hb hidx => ?_⟩,
    fun h => absurd hld (ne_true_of_eq_false h), hs.index, fun n hn => ?_⟩, ?_⟩
  · rcases lookup_insert_eq_some hc with ⟨rfl, rfl⟩ | ⟨-, hc⟩
    · rw [contentOf, hem]
      exact ⟨rfl, by norm_num⟩
    · exact hs.pack hb hc
  · obtain ⟨hvp, hsm, hlen⟩ := hs.stored x hx
    have hne : x.2.pack ≠ packName cfg s.st.writerSeq := by
      intro h
      rw [h, hnm] at hsm
      cases hsm
    exact ⟨hvp, by rwa [lookup_insert_ne hne], hlen⟩
  · rw [hvd'] at hidx
    exact hs.sidecar hb hidx
  · change (s.st.writerSeq + 1) % 2 ^ 32 ≤ n at hn
    rw [hnx] at hn
    have hne : packName cfg n ≠ packName cfg s.st.writerSeq := fun h => by
      have := packName_inj h
      omega
    rw [lookup_insert_ne hne, hvd']
    exact hs.unused n (by omega)
  · have hcn : contentOf js (packName cfg s.st.writerSeq) = [] := by rw [contentOf, hem]; rfl
    refine ⟨rfl, isVpack_packName _, ?_, ?_, ?_, js, ?_, fun x hx hpc => ?_⟩
    · exact (lookup_insert _).trans (congrArg some hcn.symm)
    · exact (congrArg List.length hcn).symm
    · rw [hvd']
      exact hvd
    · exact (append_nil js).symm.trans (congrArg (js ++ ·) hem.symm)
    · have hmem : x ∈ inPack js (packName cfg s.st.writerSeq) := mem_inPack.2 ⟨hx, hpc⟩
      rw [hem] at hmem
      cases hmem

theorem contentOf_append_self (js : Journal) (x : PackRecord × Loc) :
    contentOf (js ++ [x]) x.2.pack = contentOf js x.2.pack ++ x.1.buildRecord := by
  rw [contentOf, inPack_append, inPack_singleton_self, flatMap_append, flatMap_singleton]
  rfl

theorem inPack_append_of_ne (js : Journal) (h : base ≠ x.2.pack) : inPack (js ++ [x]) base = inPack js base := by
  rw [inPack_append, inPack_singleton_of_ne h, append_nil]

/-- What an append to the pack of the writer does. -/
structure Appends (s : PackShard) (r : PackRecord) (loc : Loc) (st : ShardState) : Prop where
  pack : loc.pack = s.st.writerPack
  offset : loc.offset = s.st.writerSize
  recLen : loc.recLen = r.buildRecord.length
  index : st.index = s.st.index.insert r.keyfp loc
  loaded : st.loaded = true
  writerSeq : st.writerSeq = s.st.writerSeq
  writerPack : st.writerPack = s.st.writerPack
  writerSize : st.writerSize = s.st.writerSize + r.buildRecord.length
  writer : st.writer = some st.writerSize

section Append

variable {r : PackRecord} {loc : Loc} {st : ShardState}

theorem Appends.contentOf_self (ha : Appends s r loc st) (js : Journal) :
    contentOf (js ++ [(r, loc)]) s.st.writerPack = contentOf js s.st.writerPack ++ r.buildRecord := by
  rw [← ha.pack]
  exact contentOf_append_self js (r, loc)

theorem Appends.inPack_of_ne (ha : Appends s r loc st) (js : Journal) (hb : base ≠ s.st.writerPack) :
    inPack (js ++ [(r, loc)]) base = inPack js base :=
  inPack_append_of_ne js (ha.pack.symm ▸ hb)

theorem Appends.inPack_self (ha : Appends s r loc st) (js : Journal) :
    inPack (js ++ [(r, loc)]) s.st.writerPack = inPack js s.st.writerPack ++ [(r, loc)] := by
  rw [inPack_append, ← ha.pack]
  exact congrArg _ (inPack_singleton_self (r, loc))

/-- A record is appended to the pack of the writer and entered. -/
theorem Stored.append (hs : Stored cfg js s) (hw : Writing js s) (ha : Appends s r loc st)
    (hlt : (contentOf js s.st.writerPack ++ r.buildRecord).length < 2 ^ 63) (log : List PackRecord) :
    Stored cfg (js ++ [(r, loc)])
      ⟨st, s.files.insert s.st.writerPack (contentOf js s.st.writerPack ++ r.buildRecord), log⟩ := by
  have hvd (b c : Bytes) : (s.files.insert s.st.writerPack c).lookup (vidxOf b) = s.files.lookup (vidxOf b) :=
    lookup_insert_ne (vidxOf_ne hw.vpack).symm
  refine ⟨⟨fun {b c} hb hc => ?_, fun b => ?_, fun x hx => ?_, fun {b idx} hb hidx => ?_⟩,
    fun h => absurd ha.loaded (ne_true_of_eq_false h), fun k => ?_, fun n hn => ?_⟩
  · rcases lookup_insert_eq_some hc with ⟨rfl, rfl⟩ | ⟨hne, hc⟩
    · rw [ha.contentOf_self]
      exact ⟨rfl, hlt⟩
    · rw [contentOf, ha.inPack_of_ne js hne]
      exact hs.pack hb hc
  · rcases eq_or_ne b s.st.writerPack with rfl | hne
    · rw [ha.inPack_self, map_append, map_append, layout_append, hs.placed, Nat.zero_add, flatMap_map]
      congr 1
      simp only [map_cons, map_nil, layout, ha.offset, hw.size, contentOf]
    · rw [ha.inPack_of_ne js hne]
      exact hs.placed b
  · rcases mem_append.1 hx with hx | hx
    · obtain ⟨hvp, hsm, hlen⟩ := hs.stored x hx
      refine ⟨hvp, ?_, hlen⟩
      rcases eq_or_ne x.2.pack s.st.writerPack with heq | hne
      · rw [heq, lookup_insert]
        rfl
      · rwa [lookup_insert_ne hne]
    · rw [mem_singleton.1 hx, ha.pack, lookup_insert]
      exact ⟨hw.vpack, rfl, ha.recLen⟩
  · rw [hvd] at hidx
    have hne : b ≠ s.st.writerPack := by
      rintro rfl
      rw [hw.noSidecar] at hidx
      cases hidx
    rw [contentOf, ha.inPack_of_ne js hne]
    exact hs.sidecar hb hidx
  · rw [ha.index, ofKey_append]
    rcases eq_or_ne k r.keyfp with rfl | hne
    · rw [lookup_insert]
      simp [ofKey]
    · rw [lookup_insert_ne hne, hs.index]
      simp [ofKey, hne.symm]
  · rw [ha.writerSeq] at hn
    obtain ⟨hnm, hun⟩ := hs.unused n hn
    rw [lookup_insert_ne (hw.ne_of_unused hnm), hvd]
    exact ⟨hnm, hun⟩

theorem Writing.append (hw : Writing js s) (ha : Appends s r loc st) (log : List PackRecord) :
    Writing (js ++ [(r, loc)])
      ⟨st, s.files.insert s.st.writerPack (contentOf js s.st.writerPack ++ r.buildRecord), log⟩ := by
  obtain ⟨js₁, hjs, hot⟩ := hw.last
  refine ⟨ha.writer, ?_, ?_, ?_, ?_, js₁, ?_, ?_⟩
  all_goals rw [ha.writerPack]
  · exact hw.vpack
  · rw [lookup_insert, ha.contentOf_self]
  · rw [ha.writerSize, ha.contentOf_self, length_append, hw.size]
  · rw [lookup_insert_ne (vidxOf_ne hw.vpack).symm]
    exact hw.noSidecar
  · rw [ha.inPack_self, ← append_assoc, ← hjs]
  · exact hot

end Append

section

variable (h : e.faults = []) (hs : Stored cfg js e.shard)

include h hs

theorem ensureWriter_calm (hw : Writing js e.shard ∨ e.shard.st.writer = none) (hld : e.shard.st.loaded)
    (hbd : e.shard.st.writerSeq + 1 < 2 ^ 32) (target need : ℕ) :
    ∃ e', ensureWriter cfg target need e = (some (), e') ∧ e'.faults = [] ∧ Stored cfg js e'.shard ∧
      Writing js e'.shard ∧ e'.shard.st.loaded ∧ e'.shard.st.writerSeq ≤ e.shard.st.writerSeq + 1 := by
  rw [ensureWriter, get_then]
  split
  · rename_i hsts
    rw [Bool.and_eq_true] at hsts
    refine ⟨e, rfl, h, hs, hw.resolve_right fun hno => ?_, hld, Nat.le_succ _⟩
    rw [hno] at hsts
    cases hsts.1
  have hnx : (e.shard.st.writerSeq + 1) % 2 ^ 32 ≤ e.shard.st.writerSeq + 1 := Nat.mod_le _ _
  split
  · rename_i hop
    have hw := hw.resolve_right fun hno => by
      rw [hno] at hop
      cases hop
    have hs' := hs.closeWriter hw hld
    obtain ⟨hst, hwr⟩ := hs'.openWriter hld hbd
    rw [bind_of_some (closeWriter_calm h)]
    exact ⟨_, openWriter_calm h hs', h, hst, hwr, hld, hnx⟩
  · obtain ⟨hst, hwr⟩ := hs.openWriter hld hbd
    exact ⟨_, openWriter_calm h hs, h, hst, hwr, hld, hnx⟩

/-- The state of the writer after so many bytes. -/
def advanced (n : ℕ) (st : ShardState) : ShardState := { st with writer := st.writer.map (· + n) }

/-- An append stops early only at the largest size of a file. -/
theorem writeAll_calm (hw : Writing js e.shard) (r : PackRecord) :
    (writeAll r.buildRecord e).1 = none ∨
      (contentOf js e.shard.st.writerPack ++ r.buildRecord).length < 2 ^ 63 ∧
        writeAll r.buildRecord e = (some (), withState (advanced r.buildRecord.length e.shard.st) (withFiles
          (e.shard.files.insert e.shard.st.writerPack (contentOf js e.shard.st.writerPack ++ r.buildRecord)) e)) := by
  have hwr := writeAt_calm h e.shard.st.writerPack e.shard.st.writerSize r.buildRecord
  have hlt := (hs.pack hw.vpack hw.content).2
  have hpos : e.shard.st.writer.getD 0 = e.shard.st.writerSize := by
    rw [hw.writer]
    rfl
  rw [writeAll, get_then, hpos, bind_of_some hwr, modifyState_bind]
  rcases Nat.lt_or_ge (maxFileBytes - e.shard.st.writerSize) r.buildRecord.length with hsh | hall
  · left
    rw [min_eq_right hsh.le, if_pos hsh]
    rfl
  · right
    rw [hw.size] at hall ⊢
    rw [min_eq_left hall, take_length, writeFile_end hw.content, if_neg (Nat.lt_irrefl _)]
    refine ⟨?_, rfl⟩
    rw [maxFileBytes] at hall
    rw [length_append]
    omega

theorem persist_calm (hw : Writing js e.shard ∨ e.shard.st.writer = none)
    (hbd : e.shard.st.writerSeq + 1 < 2 ^ 32) {r : PackRecord} {expiresUnix : Int64} {target : ℕ}
    {e' : PackEnv} (hpr : persist cfg r expiresUnix target e = (some true, e')) :
    ∃ loc, e'.faults = [] ∧ Stored cfg (js ++ [(r, loc)]) e'.shard ∧ Writing (js ++ [(r, loc)]) e'.shard ∧
      e'.shard.st.writerSeq ≤ e.shard.st.writerSeq + 1 ∧ e'.shard.st.index.lookup r.keyfp = some loc ∧
      loc.expiresUnix = expiresUnix := by
  let e₁ := withState { e.shard.st with loaded := true } e
  have hs₁ : Stored cfg js e₁.shard := { hs with fresh := nofun }
  have hw₁ : Writing js e₁.shard ∨ e₁.shard.st.writer = none := hw.imp_left fun hw => { hw with }
  obtain ⟨e₂, hen, h₂, hs₂, hw₂, hld₂, hseq₂⟩ :=
    ensureWriter_calm (e := e₁) h hs₁ hw₁ rfl hbd target r.buildRecord.length
  rw [persist, catching, bind_of_some (ensureLoaded_calm h hs), bind_of_some hen] at hpr
  rcases writeAll_calm h₂ hs₂ hw₂ r with hfl | ⟨hlt, hwr⟩
  · rw [bind_of_none (Prod.ext hfl rfl)] at hpr
    cases hpr
  rw [bind_of_some hwr] at hpr
  cases hpr
  have ha : Appends e₂.shard r _ (enter r expiresUnix (withState (advanced r.buildRecord.length e₂.shard.st)
      (withFiles (e₂.shard.files.insert e₂.shard.st.writerPack
        (contentOf js e₂.shard.st.writerPack ++ r.buildRecord)) e₂))).shard.st :=
    ⟨rfl, rfl, rfl, rfl, hld₂, rfl, rfl, rfl, ?_⟩
  · exact ⟨_, h₂, hs₂.append hw₂ ha hlt _, hw₂.append ha _, hseq₂, lookup_insert _, rfl⟩
  · change e₂.shard.st.writer.map _ = _
    rw [hw₂.writer]
    rfl

/-- A call of `Persist`. -/
structure Call where
  r : PackRecord
  expiresUnix : Int64
  target : ℕ

/-- The calls one after the other, each with what the index then has for its key; `none` if one
    of them does not succeed. -/
def persistAll (cfg : PackConfig) : List Call → PackEnv → Option (Journal × PackEnv)
  | [], e => some ([], e)
  | c :: calls, e =>
    match persist cfg c.r c.expiresUnix c.target e with
    | (some true, e₁) =>
      (e₁.shard.st.index.lookup c.r.keyfp).bind fun loc =>
        (persistAll cfg calls e₁).map fun p => ((c.r, loc) :: p.1, p.2)
    | _ => none

theorem persistAll_stored {calls : List Call} {js' : Journal} {e' : PackEnv}
    (hw : Writing js e.shard ∨ e.shard.st.writer = none) (hbd : e.shard.st.writerSeq + calls.length < 2 ^ 32)
    (hall : persistAll cfg calls e = some (js', e')) : Stored cfg (js ++ js') e'.shard := by
  induction calls generalizing e js js' with
  | nil =>
    cases hall
    rwa [append_nil]
  | cons c calls ih =>
    rw [persistAll] at hall
    split at hall
    · rename_i e₁ hpr
      obtain ⟨loc, h₁, hs₁, hw₁, hseq, hlk, -⟩ := persist_calm h hs hw (by rw [length_cons] at hbd; omega) hpr
      rw [hlk, bind_some, map_eq_some_iff] at hall
      obtain ⟨⟨js₁, e₂⟩, hrs, hp⟩ := hall
      cases hp
      have hst := ih h₁ hs₁ (.inl hw₁) (by rw [length_cons] at hbd; omega) hrs
      rwa [append_assoc] at hst
    · cases hall

end

/-! ## What the load finds -/

/-- Sidecars are removed. -/
def removeSidecars (removed : List Bytes) (files : Files) : Files :=
  removed.foldl (fun files base => files.erase (vidxOf base)) files

theorem OnDisk.removeSidecars {files : Files} (hd : OnDisk js files) (removed : List Bytes) :
    OnDisk js (removeSidecars removed files) := by
  induction removed generalizing files with
  | nil => exact hd
  | cons base removed ih =>
    refine ih ⟨fun {b c} hb hc => ?_, hd.placed, fun x hx => ?_, fun {b idx} hb hidx => ?_⟩
    · rw [lookup_erase_ne (vidxOf_ne hb)] at hc
      exact hd.pack hb hc
    · obtain ⟨hvp, hsm, hlen⟩ := hd.stored x hx
      exact ⟨hvp, by rwa [lookup_erase_ne (vidxOf_ne hvp)], hlen⟩
    rcases eq_or_ne (vidxOf b) (vidxOf base) with heq | hne
    · rw [heq, lookup_erase] at hidx
      cases hidx
    · rw [lookup_erase_ne hne] at hidx
      exact hd.sidecar hb hidx

/-- Where a record is. -/
def Loc.place (loc : Loc) : Bytes × ℕ × ℕ := (loc.pack, loc.offset, loc.recLen)

/-- The expiry of a record and where it is. -/
abbrev Found := Int64 × Bytes × ℕ × ℕ

/-- What the load looks at in an entry it finds. -/
def found (loc : Loc) : Found := (loc.expiresUnix, Loc.place loc)

/-- The later one of two that expires later, and otherwise the earlier one. -/
def keepGreater (best : Option Found) (x : Found) : Option Found :=
  match best with
  | none => some x
  | some y => if y.1 < x.1 then some x else some y

/-- What the index has for a key. -/
def seen (s : PackShard) (k : Bytes) : Option Found := (s.st.index.lookup k).map found

theorem seen_insertLoc (x : Bytes × Loc) (e : PackEnv) (k : Bytes) :
    seen (insertLoc x e).shard k = if x.1 = k then keepGreater (seen e.shard k) (found x.2) else seen e.shard k := by
  have hidx : (insertLoc x e).shard.st.index = if wins e.shard.st x then
    e.shard.st.index.insert x.1 { x.2 with seq := e.ageSeq } else e.shard.st.index := rfl
  rw [seen, hidx]
  rcases eq_or_ne x.1 k with rfl | hk
  · rw [if_pos rfl, seen, wins]
    rcases hold : e.shard.st.index.lookup x.1 with _ | old
    · rw [if_pos rfl, lookup_insert]
      rfl
    by_cases hlt : old.expiresUnix < x.2.expiresUnix
    · rw [if_pos (decide_eq_true hlt), lookup_insert]
      exact (if_pos hlt).symm
    · rw [if_neg (by simpa using hlt), hold]
      exact (if_neg hlt).symm
  · rw [if_neg hk, seen]
    split
    · rw [lookup_insert_ne hk.symm]
    · rfl

theorem seen_foldl_insertLoc (xs : List (Bytes × Loc)) (e : PackEnv) (k : Bytes) :
    seen (xs.foldl (fun e x => insertLoc x e) e).shard k =
      ((xs.filter fun x => x.1 = k).map fun x => found x.2).foldl keepGreater (seen e.shard k) := by
  induction xs generalizing e with
  | nil => rfl
  | cons x xs ih =>
    rw [foldl_cons, ih, seen_insertLoc, filter_cons]
    by_cases hk : x.1 = k
    · rw [if_pos hk, if_pos (decide_eq_true hk), map_cons, foldl_cons]
    · rw [if_neg hk, if_neg (by simpa using hk)]

variable {files : Files}

/-- What the load reads for a key from a pack, in its order: from the sidecar the last record, with the expiry that was
    entered into the index; and otherwise all records, with the expiries they have in the pack. -/
def reads (files : Files) (js : Journal) (k base : Bytes) : List Found :=
  if (files.lookup (vidxOf base)).isSome then
    (ofKey (inPack js base) k).getLast?.toList.map fun x => (x.2.expiresUnix, Loc.place x.2)
  else (ofKey (inPack js base) k).map fun x => (x.1.expires, Loc.place x.2)

/-- The scan of a pack finds the records that were persisted to it. -/
theorem OnDisk.scan (hd : OnDisk js files) (hbs : isVpack base) {c : Bytes}
    (hc : files.lookup base = some c) (own : Bool) :
    ∃ recs, scanRecords c = some recs ∧ ∀ k,
      (((recs.map (scannedLoc base own)).filter fun x => x.1 = k).map fun x => found x.2) =
        (ofKey (inPack js base) k).map fun x => (x.1.expires, Loc.place x.2) := by
  obtain ⟨rfl, hlt⟩ := hd.pack hbs hc
  have hsc : scanRecords (contentOf js base) = some ((layout 0 ((inPack js base).map (·.1))).map scanned) := by
    have h := @scanRecords_packed [] ((inPack js base).map (·.1)) (.inl rfl)
    rw [append_nil, flatMap_map] at h
    exact h hlt
  refine ⟨_, hsc, fun k => ?_⟩
  rw [← hd.placed, List.map_map, List.map_map, List.filter_map, List.map_map]
  refine map_congr_left fun x hx => ?_
  obtain ⟨hmem, hpc⟩ := mem_inPack.1 (mem_filter.1 hx).1
  refine Prod.ext rfl (Prod.ext hpc.symm (Prod.ext rfl ?_))
  exact (hd.stored x hmem).2.2.symm

/-- With distinct keys there is at most one entry of a key. -/
theorem filter_eq_of_nodup {live : List (Bytes × Loc)} (hnd : (live.map (·.1)).Nodup) {k : Bytes}
    {o : Option Loc} (h : ∀ loc, (k, loc) ∈ live ↔ o = some loc) :
    live.filter (fun x => x.1 = k) = o.toList.map fun loc => (k, loc) := by
  have hmem {x : Bytes × Loc} (hx : x ∈ live.filter fun x => x.1 = k) : o = some x.2 ∧ x = (k, x.2) := by
    obtain ⟨hlv, hk⟩ := mem_filter.1 hx
    obtain rfl := of_decide_eq_true hk
    exact ⟨(h x.2).1 hlv, rfl⟩
  rcases o with _ | loc
  · exact eq_nil_iff_forall_not_mem.2 fun x hx => nomatch (hmem hx).1
  have hlc : (k, loc) ∈ live.filter fun x => x.1 = k := mem_filter.2 ⟨(h loc).2 rfl, decide_eq_true rfl⟩
  have hall : ∀ x ∈ live.filter (fun x => x.1 = k), x = (k, loc) := by
    intro x hx
    obtain ⟨hsm, hx⟩ := hmem hx
    rw [hx, ← some.inj hsm]
  have hnd' : (live.filter fun x => x.1 = k).Nodup := hnd.of_map.filter _
  exact (perm_singleton.1 <| (perm_ext_iff_of_nodup hnd' (nodup_singleton _)).2
    fun x => ⟨fun hx => mem_singleton.2 (hall x hx), fun hx => mem_singleton.1 hx ▸ hlc⟩)

/-- The sidecar of a pack is trusted. -/
theorem OnDisk.vidx (hd : OnDisk js files) (hbs : isVpack base) {c idx : Bytes}
    (hc : files.lookup base = some c) (hidx : files.lookup (vidxOf base) = some idx) (own : Bool) :
    (vidxFor base own c.length (some idx)).2 ∧ ∀ k,
      (((vidxFor base own c.length (some idx)).1.filter fun x => x.1 = k).map fun x => found x.2) =
        (ofKey (inPack js base) k).getLast?.toList.map fun x => (x.2.expiresUnix, Loc.place x.2) := by
  obtain ⟨rfl, hlt⟩ := hd.pack hbs hc
  obtain ⟨live, rfl, hnd, hlv⟩ := hd.sidecar hbs hidx
  have hsr {x : Bytes × Loc} (hx : x ∈ live) : ∃ y ∈ inPack js base, y.1.keyfp = x.1 ∧ y.2 = x.2 := by
    obtain ⟨y, hy, hlc⟩ := map_eq_some_iff.1 ((hlv x).1 hx)
    obtain ⟨hmem, hkey⟩ := mem_ofKey.1 (mem_of_getLast? hy)
    exact ⟨y, hmem, hkey, hlc⟩
  have hft : ∀ x ∈ live, Fits x := by
    intro x hx
    obtain ⟨y, hy, hkey, hlc⟩ := hsr hx
    have hpl : (y.2.offset, y.1) ∈ layout 0 ((inPack js base).map (·.1)) := by
      rw [← hd.placed]
      exact List.mem_map_of_mem hy
    have hbd := bound_of_mem_layout hpl
    rw [flatMap_map, Nat.zero_add] at hbd
    change y.2.offset + y.1.buildRecord.length ≤ (contentOf js base).length at hbd
    have hlen := (hd.stored y (mem_inPack.1 hy).1).2.2
    exact ⟨hkey ▸ y.1.length_keyfp, by rw [← hlc]; omega, by rw [← hlc]; omega⟩
  have hcn : live.length < 2 ^ 64 := by
    have hsub : live.map (·.1) ⊆ (inPack js base).map fun y => y.1.keyfp := by
      intro k hk
      obtain ⟨x, hx, rfl⟩ := List.mem_map.1 hk
      obtain ⟨y, hy, hkey, -⟩ := hsr hx
      exact List.mem_map.2 ⟨y, hy, hkey⟩
    have hle := (hnd.subperm hsub).length_le
    have hrc := length_le_flatMap_build ((inPack js base).map (·.1))
    rw [length_map, length_map] at hle
    rw [length_map, flatMap_map] at hrc
    change _ ≤ (contentOf js base).length at hrc
    omega
  rw [vidxFor_whole hft (by omega) hcn]
  refine ⟨rfl, fun k => ?_⟩
  rw [List.filter_map, List.map_map]
  have hone : live.filter ((fun x => decide (x.1 = k)) ∘ loadedLoc base own) =
      ((ofKey (inPack js base) k).getLast?.map (·.2)).toList.map fun loc => (k, loc) :=
    filter_eq_of_nodup hnd fun loc => hlv (k, loc)
  rw [hone]
  rcases hls : (ofKey (inPack js base) k).getLast? with _ | y
  · rfl
  · have hpc := (mem_inPack.1 (mem_ofKey.1 (mem_of_getLast? hls)).1).2
    simp only [map_some, toList_some, map_cons, map_nil, Function.comp, loadedLoc, found, Loc.place, hpc]

/-! ## Loading -/

theorem foldl_insertLoc_shard (xs : List (Bytes × Loc)) (e : PackEnv) :
    (xs.foldl (fun e x => insertLoc x e) e).faults = e.faults ∧
      (xs.foldl (fun e x => insertLoc x e) e).shard.files = e.shard.files := by
  induction xs generalizing e with
  | nil => exact ⟨rfl, rfl⟩
  | cons x xs ih => exact ih (insertLoc x e)

theorem rescan_calm (h : e.faults = []) (hd : OnDisk js files) (hbs : isVpack base) {c : Bytes}
    (hc : files.lookup base = some c) (hfl : e.shard.files.lookup base = files.lookup base) (size : ℕ) :
    ∃ e', rescan cfg base size e = (some (), e') ∧ e'.faults = [] ∧
      (∀ k, seen e'.shard k = ((ofKey (inPack js base) k).map
        fun x => (x.1.expires, Loc.place x.2)).foldl keepGreater (seen e.shard k)) ∧
      ∀ b, b ≠ vidxOf base → e'.shard.files.lookup b = e.shard.files.lookup b := by
  obtain ⟨recs, hsc, hfn⟩ := hd.scan hbs hc (isOwn cfg base)
  obtain ⟨hflt, hfls⟩ := foldl_insertLoc_shard (recs.map (scannedLoc base (isOwn cfg base))) e
  rw [rescan, bind_of_some (readFileAll_calm h base), hfl, hc]
  simp only [hsc]
  rw [bind_of_some (forEach_modify _ _ _), writeVidx_calm (hflt.trans h)]
  refine ⟨_, rfl, hflt.trans h, fun k => ?_, fun b hb => ?_⟩
  · rw [← hfn k, ← seen_foldl_insertLoc]
    rfl
  · exact (lookup_insert_ne hb).trans (congrArg _ hfls)

theorem loadOnePack_calm (h : e.faults = []) (hd : OnDisk js files) (hbs : isVpack base) {c : Bytes}
    (hc : files.lookup base = some c) (hfl : e.shard.files.lookup base = files.lookup base)
    (hvd : e.shard.files.lookup (vidxOf base) = files.lookup (vidxOf base)) :
    ∃ e', loadOnePack cfg base e = (some (), e') ∧ e'.faults = [] ∧
      (∀ k, seen e'.shard k = (reads files js k base).foldl keepGreater (seen e.shard k)) ∧
      ∀ b, b ≠ vidxOf base → e'.shard.files.lookup b = e.shard.files.lookup b := by
  have hop : attempt (openRead base) e = (some (some c), e) := by
    rw [attempt_eq, openRead_calm h, hfl, hc]
  let e₁ := withState { e.shard.st with
    packs := e.shard.st.packs.insert base ⟨isOwn cfg base, c.length⟩ } e
  have hrd : readFileAll (vidxOf base) e₁ = (some (files.lookup (vidxOf base)), e₁) := by
    rw [readFileAll_calm (e := e₁) h]
    exact congrArg (fun o => (some o, e₁)) hvd
  rw [loadOnePack, bind_of_some hop]
  dsimp only
  rw [modifyState_bind, bind_of_some hrd, bind_of_some (forEach_modify _ _ _)]
  rcases hidx : files.lookup (vidxOf base) with _ | idx
  · obtain ⟨e', hrs, h', hsn, hfls⟩ := @rescan_calm cfg js base e₁ files h hd hbs c hc hfl c.length
    refine ⟨e', hrs, h', fun k => ?_, hfls⟩
    rw [hsn, reads, hidx]
    rfl
  · obtain ⟨htr, hfn⟩ := hd.vidx hbs hc hidx (isOwn cfg base)
    obtain ⟨hflt, hfls⟩ := foldl_insertLoc_shard (vidxFor base (isOwn cfg base) c.length (some idx)).1 e₁
    rw [if_pos htr]
    refine ⟨_, rfl, hflt.trans h, fun k => ?_, fun b _ => congrArg _ hfls⟩
    rw [seen_foldl_insertLoc, hfn, reads, hidx]
    rfl

/-- The load of packs one after the other keeps, for each key, the first one of those read that expires last. -/
theorem loadPacks_calm (h : e.faults = []) (hd : OnDisk js files) {xs : List Bytes} (hnd : xs.Nodup)
    (hxs : ∀ x ∈ xs, isVpack x ∧ (files.lookup x).isSome ∧ e.shard.files.lookup x = files.lookup x ∧
      e.shard.files.lookup (vidxOf x) = files.lookup (vidxOf x)) (k : Bytes) :
    seen (forEach xs (loadOnePack cfg) e).2.shard k =
      (xs.flatMap (reads files js k)).foldl keepGreater (seen e.shard k) := by
  induction xs generalizing e with
  | nil => rfl
  | cons x xs ih =>
    obtain ⟨hx, hnd⟩ := nodup_cons.1 hnd
    obtain ⟨hvp, hsm, hfl, hvd⟩ := hxs x mem_cons_self
    obtain ⟨c, hc⟩ := isSome_iff_exists.1 hsm
    obtain ⟨e', hld, h', hsn, hfls⟩ := @loadOnePack_calm cfg js x e files h hd hvp c hc hfl hvd
    rw [forEach, bind_of_some hld, ih h' hnd fun y hy => ?_, hsn, flatMap_cons, foldl_append]
    obtain ⟨hvp', hsm', hfl', hvd'⟩ := hxs y (mem_cons_of_mem _ hy)
    refine ⟨hvp', hsm', (hfls _ (vidxOf_ne hvp')).trans hfl', (hfls _ fun heq => ?_).trans hvd'⟩
    exact hx (vidxOf_inj hvp' hvp heq ▸ hy)

/-- The shard of a new store over the files. -/
def reload (cfg : PackConfig) (files : Files) : PackShard := (ensureLoaded cfg { shard := { files := files } }).2.shard

theorem seen_reload (hd : OnDisk js files) (k : Bytes) :
    seen (reload cfg files) k = ((vpacks files).flatMap (reads files js k)).foldl keepGreater none := by
  have hls : access (withState { loaded := true } { shard := { files := files } }) = (some (), _) := access_calm rfl
  have hnd : (vpacks files).Nodup := (mergeSort_perm _ _).nodup_iff.2 (files.keys_nodup.filter _)
  rw [reload, ensureLoaded, get_then, if_neg (by simp), modifyState_bind, bind_of_some hls,
    loadPacks_calm rfl hd hnd fun x hx => ?_]
  · rfl
  · rw [vpacks, mem_mergeSort, mem_filter] at hx
    exact ⟨hx.2, lookup_isSome.2 hx.1, rfl, rfl⟩

/-! ## Which record a key resolves to -/

/-- The first one in the list that expires last. -/
def FirstGreatest (y : Found) (xs : List Found) : Prop :=
  ∃ before after, xs = before ++ y :: after ∧ (∀ x ∈ before, x.1 < y.1) ∧ ∀ x ∈ after, x.1 ≤ y.1

theorem foldl_keepGreater_some (before after xs : List Found) {y : Found}
    (hpre : ∀ x ∈ before, x.1 < y.1) (haf : ∀ x ∈ after, x.1 ≤ y.1) :
    ∃ z, xs.foldl keepGreater (some y) = some z ∧ FirstGreatest z (before ++ y :: (after ++ xs)) := by
  induction xs generalizing before y after with
  | nil => exact ⟨y, rfl, before, after, by rw [append_nil], hpre, haf⟩
  | cons x xs ih =>
    by_cases hlt : y.1 < x.1
    · -- `x` takes the place of `y`
      have hnew : ∀ z ∈ before ++ y :: after, z.1 < x.1 := by
        intro z hz
        rcases mem_append.1 hz with hz | hz
        · exact Int64.lt_trans (hpre z hz) hlt
        · rcases mem_cons.1 hz with rfl | hz
          · exact hlt
          · exact Int64.lt_of_le_of_lt (haf z hz) hlt
      obtain ⟨z, hz, hfst⟩ := ih (before ++ y :: after) [] hnew nofun
      refine ⟨z, ?_, by simpa using hfst⟩
      rwa [foldl_cons, keepGreater, if_pos hlt]
    · have haf' : ∀ z ∈ after ++ [x], z.1 ≤ y.1 := by
        intro z hz
        rcases mem_append.1 hz with hz | hz
        · exact haf z hz
        · rw [mem_singleton.1 hz]
          exact Int64.not_lt.1 hlt
      obtain ⟨z, hz, hfst⟩ := ih before (after ++ [x]) hpre haf'
      refine ⟨z, ?_, by simpa using hfst⟩
      rwa [foldl_cons, keepGreater, if_neg hlt]

variable {xs : List Found}

/-- What is kept is the first one that expires last. -/
theorem foldl_keepGreater_none (hxs : xs ≠ []) : ∃ z, xs.foldl keepGreater none = some z ∧ FirstGreatest z xs := by
  rcases xs with _ | ⟨x, xs⟩
  · exact absurd rfl hxs
  · exact foldl_keepGreater_some [] [] xs nofun fun _ h => nomatch h

theorem mem_vpacks : base ∈ vpacks files ↔ (files.lookup base).isSome ∧ isVpack base := by
  rw [vpacks, mem_mergeSort, mem_filter, lookup_isSome]
  rfl

variable {z : Found}

/-- What the load reads for a key was persisted for it. -/
theorem mem_reads (hz : z ∈ reads files js k base) :
    ∃ x ∈ ofKey js k, z.2 = Loc.place x.2 ∧ (z.1 = x.1.expires ∨ z.1 = x.2.expiresUnix) := by
  have hsub {x : PackRecord × Loc} (hx : x ∈ ofKey (inPack js base) k) : x ∈ ofKey js k := by
    obtain ⟨hx, hk⟩ := mem_ofKey.1 hx
    exact mem_ofKey.2 ⟨(mem_inPack.1 hx).1, hk⟩
  rw [reads] at hz
  split at hz
  · obtain ⟨x, hx, rfl⟩ := List.mem_map.1 hz
    exact ⟨x, hsub (mem_of_getLast? (mem_toList.1 hx)), rfl, .inr rfl⟩
  · obtain ⟨x, hx, rfl⟩ := List.mem_map.1 hz
    exact ⟨x, hsub hx, rfl, .inl rfl⟩

theorem getLast?_filter_of {α : Type} {p : α → Bool} {l : List α} {y : α} (h : l.getLast? = some y)
    (hy : p y) : (l.filter p).getLast? = some y := by
  obtain ⟨l, rfl⟩ := getLast?_eq_some_iff.1 h
  rw [filter_append, filter_cons_of_pos hy, filter_nil, getLast?_concat]

variable {y : PackRecord × Loc}

/-- The last record persisted for a key is read. -/
theorem OnDisk.last_mem_reads (hd : OnDisk js files) (hy : (ofKey js k).getLast? = some y) :
    ∃ z ∈ (vpacks files).flatMap (reads files js k), z.2 = Loc.place y.2 ∧
      (z.1 = y.1.expires ∨ z.1 = y.2.expiresUnix) := by
  obtain ⟨hmem, hk⟩ := mem_ofKey.1 (mem_of_getLast? hy)
  obtain ⟨hvp, hsm, -⟩ := hd.stored y hmem
  have hls : (ofKey (inPack js y.2.pack) k).getLast? = some y := by
    have hcm : ofKey (inPack js y.2.pack) k = inPack (ofKey js k) y.2.pack := filter_comm ..
    rw [hcm]
    exact getLast?_filter_of hy (decide_eq_true rfl)
  have hpc := mem_vpacks.2 ⟨hsm, hvp⟩
  by_cases hvd : (files.lookup (vidxOf y.2.pack)).isSome
  · refine ⟨(y.2.expiresUnix, Loc.place y.2), mem_flatMap.2 ⟨_, hpc, ?_⟩, rfl, .inr rfl⟩
    rw [reads, if_pos hvd, hls]
    exact mem_singleton.2 rfl
  · refine ⟨(y.1.expires, Loc.place y.2), mem_flatMap.2 ⟨_, hpc, ?_⟩, rfl, .inl rfl⟩
    rw [reads, if_neg hvd]
    exact List.mem_map_of_mem (mem_of_getLast? hls)

/-- The last call for the key expires later than all earlier ones, however the clock is read. -/
def ExpiresLast (js : Journal) (k : Bytes) : Prop :=
  ∀ y, (ofKey js k).getLast? = some y → ∀ x ∈ (ofKey js k).dropLast,
    x.1.expires < y.1.expires ∧ x.1.expires < y.2.expiresUnix ∧
      x.2.expiresUnix < y.1.expires ∧ x.2.expiresUnix < y.2.expiresUnix

theorem FirstGreatest.mem (h : FirstGreatest z xs) : z ∈ xs := by
  obtain ⟨before, after, rfl, -⟩ := h
  exact mem_append_right _ mem_cons_self

theorem FirstGreatest.le {w : Found} (h : FirstGreatest z xs) (hw : w ∈ xs) : w.1 ≤ z.1 := by
  obtain ⟨before, after, rfl, hpre, haf⟩ := h
  rcases mem_append.1 hw with hw | hw
  · exact Int64.le_of_lt (hpre w hw)
  · rcases mem_cons.1 hw with rfl | hw
    · exact Int64.le_refl _
    · exact haf w hw

/-- For a key that was persisted the load keeps the first one that expires last. -/
theorem OnDisk.seen_reload_some (hd : OnDisk js files) (hy : (ofKey js k).getLast? = some y) :
    ∃ z, seen (reload cfg files) k = some z ∧ FirstGreatest z ((vpacks files).flatMap (reads files js k)) := by
  obtain ⟨w, hw, -⟩ := hd.last_mem_reads hy
  rw [seen_reload hd]
  exact foldl_keepGreater_none (ne_nil_of_mem hw)

/-- If the last call for the key expires later than the earlier ones its record is kept. -/
theorem FirstGreatest.place_eq (hd : OnDisk js files)
    (hz : FirstGreatest z ((vpacks files).flatMap (reads files js k))) (hy : (ofKey js k).getLast? = some y)
    (hls : ExpiresLast js k) : z.2 = Loc.place y.2 := by
  obtain ⟨w, hw, -, hex⟩ := hd.last_mem_reads hy
  obtain ⟨base, -, hmem⟩ := mem_flatMap.1 hz.mem
  obtain ⟨x, hx, hpl, hz'⟩ := mem_reads hmem
  obtain ⟨l, hl⟩ := getLast?_eq_some_iff.1 hy
  rw [hl] at hx
  rcases mem_append.1 hx with hx | hx
  · -- an earlier call expires before the last one
    have hle := hz.le hw
    have hlt := hls y hy x (by rw [hl, dropLast_concat]; exact hx)
    refine absurd hle (Int64.not_le.2 ?_)
    rcases hz' with h | h <;> rcases hex with h' | h' <;> rw [h, h']
    · exact hlt.1
    · exact hlt.2.1
    · exact hlt.2.2.1
    · exact hlt.2.2.2
  · rw [hpl, mem_singleton.1 hx]

theorem stored_empty : Stored cfg [] {} where
  fresh _ := rfl
  index _ := rfl
  pack _ h := nomatch h
  placed _ := rfl
  stored _ h := nomatch h
  sidecar _ h := nomatch h
  unused _ _ := ⟨rfl, rfl⟩

/-- A store that is loaded again resolves the keys that were persisted, each one to the first of
    the records read for it that expires last. That is the record the live index has if the last
    call for the key expires later than the earlier ones. -/
theorem reload_resolves {cfg cfg' : PackConfig} {calls : List Call} {js : Journal} {e : PackEnv}
    (hcalls : persistAll cfg calls { shard := {} } = some (js, e)) (hbound : calls.length < 2 ^ 32)
    (removed : List Bytes) (k : Bytes) :
    e.shard.st.index.lookup k = (ofKey js k).getLast?.map (·.2) ∧
    (((reload cfg' (removeSidecars removed e.shard.files)).st.index.lookup k).isSome ↔
      ∃ x ∈ js, x.1.keyfp = k) ∧
    (∀ loc, (reload cfg' (removeSidecars removed e.shard.files)).st.index.lookup k = some loc →
      FirstGreatest (loc.expiresUnix, Loc.place loc)
        ((vpacks (removeSidecars removed e.shard.files)).flatMap
          (reads (removeSidecars removed e.shard.files) js k))) ∧
    (ExpiresLast js k →
      ((reload cfg' (removeSidecars removed e.shard.files)).st.index.lookup k).map Loc.place =
        (e.shard.st.index.lookup k).map Loc.place) := by
  have hs : Stored cfg ([] ++ js) e.shard :=
    persistAll_stored rfl stored_empty (.inr rfl) (by rwa [Nat.zero_add]) hcalls
  rw [nil_append] at hs
  have hd := hs.toOnDisk.removeSidecars removed
  rw [hs.index]
  refine ⟨rfl, ?_⟩
  rcases hls : (ofKey js k).getLast? with _ | y
  · -- the key was not persisted
    have hnil := getLast?_eq_none_iff.1 hls
    have hrd : (vpacks (PackStore.removeSidecars removed e.shard.files)).flatMap
        (reads (PackStore.removeSidecars removed e.shard.files) js k) = [] := by
      refine eq_nil_iff_forall_not_mem.2 fun z hz => ?_
      obtain ⟨base, -, hz⟩ := mem_flatMap.1 hz
      obtain ⟨x, hx, -⟩ := mem_reads hz
      rw [hnil] at hx
      cases hx
    have hno : (reload cfg' (PackStore.removeSidecars removed e.shard.files)).st.index.lookup k = none := by
      have hsn : seen (reload cfg' _) k = _ := seen_reload hd k
      rw [hrd] at hsn
      exact map_eq_none_iff.1 hsn
    rw [hno]
    refine ⟨⟨nofun, fun ⟨x, hx, hk⟩ => ?_⟩, nofun, fun _ => rfl⟩
    have hmem := mem_ofKey.2 ⟨hx, hk⟩
    rw [hnil] at hmem
    cases hmem
  · obtain ⟨z, hsn, hfst⟩ : ∃ z, seen (reload cfg' _) k = some z ∧ _ := hd.seen_reload_some hls
    obtain ⟨loc, hlc, rfl⟩ := map_eq_some_iff.1 hsn
    obtain ⟨hmem, hk⟩ := mem_ofKey.1 (mem_of_getLast? hls)
    rw [hlc]
    refine ⟨⟨fun _ => ⟨y, hmem, hk⟩, fun _ => rfl⟩, fun _ h => some.inj h ▸ hfst, fun hex => ?_⟩
    exact congrArg some (hfst.place_eq hd hls hex)

/-- The load resolves each key to the record that the live index has. -/
def ReloadAgrees (calls : List Call) : Prop :=
  ∀ js e, persistAll letterConfig calls { shard := {} } = some (js, e) → ∀ k,
    ((reload letterConfig e.shard.files).st.index.lookup k).map Loc.place =
      (e.shard.st.index.lookup k).map Loc.place

/-- Two calls for one key, with the same expiry. -/
def sameExpiry : List Call := [⟨letterRecord 97 100, 100, 0⟩, ⟨letterRecord 97 100, 100, 0⟩]

/-- Two calls for one key in two packs, the second one with a later expiry. -/
def laterExpiry : List Call := [⟨letterRecord 97 100, 100, 0⟩, ⟨letterRecord 97 200, 201, 1⟩]

/-- What the live index has for a key after the calls, and the new store. -/
def afterReload (calls : List Call) (k : Bytes) : Option (Option (Bytes × ℕ × ℕ) × Option (Bytes × ℕ × ℕ)) :=
  (persistAll letterConfig calls { shard := {} }).map fun p =>
    ((p.2.shard.st.index.lookup k).map Loc.place,
      ((reload letterConfig p.2.shard.files).st.index.lookup k).map Loc.place)

theorem ReloadAgrees.afterReload {calls : List Call} (h : ReloadAgrees calls) (k : Bytes) :
    (afterReload calls k).all fun p => p.1 = p.2 := by
  rcases hp : persistAll letterConfig calls { shard := {} } with _ | ⟨js, e⟩
  · simp [PackStore.afterReload, hp]
  · simp [PackStore.afterReload, hp, h js e hp k]

/-- Of two records with the same expiry the load resurrects the one that was superseded. -/
theorem reload_resurrects : ¬ReloadAgrees sameExpiry := by
  intro h
  have hall := h.afterReload (List.replicate 64 97)
  revert hall
  decide +kernel

theorem laterExpiry_agrees : ReloadAgrees laterExpiry := by
  intro js e hcl k
  have hjs : ((persistAll letterConfig laterExpiry { shard := {} }).map fun p => p.1.map fun x =>
      (x.1.keyfp, x.1.expires, x.2.expiresUnix)) =
        some [(List.replicate 64 97, 100, 100), (List.replicate 64 97, 200, 201)] := by
    decide +kernel
  rw [hcl, map_some, Option.some.injEq] at hjs
  obtain ⟨x, y, rfl⟩ := length_eq_two.1 ((length_map _).symm.trans (congrArg List.length hjs))
  simp only [map_cons, map_nil, List.cons.injEq, Prod.mk.injEq, and_true] at hjs
  obtain ⟨⟨hxk, hx, hx'⟩, hyk, hy, hy'⟩ := hjs
  refine (reload_resolves hcl (by decide) [] k).2.2.2 fun z hz w hw => ?_
  have hyx : y.1.keyfp = x.1.keyfp := hyk.trans hxk.symm
  by_cases hk : x.1.keyfp = k
  · have hbt : ofKey [x, y] k = [x, y] := by simp [ofKey, hyx, hk]
    rw [hbt] at hz hw
    obtain rfl : y = z := some.inj hz
    obtain rfl : w = x := mem_singleton.1 hw
    rw [hx, hx', hy, hy']
    decide
  · have hno : ofKey [x, y] k = [] := by simp [ofKey, hyx, hk]
    rw [hno] at hz
    cases hz

end PackStore

end Vgi
