import Vgi.Cache.PackFiles
import Vgi.Lib.Assoc

/-!
# What the index of a shard designates

Each entry of the index should designate bytes of a pack that are exactly a record that was persisted for its key
(`Designates`), whatever accesses to files fail.

* `Sound`: what all operations keep. Packs hold records, and perhaps the beginning of one at their end; sidecars were
  written for entries that designate records; the writer stands at the end of its pack.
* `index_designates`: in every run whose operations are `Safe` the index designates records. An append is safe if the
  writer stands where the index takes it to be. An operation that makes a pack is safe if the name of the pack is not in
  use.
* `index_misleads`: otherwise it may not. After an append that stopped early the records that follow are entered some
  bytes before where they stand, and a store that has forgotten its state starts to write at the beginning of its first
  pack again.

A failed compaction does no harm: what was bound to the new pack stands there.
-/

namespace Vgi

open List Option Function AList

namespace PackStore

variable {cfg : PackConfig}

/-- The bytes at the place are a record that was persisted for the key. -/
def Designates (s : PackShard) (keyfp : Bytes) (loc : Loc) : Prop :=
  ∃ content, s.files.lookup loc.pack = some content ∧
    ∃ r ∈ s.log, r.keyfp = keyfp ∧ loc.recLen = r.buildRecord.length ∧
      slice content loc.offset loc.recLen = r.buildRecord

/-- The bytes are records that were persisted, `size` bytes in all, and perhaps the beginning of one more. -/
def Packed (log : List PackRecord) (size : ℕ) (content : Bytes) : Prop :=
  ∃ (rs : List PackRecord) (tail : Bytes), content = rs.flatMap PackRecord.buildRecord ++ tail ∧
    (∀ r ∈ rs, r ∈ log) ∧ Torn tail ∧
    (rs.flatMap PackRecord.buildRecord).length = size ∧ content.length < 2 ^ 63

/-- What a shard keeps. The names `N` are not in use. -/
structure Sound (N : Set Bytes) (s : PackShard) : Prop where
  /-- The index designates records. -/
  index : ∀ {k loc}, s.st.index.lookup k = some loc → isVpack loc.pack ∧ Designates s k loc
  /-- The sidecar of a pack was written for entries that designate records of the pack. It may have been cut off. -/
  sidecar : ∀ {base idx}, isVpack base → s.files.lookup (vidxOf base) = some idx →
    (s.files.lookup base).isSome → ∃ packSize live, idx <+: vidxBytes packSize live ∧
      ∀ x ∈ live, x.2.pack = base ∧ Designates s x.1 x.2
  /-- Packs hold records. -/
  pack : ∀ {base content}, isVpack base → s.files.lookup base = some content →
    ∃ size, Packed s.log size content
  /-- The writer stands at the end of its pack. -/
  writer : ∀ {pos}, s.st.writer = some pos → isVpack s.st.writerPack ∧
    ∃ content, s.files.lookup s.st.writerPack = some content ∧ pos = content.length ∧
      Packed s.log s.st.writerSize content
  unused : ∀ {b}, b ∈ N → isVpack b → s.files.lookup b = none ∧ s.files.lookup (vidxOf b) = none

/-! ## Records in a pack -/

variable {content : Bytes} {s : PackShard}

theorem Designates.bound {k : Bytes} {loc : Loc} (h : Designates s k loc)
    (hcn : s.files.lookup loc.pack = some content) : loc.offset + loc.recLen ≤ content.length := by
  obtain ⟨content', hlk, r, -, -, hlen, hsl⟩ := h
  rw [hcn, Option.some.injEq] at hlk
  subst hlk
  have hpos := length_buildRecord_pos r
  have := congrArg List.length hsl
  rw [slice, length_take, length_drop] at this
  omega

/-- Every pack is still there, with more behind it at most. -/
def Extends (files files' : Files) : Prop :=
  ∀ {base content}, isVpack base → files.lookup base = some content →
    ∃ more, files'.lookup base = some (content ++ more)

theorem Designates.mono {s' : PackShard} {k : Bytes} {loc : Loc} (h : Designates s k loc) (hpc : isVpack loc.pack)
    (hext : Extends s.files s'.files) (hlog : s.log ⊆ s'.log) : Designates s' k loc := by
  obtain ⟨content, hlk, r, hr, hk, hlen, hsl⟩ := id h
  obtain ⟨more, hmr⟩ := hext hpc hlk
  exact ⟨_, hmr, r, hlog hr, hk, hlen, by rw [slice_append_of_le (h.bound hlk), hsl]⟩

theorem extends_insert {files : Files} {base : Bytes}
    (h : ∀ old, files.lookup base = some old → ∃ more, content = old ++ more) :
    Extends files (files.insert base content) := by
  intro b old _ hlk
  rcases eq_or_ne b base with rfl | hne
  · obtain ⟨more, rfl⟩ := h old hlk
    exact ⟨more, lookup_insert _⟩
  · exact ⟨[], by rw [lookup_insert_ne hne, append_nil, hlk]⟩

variable {log : List PackRecord}

theorem Packed.mono {log' : List PackRecord} {size : ℕ} (h : Packed log size content) (hlog : log ⊆ log') :
    Packed log' size content := by
  obtain ⟨rs, tail, hcn, hrs, h⟩ := h
  exact ⟨rs, tail, hcn, fun r hr => hlog (hrs r hr), h⟩

theorem packed_nil (log : List PackRecord) : Packed log 0 [] := ⟨[], [], rfl, nofun, .inl rfl, rfl, by norm_num⟩

variable {r : PackRecord} {n : ℕ}

/-- A record is appended to records, or the beginning of one. -/
theorem Packed.append (h : Packed log content.length content) (hn : n ≤ r.buildRecord.length)
    (hlog : n = r.buildRecord.length → r ∈ log) (hlt : (content ++ r.buildRecord.take n).length < 2 ^ 63) :
    Packed log (if n = r.buildRecord.length then content.length + n else content.length)
      (content ++ r.buildRecord.take n) := by
  obtain ⟨rs, tail, hcn, hrs, -, hsz, -⟩ := h
  obtain rfl : tail = [] := by
    have := congrArg List.length hcn
    rw [length_append] at this
    exact eq_nil_of_length_eq_zero (by omega)
  rw [append_nil] at hcn
  split
  · rename_i heq
    refine ⟨rs ++ [r], [], ?_, ?_, .inl rfl, ?_, hlt⟩
    · rw [hcn, heq, take_length, flatMap_append, flatMap_singleton, append_nil]
    · intro r' hr'
      rcases mem_append.1 hr' with hr' | hr'
      · exact hrs r' hr'
      · rw [mem_singleton.1 hr']
        exact hlog heq
    · rw [flatMap_append, flatMap_singleton, length_append, hsz, heq]
  · rename_i hne
    refine ⟨rs, r.buildRecord.take n, by rw [← hcn], hrs, .inr ⟨r, take_prefix _ _, ?_⟩, hsz, hlt⟩
    intro htk
    have := congrArg List.length htk
    rw [length_take] at this
    omega

/-! ## What the operations on the files keep -/

variable {N N' : Set Bytes} {s : PackShard}

section

variable (hs : Sound N s)

include hs

theorem Sound.mono (h : N' ⊆ N) : Sound N' s := { hs with unused := fun hb => hs.unused (h hb) }

variable {base : Bytes}

theorem Sound.not_mem_of_lookup (hbs : isVpack base) (hcn : s.files.lookup base = some content) : base ∉ N := by
  intro hN
  rw [(hs.unused hN hbs).1] at hcn
  cases hcn

variable {st : ShardState}

/-- A pack grows, or is new. -/
theorem Sound.setPack (hbs : isVpack base) (hN : base ∉ N) (hst : st.index = s.st.index)
    (hlog : s.log ⊆ log) (hpk : ∃ size, Packed log size content)
    (hold : (∃ old more, s.files.lookup base = some old ∧ content = old ++ more) ∨
      s.files.lookup base = none ∧ s.files.lookup (vidxOf base) = none)
    (hwr : ∀ {pos}, st.writer = some pos → isVpack st.writerPack ∧
      ∃ content', (s.files.insert base content).lookup st.writerPack = some content' ∧
        pos = content'.length ∧ Packed log st.writerSize content') :
    Sound N ⟨st, s.files.insert base content, log⟩ := by
  have hvd b : (s.files.insert base content).lookup (vidxOf b) = s.files.lookup (vidxOf b) :=
    lookup_insert_ne (vidxOf_ne hbs).symm
  have hext : Extends s.files (s.files.insert base content) := by
    refine extends_insert fun old hlk => ?_
    rcases hold with ⟨old', more, hold', rfl⟩ | ⟨hno, -⟩
    · exact ⟨more, by rw [some.inj (hlk.symm.trans hold')]⟩
    · cases hno.symm.trans hlk
  constructor
  · intro k loc hk
    obtain ⟨hpc, hds⟩ := hs.index (hst ▸ hk)
    exact ⟨hpc, hds.mono hpc hext hlog⟩
  · intro b idx hb hidx hsm
    rw [hvd] at hidx
    -- a new pack has no sidecar
    have hsm' : (s.files.lookup b).isSome := by
      rcases eq_or_ne b base with rfl | hne
      · rcases hold with ⟨old, -, hold, -⟩ | ⟨-, hno⟩
        · rw [hold]
          rfl
        · rw [hno] at hidx
          cases hidx
      · rwa [lookup_insert_ne hne] at hsm
    obtain ⟨packSize, live, hpre, hlv⟩ := hs.sidecar hb hidx hsm'
    exact ⟨packSize, live, hpre, fun x hx => ⟨(hlv x hx).1, (hlv x hx).2.mono ((hlv x hx).1 ▸ hb) hext hlog⟩⟩
  · intro b c hb hc
    rcases lookup_insert_eq_some hc with ⟨rfl, rfl⟩ | ⟨-, hc⟩
    · exact hpk
    · obtain ⟨size, hsz⟩ := hs.pack hb hc
      exact ⟨size, hsz.mono hlog⟩
  · exact hwr
  · intro b hb hvp
    have hne : b ≠ base := fun h => hN (h ▸ hb)
    rw [lookup_insert_ne hne, hvd]
    exact hs.unused hb hvp

/-- A pack that is not the one of the writer grows, or is new. -/
theorem Sound.setOther (hbs : isVpack base) (hN : base ∉ N) (hpk : ∃ size, Packed s.log size content)
    (hold : (∃ old more, s.files.lookup base = some old ∧ content = old ++ more) ∨
      s.files.lookup base = none ∧ s.files.lookup (vidxOf base) = none)
    (hwr : s.st.writer.isSome → s.st.writerPack ≠ base) :
    Sound N { s with files := s.files.insert base content } := by
  refine hs.setPack hbs hN rfl (fun _ => id) hpk hold fun {pos} hpos => ?_
  rw [lookup_insert_ne (hwr (by rw [hpos]; rfl))]
  exact hs.writer hpos

/-- A sidecar is written for what the index has of a pack. -/
theorem Sound.setVidx {idx : Bytes} (hbs : isVpack base) (hN : base ∉ N)
    {packSize : ℕ} {live : List (Bytes × Loc)} (hidx : idx <+: vidxBytes packSize live)
    (hlv : ∀ x ∈ live, x.2.pack = base ∧ s.st.index.lookup x.1 = some x.2) :
    Sound N { s with files := s.files.insert (vidxOf base) idx } := by
  have hpc {b : Bytes} hb : (s.files.insert (vidxOf base) idx).lookup b = s.files.lookup b :=
    lookup_insert_ne (vidxOf_ne hb)
  have hext : Extends s.files (s.files.insert (vidxOf base) idx) := fun hb hlk => ⟨[], by rw [hpc hb, hlk, append_nil]⟩
  constructor
  · intro k loc hk
    obtain ⟨hvp, hds⟩ := hs.index hk
    exact ⟨hvp, hds.mono hvp hext fun _ => id⟩
  · intro b idx' hb hidx' hsm
    rw [hpc hb] at hsm
    rcases lookup_insert_eq_some hidx' with ⟨heq, rfl⟩ | ⟨-, hidx'⟩
    · obtain rfl := vidxOf_inj hb hbs heq
      exact ⟨packSize, live, hidx, fun x hx => ⟨(hlv x hx).1,
        (hs.index (hlv x hx).2).2.mono ((hlv x hx).1 ▸ hb) hext fun _ => id⟩⟩
    · obtain ⟨packSize', live', hpre, hlv'⟩ := hs.sidecar hb hidx' hsm
      exact ⟨packSize', live', hpre, fun x hx =>
        ⟨(hlv' x hx).1, (hlv' x hx).2.mono ((hlv' x hx).1 ▸ hb) hext fun _ => id⟩⟩
  · intro b c hb hc
    rw [hpc hb] at hc
    exact hs.pack hb hc
  · intro pos hpos
    obtain ⟨hvp, hwr⟩ := hs.writer hpos
    refine ⟨hvp, ?_⟩
    rwa [hpc hvp]
  · intro b hb hvp
    have hne : vidxOf b ≠ vidxOf base := fun h => hN (vidxOf_inj hvp hbs h ▸ hb)
    rw [hpc hvp, lookup_insert_ne hne]
    exact hs.unused hb hvp

variable {name : Bytes}

/-- A file goes that neither the index nor the writer uses. -/
theorem Sound.eraseFile (hin : ∀ {k loc}, s.st.index.lookup k = some loc → loc.pack ≠ name)
    (hwr : s.st.writer.isSome → s.st.writerPack ≠ name) : Sound N { s with files := s.files.erase name } := by
  have hds {k : Bytes} {loc : Loc} (hlc : Designates s k loc) (hne : loc.pack ≠ name) :
      Designates { s with files := s.files.erase name } k loc := by
    obtain ⟨content, hlk, hrs⟩ := hlc
    exact ⟨content, by rw [lookup_erase_ne hne, hlk], hrs⟩
  have hsub {b content : Bytes} (h : (s.files.erase name).lookup b = some content) :
      b ≠ name ∧ s.files.lookup b = some content := by
    rcases eq_or_ne b name with rfl | hne
    · rw [lookup_erase] at h
      cases h
    · exact ⟨hne, by rwa [lookup_erase_ne hne] at h⟩
  constructor
  · intro k loc hk
    exact ⟨(hs.index hk).1, hds (hs.index hk).2 (hin hk)⟩
  · intro b idx hb hidx hsm
    obtain ⟨content, hcn⟩ := isSome_iff_exists.1 hsm
    obtain ⟨hne, hlk⟩ := hsub hcn
    obtain ⟨packSize, live, hpre, hlv⟩ := hs.sidecar hb (hsub hidx).2 (by rw [hlk]; rfl)
    exact ⟨packSize, live, hpre, fun x hx => ⟨(hlv x hx).1, hds (hlv x hx).2 ((hlv x hx).1 ▸ hne)⟩⟩
  · intro b content hb hc
    exact hs.pack hb (hsub hc).2
  · intro pos hpos
    obtain ⟨hvp, content, hlk, hrs⟩ := hs.writer hpos
    have hne := hwr (by rw [hpos]; rfl)
    exact ⟨hvp, content, by rw [lookup_erase_ne hne, hlk], hrs⟩
  · intro b hb hvp
    have hno {c : Bytes} (h : s.files.lookup c = none) : (s.files.erase name).lookup c = none := by
      rw [lookup_eq_none] at h ⊢
      exact fun hc => h (mem_erase.1 hc).2
    exact ⟨hno (hs.unused hb hvp).1, hno (hs.unused hb hvp).2⟩

/-- The index changes to entries that designate records, and perhaps the writer is closed. -/
theorem Sound.setIndex (hidx : ∀ {k loc}, st.index.lookup k = some loc →
      s.st.index.lookup k = some loc ∨ isVpack loc.pack ∧ Designates s k loc)
    (hwr : st.writer = none ∨ st.writer = s.st.writer ∧ st.writerPack = s.st.writerPack ∧
      st.writerSize = s.st.writerSize := by exact .inr ⟨rfl, rfl, rfl⟩) :
    Sound N { s with st := st } := by
  refine { hs with index := fun hk => ?_, writer := fun {pos} hpos => ?_ }
  · rcases hidx hk with hk | hlc
    · exact hs.index hk
    · exact hlc
  · rcases hwr with hno | ⟨hwr, hpc, hsz⟩
    · rw [hno] at hpos
      cases hpos
    · rw [hwr] at hpos
      have hold := hs.writer hpos
      rw [← hpc, ← hsz] at hold
      exact hold

end

/-! ## What the accesses to files do -/

open Fallible

variable {α : Type} {P Q E F : PackShard → Prop} {c : PackM α} {R : α → PackShard → Prop}

/-- Pre- and postconditions on the shard. -/
def Does (P : PackShard → Prop) (c : PackM α) (R : α → PackShard → Prop)
    (E : PackShard → Prop) : Prop :=
  Spec (fun e => P e.shard) c (fun a e => R a e.shard) fun e => E e.shard

theorem Does.bind {β : Type} {f : α → PackM β} {R' : β → PackShard → Prop}
    (h : Does P c R E) (hf : ∀ a, Does (R a) (f a) R' E) : Does P (c >>= f) R' E := Spec.bind h hf

theorem Does.catching {c' : PackM α} (h : Does P c R E) (h' : Does E c' R F) :
    Does P (catching c c') R F := Spec.catching h h'

theorem Does.weaken {R' : α → PackShard → Prop} (h : Does P c R E) (hP : ∀ s, Q s → P s)
    (hR : ∀ a s, R a s → R' a s := by exact fun _ _ => id) (hE : ∀ s, E s → F s := by exact fun _ => id) :
    Does Q c R' F :=
  Spec.weaken h (fun e => hP e.shard) (fun a e => hR a e.shard) fun e => hE e.shard

theorem Does.fails (h : Does P c R E) (hE : ∀ s, E s → F s) : Does P c R F := h.weaken (fun _ => id) (fun _ _ => id) hE

theorem Does.post {R' : α → PackShard → Prop} (h : Does P c R E) (hR : ∀ a s, R a s → R' a s) :
    Does P c R' E := h.weaken (fun _ => id) hR

theorem does_get_at {β : Type} {f : PackEnv → PackM β} {R' : β → PackShard → Prop}
    (h : ∀ e, e.shard = s → Does (· = s) (f e) R' E) : Does (· = s) (get >>= f) R' E := by
  intro e he
  exact h e he e he

/-- What is done may depend on the shard before. -/
theorem does_of_forall (h : ∀ s, P s → Does (· = s) c R E) : Does P c R E := fun e he => h e.shard he e rfl

theorem Does.at (h : Does P c R E) (hs : P s) : Does (· = s) c R E := h.weaken fun _ h => h ▸ hs

theorem does_pure (a : α) (h : ∀ s, P s → R a s := by exact fun _ => id) : Does P (pure a) R E :=
  spec_pure a fun e => h e.shard

theorem does_throw (h : ∀ s, P s → E s := by exact fun _ => id) : Does P (throw : PackM α) R E :=
  spec_throw fun e => h e.shard

theorem does_get : Does P get (fun e s => P s ∧ e.shard = s) E := spec_get fun _ he => ⟨he, rfl⟩

theorem does_modifyState {f : ShardState → ShardState} (h : ∀ s, P s → Q { s with st := f s.st }) :
    Does P (modifyState f) (fun _ => Q) E := spec_modify fun e he => h e.shard he

theorem does_modifyFiles {f : Files → Files} (h : ∀ s, P s → Q { s with files := f s.files }) :
    Does P (modifyFiles f) (fun _ => Q) E := spec_modify fun e he => h e.shard he

theorem does_nextFault : Does P nextFault (fun _ => P) E := by
  refine does_get.bind fun e => ?_
  exact Does.bind (spec_modify fun _ he => he.1) fun _ => does_pure _ fun _ => id

theorem does_access : Does P access (fun _ => P) P := by
  refine does_nextFault.bind fun fault => ?_
  rcases fault with _ | _ | n
  · exact does_pure ()
  · exact does_throw
  · exact does_throw fun _ => id

theorem does_attempt (h : Does P c R E) :
    Does P (attempt c) (fun o s => (∀ a, o = some a → R a s) ∧ (o = none → E s)) F := by
  refine Does.catching (h.bind fun a => does_pure (some a) ?_) (does_pure none ?_)
  · exact fun s hs => ⟨fun b hb => some.inj hb ▸ hs, nofun⟩
  · exact fun s hs => ⟨nofun, fun _ => hs⟩

theorem does_openRead : Does P (openRead name) (fun content s => P s ∧ s.files.lookup name = some content) P := by
  refine does_access.bind fun _ => ?_
  refine does_get.bind fun e => ?_
  rcases hlk : e.shard.files.lookup name with _ | content
  · exact does_throw fun _ hs => hs.1
  · exact does_pure content fun _ hs => ⟨hs.1, hs.2 ▸ hlk⟩

theorem does_readFileAll :
    Does P (readFileAll name)
      (fun o s => P s ∧ ∀ content, o = some content → s.files.lookup name = some content) F := by
  refine (does_attempt does_openRead).post fun o e he => ?_
  rcases o with _ | content
  · exact ⟨he.2 rfl, nofun⟩
  · obtain ⟨hP, hlk⟩ := he.1 content rfl
    exact ⟨hP, fun _ h => some.inj h ▸ hlk⟩

theorem does_readAt {offset : ℕ} :
    Does P (readAt name offset n) (fun b s => P s ∧ ∃ content, s.files.lookup name = some content ∧
      offset + n ≤ content.length ∧ b = slice content offset n) P := by
  refine does_openRead.bind fun content => ?_
  split
  · rename_i hle
    exact does_pure _ fun e he => ⟨he.1, content, he.2, hle, rfl⟩
  · exact does_throw fun _ he => he.1

theorem does_writeAt {pos : ℕ} {b : Bytes} {R : ℕ → PackShard → Prop}
    (h : ∀ s n, P s → n ≤ b.length → n ≤ maxFileBytes - pos →
      R n { s with files := writeFile name pos (b.take n) s.files }) :
    Does P (writeAt name pos b) R E := by
  refine does_nextFault.bind fun fault => ?_
  have hle : Fault.written b.length fault ≤ b.length := by
    rcases fault with _ | _ | n <;> simp [Fault.written]
  exact (does_modifyFiles fun s hs => h s _ hs (min_le_of_left_le hle) (min_le_right _ _)).bind
    fun _ => does_pure _ fun _ => id

theorem does_writeFileAtomic {b : Bytes} (h : ∀ s m, P s → Q { s with files := s.files.insert name (b.take m) }) :
    Does P (writeFileAtomic name b) (fun _ => Q) P := by
  refine does_nextFault.bind fun fault => ?_
  rcases fault with _ | _ | n
  · refine does_modifyFiles fun s hs => ?_
    have hall := h s b.length hs
    rwa [take_length] at hall
  · exact does_throw fun _ => id
  · exact does_modifyFiles fun s hs => h s n hs

theorem does_removeFile
    (h : ∀ s, P s → Q { s with files := s.files.erase name }) : Does P (removeFile name) (fun _ => Q) P := by
  refine does_access.bind fun _ => ?_
  refine does_get.bind fun e => ?_
  split
  · exact does_modifyFiles fun s hs => h s hs.1
  · exact does_throw fun _ hs => hs.1

/-! ## Loading -/

variable {G : ShardState → Prop}

/-- The sidecar of a pack is written; what else is known of the state stays. -/
theorem does_writeVidx {packSize : ℕ} (hbs : isVpack base) (hN : base ∉ N) :
    Does (fun s => Sound N s ∧ G s.st) (writeVidx cfg base packSize) (fun _ s => Sound N s ∧ G s.st) F := by
  refine does_get.bind fun e => ?_
  refine Does.catching ?_ (does_pure () fun _ => id)
  refine (does_writeFileAtomic fun s m hs => ?_).fails fun _ hs => hs.1
  refine ⟨hs.1.1.setVidx hbs hN ( take_prefix _ _) fun x hx => ?_, hs.1.2⟩
  obtain ⟨hidx, hpc⟩ := mem_liveIn.1 hx
  exact ⟨hpc, hs.2 ▸ hidx⟩

/-- What a shard keeps of its writer while it is loaded. -/
def writerOf (st : ShardState) : Option ℕ × Bytes × ℕ × ℕ :=
  (st.writer, st.writerPack, st.writerSize, st.writerSeq)

/-- The shard is sound, its writer is `w`, and it knows of at most `B` packs. -/
structure Steady (N : Set Bytes) (w : Option ℕ × Bytes × ℕ × ℕ) (B : ℕ) (s : PackShard) : Prop where
  sound : Sound N s
  writer : writerOf s.st = w
  packs : s.st.packs.keys.length ≤ B

variable {w : Option ℕ × Bytes × ℕ × ℕ} {B : ℕ}

/-- Entries that designate records are entered. -/
theorem does_insertLocs (xs : List (Bytes × Loc)) :
    Does (fun s => Steady N w B s ∧ ∀ x ∈ xs, isVpack x.2.pack ∧ Designates s x.1 x.2)
      (forEach xs fun x => modify (insertLoc x)) (fun _ => Steady N w B) F := by
  refine (spec_forEach (I := fun xs (e : PackEnv) => Steady N w B e.shard ∧
    ∀ x ∈ xs, isVpack x.2.pack ∧ Designates e.shard x.1 x.2) xs fun x xs => ?_).post fun _ _ he => he.1
  refine spec_modify fun e he => ?_
  obtain ⟨hs, hxs⟩ := he
  refine ⟨{ hs with sound := hs.sound.setIndex (fun {k loc} hk => ?_) }, fun y hy => hxs y (mem_cons_of_mem _ hy)⟩
  split at hk
  · rcases lookup_insert_eq_some hk with ⟨rfl, rfl⟩ | ⟨-, hk⟩
    · exact .inr (hxs x mem_cons_self)
    · exact .inl hk
  · exact .inl hk

/-- The scan of a pack finds records that were persisted. -/
theorem Sound.scanned (hs : Sound N s) (hbs : isVpack base) (hcn : s.files.lookup base = some content) (own : Bool) :
    ∃ recs, scanRecords content = some recs ∧ ∀ x ∈ recs.map (scannedLoc base own),
      isVpack x.2.pack ∧ Designates s x.1 x.2 := by
  obtain ⟨size, rs, tail, rfl, hrs, htl, -, hlt⟩ := hs.pack hbs hcn
  refine ⟨_, scanRecords_packed htl hlt, fun x hx => ?_⟩
  rw [List.map_map] at hx
  obtain ⟨y, hy, rfl⟩ := List.mem_map.1 hx
  obtain ⟨hmem, hsl⟩ := @slice_of_mem_layout tail _ [] _ hy
  exact ⟨hbs, _, hcn, y.2, hrs _ hmem, rfl, rfl, hsl⟩

/-- The entries of a sidecar designate records. -/
theorem Sound.sidecars (hs : Sound N s) (hbs : isVpack base) (hcn : s.files.lookup base = some content)
    {idx : Option Bytes} (hidx : ∀ b, idx = some b → s.files.lookup (vidxOf base) = some b) (own : Bool) (size : ℕ) :
    ∀ x ∈ (vidxFor base own size idx).1, isVpack x.2.pack ∧ Designates s x.1 x.2 := by
  intro y hy
  rcases idx with _ | idx
  · cases hy
  obtain ⟨packSize, live, hpre, hlv⟩ := hs.sidecar hbs (hidx idx rfl) (by rw [hcn]; rfl)
  obtain ⟨size', -, -, -, -, -, -, hlt⟩ := hs.pack hbs hcn
  have hft : ∀ x ∈ live, Fits x := by
    intro x hx
    obtain ⟨hpc, hds⟩ := hlv x hx
    have hbd := hds.bound (hpc ▸ hcn)
    obtain ⟨-, -, r, -, hk, -⟩ := hds
    exact ⟨hk ▸ r.length_keyfp, by omega, by omega⟩
  obtain ⟨x, hx, rfl⟩ := vidxFor_sub hft hpre hy
  obtain ⟨rfl, hds⟩ := hlv x hx
  exact ⟨hbs, hds⟩

theorem does_rescan (hbs : isVpack base) (size : ℕ) :
    Does (Steady N w B) (rescan cfg base size) (fun _ => Steady N w B) (Steady N w B) := by
  refine does_readFileAll.bind fun buf => ?_
  rcases buf with _ | buf
  · exact does_pure () fun _ hs => hs.1
  refine does_of_forall fun s ⟨hs, hbuf⟩ => ?_
  obtain ⟨recs, hsc, hrc⟩ := hs.sound.scanned hbs (hbuf buf rfl) (isOwn cfg base)
  have hN := hs.sound.not_mem_of_lookup hbs (hbuf buf rfl)
  simp only [hsc]
  refine ((does_insertLocs _).at ⟨hs, hrc⟩).bind fun _ => ?_
  exact (does_writeVidx hbs hN (G := fun st => writerOf st = w ∧ st.packs.keys.length ≤ B)).weaken
    (fun _ hs => ⟨hs.sound, hs.writer, hs.packs⟩) (fun _ _ hs => ⟨hs.1, hs.2.1, hs.2.2⟩) fun _ => id

theorem does_loadOnePack (hbs : isVpack base) :
    Does (Steady N w B) (loadOnePack cfg base) (fun _ => Steady N w (B + 1)) (Steady N w (B + 1)) := by
  refine Does.bind (does_attempt does_openRead) fun content => ?_
  rcases content with _ | content
  · refine does_pure () fun s hs => ?_
    obtain ⟨hsnd, hwr, hpc⟩ := hs.2 rfl
    exact ⟨hsnd, hwr, Nat.le_succ_of_le hpc⟩
  refine does_of_forall fun s hs => ?_
  obtain ⟨hs, hcn⟩ := hs.1 content rfl
  refine Does.bind (does_modifyState (Q := fun s => Steady N w (B + 1) s ∧
    s.files.lookup base = some content) fun s' hs' => ?_) fun _ => ?_
  · subst hs'
    exact ⟨⟨hs.sound.setIndex .inl, hs.writer, (length_keys_insert_le _ _ _).trans (Nat.succ_le_succ hs.packs)⟩, hcn⟩
  refine does_readFileAll.bind fun idx => ?_
  refine does_of_forall fun s' ⟨⟨hs', hcn'⟩, hidx⟩ => ?_
  refine ((does_insertLocs _).at ⟨hs', hs'.sound.sidecars hbs hcn' hidx _ _⟩).bind fun _ => ?_
  split
  · exact does_pure () fun _ => id
  · exact does_rescan hbs _

theorem isVpack_of_mem_vpacks {files : Files} (h : base ∈ vpacks files) : isVpack base := by
  rw [vpacks, mem_mergeSort, mem_filter] at h
  exact h.2

theorem length_vpacks_le (files : Files) : (vpacks files).length ≤ files.keys.length := by
  rw [vpacks, length_mergeSort]
  exact length_filter_le _ _

/-- The packs are loaded one after the other. -/
theorem does_loadPacks (xs : List Bytes) (hxs : ∀ x ∈ xs, isVpack x) :
    Does (fun s => Steady N w B s ∧ s.st.packs.keys.length + xs.length ≤ B) (forEach xs (loadOnePack cfg))
      (fun _ => Steady N w B) (Steady N w B) := by
  induction xs with
  | nil => exact does_pure () fun _ hs => hs.1
  | cons x xs ih =>
    refine does_of_forall fun s ⟨hs, hlen⟩ => ?_
    rw [length_cons] at hlen
    refine Does.bind (((does_loadOnePack (hxs x mem_cons_self)).at
      { hs with packs := le_refl s.st.packs.keys.length }).fails fun s' hs' =>
        { hs' with packs := hs'.packs.trans (by omega) }) fun _ => ?_
    refine (ih fun y hy => hxs y (mem_cons_of_mem _ hy)).weaken (fun s' hs' => ?_) (fun _ _ => id) fun _ => id
    have := hs'.packs
    exact ⟨{ hs' with packs := by omega }, by omega⟩

theorem does_ensureLoaded :
    Does (fun s => Steady N w B s ∧ s.st.packs.keys.length + s.files.keys.length ≤ B)
      (ensureLoaded cfg) (fun _ => Steady N w B) (Steady N w B) := by
  refine does_get.bind fun e => ?_
  split
  · exact does_pure () fun _ hs => hs.1.1
  refine Does.bind (R := fun _ s => Steady N w B s ∧ s.st.packs.keys.length + (vpacks e.shard.files).length ≤ B)
    (does_modifyState fun s ⟨⟨hs, hlen⟩, he⟩ => ?_) fun _ => ?_
  · have := length_vpacks_le s.files
    exact ⟨{ hs with sound := hs.sound.setIndex .inl }, by
      rw [he]
      exact (Nat.add_le_add_left this _).trans hlen⟩
  refine (does_access.fails fun _ hs => hs.1).bind fun _ => ?_
  exact does_loadPacks _ fun x hx => isVpack_of_mem_vpacks hx

/-- Loading keeps what was known of the names and of the writer. -/
theorem does_ensureLoaded_at (hs : Sound N s) :
    Does (· = s) (ensureLoaded cfg) (fun _ => Steady N (writerOf s.st) (s.st.packs.keys.length + s.files.keys.length))
      (Steady N (writerOf s.st) (s.st.packs.keys.length + s.files.keys.length)) :=
  does_ensureLoaded.at ⟨⟨hs, rfl, Nat.le_add_right _ _⟩, le_rfl⟩

/-! ## Writing -/

theorem Sound.writing (hs : Sound N s) (hop : s.st.writer.isSome) :
    isVpack s.st.writerPack ∧ ∃ content, s.files.lookup s.st.writerPack = some content := by
  obtain ⟨pos, hpos⟩ := isSome_iff_exists.1 hop
  obtain ⟨hvp, content, hcn, -⟩ := hs.writer hpos
  exact ⟨hvp, content, hcn⟩

theorem Sound.writerPack_ne (hs : Sound N s) (hop : s.st.writer.isSome)
    (hbs : s.files.lookup base = none) : s.st.writerPack ≠ base := by
  obtain ⟨-, content, hcn⟩ := hs.writing hop
  rintro rfl
  rw [hbs] at hcn
  cases hcn

/-- A pack is made under a name that was not in use. -/
theorem does_openCreate (hbs : isVpack base) (hN : base ∈ N) (hN' : base ∉ N') (hsub : N' ⊆ N) :
    Does (fun s => Sound N s ∧ G s.st) (openCreate base)
      (fun _ s => Sound N' s ∧ G s.st ∧ s.files.lookup base = some []) (fun s => Sound N s ∧ G s.st) := by
  refine does_access.bind fun _ => does_modifyFiles fun s ⟨hs, hG⟩ => ?_
  obtain ⟨hno, hvd⟩ := hs.unused hN hbs
  rw [hno]
  refine ⟨(hs.mono hsub).setOther hbs hN' ⟨0, packed_nil _⟩ (.inr ⟨hno, hvd⟩) fun hop =>
    hs.writerPack_ne hop hno, hG, lookup_insert _⟩

/-- The pack of the writer is closed. -/
theorem does_closeWriter (hG : ∀ st, G st → G { st with writer := none }) :
    Does (fun s => Sound N s ∧ s.st.writer.isSome ∧ G s.st) (closeWriter cfg)
      (fun _ s => Sound N s ∧ s.st.writer = none ∧ G s.st) F := by
  refine does_of_forall fun s ⟨hs, hop, hGs⟩ => ?_
  obtain ⟨hvp, content, hcn⟩ := hs.writing hop
  refine does_get_at fun e he => ?_
  rw [he]
  refine Does.bind (R := fun _ s' => Sound N s' ∧ s'.st = s.st) ?_ fun _ => ?_
  · refine (does_attempt does_access).post fun o s' hs' => ?_
    obtain rfl : s' = s := by
      rcases o with _ | a
      · exact hs'.2 rfl
      · exact hs'.1 a rfl
    exact ⟨hs, rfl⟩
  refine (does_writeVidx hvp (hs.not_mem_of_lookup hvp hcn) (G := (· = s.st))).bind fun _ => ?_
  refine does_modifyState fun s' ⟨hsnd, hst⟩ => ?_
  exact ⟨hsnd.setIndex .inl (.inl rfl), rfl, hst ▸ hG _ hGs⟩

/-- The writer can append: it stands where the index takes it to be. -/
def Appendable (s : PackShard) : Prop := Sound ∅ s ∧ s.st.writer = some s.st.writerSize

variable {m : ℕ}

theorem does_openWriter :
    Does (fun s => Sound {packName cfg m} s ∧ s.st.writer = none ∧ s.st.writerSeq = m)
      (openWriter cfg) (fun _ => Appendable) (Sound ∅) := by
  have hsub : (∅ : Set Bytes) ⊆ {packName cfg m} := Set.empty_subset _
  refine (does_access.fails fun s hs => hs.1.mono hsub).bind fun _ => ?_
  refine Does.bind (R := fun base s => base = packName cfg m ∧ Sound {packName cfg m} s ∧
    s.st.writer = none) ?_ fun base => ?_
  · refine does_get.bind fun e => ?_
    refine Does.bind (does_modifyState fun s ⟨⟨hs, hno, hm⟩, he⟩ => ?_) fun _ => does_pure _ fun _ => id
    exact ⟨by rw [he, hm], hs.setIndex .inl (.inl hno), hno⟩
  refine does_of_forall fun s ⟨hbs, hs, hno⟩ => ?_
  subst hbs
  have hcr := does_openCreate (isVpack_packName m) (Set.mem_singleton (packName cfg m))
    (Set.notMem_empty _) hsub (G := fun st => st.writer = none)
  refine Does.bind ((hcr.at ⟨hs, hno⟩).fails fun s hs => hs.1.mono hsub) fun _ => ?_
  refine does_modifyState fun s ⟨hs, hno, hem⟩ => ⟨?_, rfl⟩
  refine { hs with writer := fun {pos} hpos => ?_ }
  cases hpos
  exact ⟨isVpack_packName m, [], hem, rfl, packed_nil _⟩

/-- The writer is open, and the record fits. -/
def stays (st : ShardState) (target need : ℕ) : Bool := st.writer.isSome && !rolls st target need

theorem does_ensureWriter {target need : ℕ} :
    Does (fun s => Sound N s ∧ (stays s.st target need → s.st.writer = some s.st.writerSize) ∧
        (stays s.st target need = false → packName cfg s.st.writerSeq ∈ N))
      (ensureWriter cfg target need) (fun _ => Appendable) (Sound ∅) := by
  refine does_of_forall fun s ⟨hs, hst, hrl⟩ => ?_
  refine does_get_at fun e he => ?_
  rw [he]
  have hem : Sound ∅ s := hs.mono (Set.empty_subset _)
  split
  · rename_i h
    exact does_pure () fun s' hs' => hs' ▸ ⟨hem, hst h⟩
  rename_i h
  have hs := hs.mono (Set.singleton_subset_iff.2 (hrl (Bool.eq_false_of_not_eq_true h)))
  split
  · rename_i hop
    exact ((does_closeWriter (G := (·.writerSeq = s.st.writerSeq)) fun _ => id).at ⟨hs, hop, rfl⟩).bind
      fun _ => does_openWriter
  · rename_i hcl
    exact does_openWriter.at ⟨hs, not_isSome_iff_eq_none.1 hcl, rfl⟩

/-- A record, or the beginning of one, is written behind a pack. -/
theorem does_writeRecord {size : ℕ} (hnm : s.files.lookup name = some content) (hpk : Packed log size content) :
    Does (· = s) (writeAt name content.length r.buildRecord)
      (fun n s' => n ≤ r.buildRecord.length ∧ (content ++ r.buildRecord.take n).length < 2 ^ 63 ∧
        s' = { s with files := s.files.insert name (content ++ r.buildRecord.take n) }) E := by
  refine does_writeAt fun s' n hs' hn hmax => ⟨hn, ?_, by rw [hs', writeFile_end hnm]⟩
  obtain ⟨-, -, -, -, -, -, hlt⟩ := hpk
  rw [maxFileBytes] at hmax
  rw [length_append, length_take]
  omega

/-- The record stands at the end of the pack, though the index does not have it yet. -/
def Appended (r : PackRecord) (s : PackShard) : Prop :=
  Sound ∅ { s with
    st := { s.st with writerSize := s.st.writerSize + r.buildRecord.length }, log := r :: s.log } ∧
  isVpack s.st.writerPack ∧ ∃ content, s.files.lookup s.st.writerPack = some content ∧
    slice content s.st.writerSize r.buildRecord.length = r.buildRecord

theorem does_writeAll : Does Appendable (writeAll r.buildRecord) (fun _ => Appended r) (Sound ∅) := by
  refine does_of_forall fun s ⟨hs, hpos⟩ => ?_
  obtain ⟨hvp, content, hcn, hlen, hpk⟩ := hs.writer hpos
  refine does_get_at fun e he => ?_
  simp only [he, hpos, getD_some]
  rw [hlen] at hpos hpk ⊢
  refine (does_writeRecord hcn hpk).bind fun n => does_of_forall fun s' ⟨hn, hlt, hs'⟩ => ?_
  -- the shard after the write, as far as the record was written
  have hsnd log (hlog : s.log ⊆ log) (hr : n = r.buildRecord.length → r ∈ log) size
      (hsz : size = if n = r.buildRecord.length then content.length + n else content.length) :
      Sound ∅ { s' with
        st := { s'.st with writer := s'.st.writer.map (· + n), writerSize := size }, log := log } := by
    have hnew := (hpk.mono hlog).append hn hr hlt
    rw [← hsz] at hnew
    subst hs'
    refine hs.setPack hvp (Set.notMem_empty _) ?_ hlog ⟨size, hnew⟩
      (.inl ⟨content, _, hcn, rfl⟩) fun {pos} hpos' => ⟨hvp, _, lookup_insert _, ?_, hnew⟩
    · rfl
    · simp only [hpos, map_some, Option.some.injEq] at hpos'
      rw [← hpos', length_append, length_take, min_eq_left hn]
  refine Does.bind (does_modifyState (Q := (· = { s' with
    st := { s'.st with writer := s'.st.writer.map (· + n) } })) fun _ h => h ▸ rfl) fun _ => ?_
  split
  · rename_i hsh
    refine does_throw fun s'' hs'' => ?_
    have htr := hsnd s.log (fun _ => id) (fun h => absurd h (Nat.ne_of_lt hsh)) content.length
      (if_neg (Nat.ne_of_lt hsh)).symm
    subst hs'' hs'
    rw [← hlen] at htr
    exact htr
  · rename_i hall
    obtain rfl : n = r.buildRecord.length := by omega
    refine does_pure () fun s'' hs'' => ?_
    have hfl := hsnd (r :: s.log) (subset_cons_self _ _) (fun _ => mem_cons_self) _ (if_pos rfl).symm
    subst hs'' hs'
    rw [← hlen] at hfl
    refine ⟨hfl, hvp, _, lookup_insert _, ?_⟩
    have hsl := slice_append content r.buildRecord []
    rw [append_nil, ← hlen] at hsl
    rw [take_length]
    exact hsl

/-- The record is entered into the index. -/
theorem Appended.enter {e : PackEnv} (h : Appended r e.shard) (expiresUnix : Int64) :
    Sound ∅ (enter r expiresUnix e).shard := by
  obtain ⟨hs, hvp, content, hcn, hsl⟩ := h
  refine hs.setIndex (fun {k loc} hk => ?_)
  rcases lookup_insert_eq_some hk with ⟨rfl, rfl⟩ | ⟨-, hk⟩
  · exact .inr ⟨hvp, content, hcn, r, mem_cons_self, rfl, rfl, hsl⟩
  · exact .inl hk

theorem writerOf_eq {st' : ShardState} (h : writerOf st = writerOf st') :
    st.writer = st'.writer ∧ st.writerPack = st'.writerPack ∧ st.writerSize = st'.writerSize ∧
      st.writerSeq = st'.writerSeq := by
  simpa only [writerOf, Prod.mk.injEq] using h

/-- What `Persist` must find: either the writer is open, the record fits, and the writer stands
    where the index takes it to be; or the next name is not in use. -/
abbrev CanAppend (cfg : PackConfig) (target need : ℕ) (s : PackShard) : Prop :=
  if stays s.st target need then s.st.writer = some s.st.writerSize
  else s.files.lookup (packName cfg s.st.writerSeq) = none ∧
    s.files.lookup (vidxOf (packName cfg s.st.writerSeq)) = none

theorem does_persist {expiresUnix : Int64} {target : ℕ} :
    Does (fun s => Sound ∅ s ∧ CanAppend cfg target r.buildRecord.length s)
      (persist cfg r expiresUnix target) (fun _ => Sound ∅) F := by
  refine does_of_forall fun s ⟨hs, hcn⟩ => ?_
  have hct : Does (Sound ∅) (pure false : PackM Bool) (fun _ => Sound ∅) F := does_pure false fun _ => id
  refine Does.catching ?_ hct
  -- the names that must not be in use until the pack is opened
  obtain ⟨N, hN, hrl⟩ : ∃ N, Sound N s ∧
      (stays s.st target r.buildRecord.length = false → packName cfg s.st.writerSeq ∈ N) := by
    rw [CanAppend] at hcn
    split at hcn
    · rename_i h
      exact ⟨∅, hs, fun h' => by rw [h] at h'; cases h'⟩
    · refine ⟨{packName cfg s.st.writerSeq}, { hs with unused := fun {b} hb _ => ?_ }, fun _ => rfl⟩
      rw [Set.mem_singleton_iff.1 hb]
      exact hcn
  have hst (h : stays s.st target r.buildRecord.length) : s.st.writer = some s.st.writerSize := by
    rwa [CanAppend, if_pos h] at hcn
  refine Does.bind ((does_ensureLoaded_at hN).fails fun _ h => h.sound.mono (Set.empty_subset _)) fun _ => ?_
  refine Does.bind ((does_ensureWriter (N := N)).weaken fun s' hs' => ?_) fun _ => does_writeAll.bind fun _ => ?_
  · obtain ⟨hw, -, hsz, hseq⟩ := writerOf_eq hs'.writer
    have hsts : stays s'.st target r.buildRecord.length = stays s.st target r.buildRecord.length := by
      rw [stays, stays, rolls, rolls, hw, hsz]
    rw [hsts, hw, hsz, hseq]
    exact ⟨hs'.sound, hst, hrl⟩
  · exact Does.bind (spec_modify fun _ h => h.enter expiresUnix) fun _ => does_pure true fun _ => id

/-! ## Looking up -/

variable {nowUnix : Int64}

theorem does_lookup {keyfp : Bytes} : Does (Sound ∅) (lookup cfg keyfp nowUnix) (fun _ => Sound ∅) (Sound ∅) := by
  refine does_of_forall fun s hs => ?_
  refine Does.bind ((does_ensureLoaded_at hs).weaken (fun _ => id) (fun _ _ h => h.sound)
    fun _ h => h.sound) fun _ => ?_
  refine does_get.bind fun e => ?_
  split
  · exact does_pure none fun _ h => h.1
  split
  · exact does_pure none fun _ h => h.1
  refine Does.bind (R := fun _ => Sound ∅) ((does_attempt does_readAt).post fun o s' hs' => ?_) fun o => ?_
  · rcases o with _ | b
    · exact (hs'.2 rfl).1
    · exact (hs'.1 b rfl).1.1
  rcases o with _ | buf
  · exact does_pure none
  simp only
  split
  · exact does_pure none
  · exact does_pure _ fun _ => id

/-! ## Reaping -/

/-- The names with a number from `m` on. -/
def Names (cfg : PackConfig) (m : ℕ) : Set Bytes := { b | ∃ n, m ≤ n ∧ b = packName cfg n }

theorem packName_mem_names : packName cfg n ∈ Names cfg m ↔ m ≤ n := by
  refine ⟨?_, fun h => ⟨n, h, rfl⟩⟩
  rintro ⟨n', hle, hnm⟩
  rwa [packName_inj hnm]

theorem names_subset (h : m ≤ n) : Names cfg n ⊆ Names cfg m := by
  rintro b ⟨k, hk, rfl⟩
  exact ⟨k, h.trans hk, rfl⟩

theorem does_removePackFiles
    (hG : ∀ s, Sound N s → G s.st → (∀ {k loc}, s.st.index.lookup k = some loc → loc.pack ≠ base) ∧
      (s.st.writer.isSome → s.st.writerPack ≠ base)) :
    Does (fun s => Sound N s ∧ G s.st) (removePackFiles base) (fun _ s => Sound N s ∧ G s.st) F := by
  have hrm name (hnm : ∀ s, Sound N s → G s.st →
      (∀ {k loc}, s.st.index.lookup k = some loc → loc.pack ≠ name) ∧ (s.st.writer.isSome → s.st.writerPack ≠ name)) :
      Does (fun s => Sound N s ∧ G s.st) (attempt (removeFile name)) (fun _ s => Sound N s ∧ G s.st) F := by
    refine (does_attempt (does_removeFile (Q := fun s => Sound N s ∧ G s.st) fun s hs => ?_)).post fun o s hs => ?_
    · obtain ⟨hidx, hwr⟩ := hnm s hs.1 hs.2
      exact ⟨hs.1.eraseFile hidx hwr, hs.2⟩
    · rcases o with _ | _
      · exact hs.2 rfl
      · exact hs.1 () rfl
  refine (hrm base hG).bind fun _ => (hrm (vidxOf base) fun s hs _ => ⟨?_, ?_⟩).bind fun _ => does_pure () fun _ => id
  · intro k loc hk
    exact vidxOf_ne (hs.index hk).1
  · exact fun hop => vidxOf_ne (hs.writing hop).1

/-- What holds while the records `live` of a pack are still to be copied, and `off` bytes were copied. -/
structure Copying (N : Set Bytes) (base newBase : Bytes) (m : ℕ) (p : Bytes)
    (live : List (Bytes × Loc)) (off : ℕ) (s : PackShard) : Prop where
  sound : Sound N s
  seq : s.st.writerSeq = m
  writerPack : s.st.writerPack = p
  other : s.st.writer.isSome → s.st.writerPack ≠ newBase
  copied : ∃ content, s.files.lookup newBase = some content ∧ content.length = off ∧
    Packed s.log off content
  left : ∀ x ∈ live, x.2.pack = base ∧ Designates s x.1 x.2
  rest : ∀ {k loc}, s.st.index.lookup k = some loc → loc.pack = base → k ∈ live.map (·.1)

variable {p : Bytes}

theorem does_copyLive {newBase : Bytes} (hbs : isVpack base) (hnew : isVpack newBase) (hne : newBase ≠ base)
    (hN : newBase ∉ N) (live : List (Bytes × Loc)) (off : ℕ) :
    Does (Copying N base newBase m p live off) (copyLive base newBase live off)
      (fun off' => Copying N base newBase m p [] off')
      (fun s => Sound N s ∧ s.st.writerSeq = m ∧ s.st.writerPack = p) := by
  induction live generalizing off with
  | nil => exact does_pure off fun _ => id
  | cons x live ih =>
    obtain ⟨k, loc⟩ := x
    refine Does.bind (does_readAt.fails fun s hs => ⟨hs.sound, hs.seq, hs.writerPack⟩) fun buf => ?_
    refine does_of_forall fun s ⟨hs, content, hcn, hle, hbuf⟩ => ?_
    obtain ⟨hpc, content', hcn', r, hr, hk, hlen, hsl⟩ := hs.left _ mem_cons_self
    obtain ⟨copied, hcpd, hof, hpk⟩ := hs.copied
    obtain rfl : content' = content := by
      rw [hpc, hcn, Option.some.injEq] at hcn'
      exact hcn'.symm
    obtain rfl : buf = r.buildRecord := hbuf.trans hsl
    subst hof
    refine (does_writeRecord hcpd hpk).bind fun n => does_of_forall fun s' ⟨hn, hlt, hs'⟩ => ?_
    have hpk' := hpk.append hn (fun _ => hr) hlt
    have hsnd : Sound N s' := by
      subst hs'
      exact hs.sound.setOther hnew hN ⟨_, hpk'⟩ (.inl ⟨copied, _, hcpd, rfl⟩) hs.other
    have hext : Extends s.files s'.files :=
      hs' ▸ extends_insert fun old hold => ⟨_, by rw [some.inj (hcpd.symm.trans hold)]⟩
    split
    · exact does_throw fun s'' hs'' => by
        rw [hs'', hs']
        exact ⟨hs' ▸ hsnd, hs.seq, hs.writerPack⟩
    rename_i hall
    obtain rfl : n = r.buildRecord.length := by omega
    rw [take_length] at hs' hpk'
    rw [if_pos rfl] at hpk'
    refine Does.bind (does_modifyState fun s'' hs'' => ?_) fun _ => ih _
    subst hs''
    have hfl : s''.files.lookup newBase = some (copied ++ r.buildRecord) := by
      rw [hs']
      exact lookup_insert _
    have hds : Designates s'' k { loc with pack := newBase, offset := copied.length } := by
      refine ⟨_, hfl, r, by rw [hs']; exact hr, hk, hlen, ?_⟩
      have hcp := slice_append copied r.buildRecord []
      rwa [append_nil, ← hlen] at hcp
    have hst : s''.st = s.st := by rw [hs']
    have hlog : s''.log = s.log := by rw [hs']
    refine ⟨hsnd.setIndex (fun {k' loc'} hk' => ?_), ?_, ?_, ?_,
      ⟨_, hfl, ?_, ?_⟩, fun x hx => ?_, fun {k' loc'} hk' hlc' => ?_⟩
    · rcases lookup_insert_eq_some hk' with ⟨rfl, rfl⟩ | ⟨-, hk'⟩
      · exact .inr ⟨hnew, hds⟩
      · exact .inl hk'
    · rw [hst]
      exact hs.seq
    · rw [hst]
      exact hs.writerPack
    · rw [hst]
      exact hs.other
    · rw [length_append, hlen]
    · rw [hlen, hlog]
      exact hpk'
    · obtain ⟨hx', hds'⟩ := hs.left x (mem_cons_of_mem _ hx)
      exact ⟨hx', hds'.mono (hx' ▸ hbs) hext (by rw [hlog]; exact fun _ => id)⟩
    · rcases lookup_insert_eq_some hk' with ⟨rfl, rfl⟩ | ⟨hkk, hk'⟩
      · exact absurd hlc' hne
      · rw [hst] at hk'
        rcases mem_cons.1 (hs.rest hk' hlc') with h | h
        · exact absurd h hkk
        · exact h

/-- The state of the names and of the writer while packs are compacted. -/
structure Compacting (cfg : PackConfig) (p : Bytes) (left : ℕ) (s : PackShard) : Prop where
  sound : Sound (Names cfg s.st.writerSeq) s
  writerPack : s.st.writerPack = p
  bound : s.st.writerSeq + left < 2 ^ 32

theorem does_compactInto (hbs : isVpack base) (hs : Sound (Names cfg m) s) (hseq : s.st.writerSeq = m + 1)
    (hpc : s.st.writerPack = p) :
    Does (· = s) (compactInto cfg base (packName cfg m) (liveIn cfg s.st base))
      (fun _ s' => (Sound (Names cfg (m + 1)) s' ∧ s'.st.writerSeq = m + 1 ∧ s'.st.writerPack = p) ∧
        ∀ {k loc}, s'.st.index.lookup k = some loc → loc.pack ≠ base)
      (fun s' => Sound (Names cfg (m + 1)) s' ∧ s'.st.writerSeq = m + 1 ∧ s'.st.writerPack = p) := by
  have hsub : Names cfg (m + 1) ⊆ Names cfg m := names_subset (Nat.le_succ m)
  have hnew : isVpack (packName cfg m) := isVpack_packName m
  have hmem : packName cfg m ∈ Names cfg m := packName_mem_names.2 le_rfl
  have hN : packName cfg m ∉ Names cfg (m + 1) := fun h => Nat.not_succ_le_self m (packName_mem_names.1 h)
  refine Does.bind (does_openRead.fails fun s' hs' => hs' ▸ ⟨hs.mono hsub, hseq, hpc⟩) fun content => ?_
  refine does_of_forall fun s' ⟨hs', hcn⟩ => ?_
  subst hs'
  -- the old pack has a name in use, the new one does not
  have hne : packName cfg m ≠ base := by
    rintro rfl
    rw [(hs.unused hmem hnew).1] at hcn
    cases hcn
  have hcr := does_openCreate hnew hmem hN hsub (G := (· = s'.st))
  refine Does.bind ((hcr.at ⟨hs, rfl⟩).fails fun s₁ hs₁ => ?_) fun _ => ?_
  · rw [hs₁.2]
    exact ⟨hs₁.1.mono hsub, hseq, hpc⟩
  refine Does.bind ((does_copyLive hbs hnew hne hN (liveIn cfg s'.st base) 0).weaken
    (fun s₁ ⟨hs₁, hst, hem⟩ => ?_) (fun _ _ => id) fun _ => id) fun size => ?_
  · refine ⟨hs₁, hst ▸ hseq, hst ▸ hpc, fun hop => ?_, ⟨[], hem, rfl, packed_nil _⟩,
      fun x hx => ?_, fun {k loc} hk hlc => ?_⟩
    · rw [hst] at hop ⊢
      exact hs.writerPack_ne hop (hs.unused hmem hnew).1
    · obtain ⟨hidx, hx'⟩ := mem_liveIn.1 hx
      exact ⟨hx', (hs₁.index (hst ▸ hidx)).2⟩
    · exact List.mem_map.2 ⟨(k, loc), mem_liveIn.2 ⟨hst ▸ hk, hlc⟩, rfl⟩
  refine (does_access.fails fun s₁ hs₁ => ⟨hs₁.sound, hs₁.seq, hs₁.writerPack⟩).bind fun _ => ?_
  refine Does.bind (R := fun _ s₁ => Sound (Names cfg (m + 1)) s₁ ∧ (s₁.st.writerSeq = m + 1 ∧
    s₁.st.writerPack = p) ∧ ∀ {k loc}, s₁.st.index.lookup k = some loc → loc.pack ≠ base)
    (does_modifyState fun s₁ hs₁ => ?_) fun _ => ?_
  · exact ⟨hs₁.sound.setIndex .inl, ⟨hs₁.seq, hs₁.writerPack⟩, fun hk hlc => nomatch hs₁.rest hk hlc⟩
  · exact (does_writeVidx hnew hN (G := fun st => (st.writerSeq = m + 1 ∧ st.writerPack = p) ∧
      ∀ {k loc}, st.index.lookup k = some loc → loc.pack ≠ base)).post fun _ s₁ hs₁ => ⟨⟨hs₁.1, hs₁.2.1⟩, hs₁.2.2⟩

theorem does_compactPack (hbs : base ≠ p) {left : ℕ} :
    Does (Compacting cfg p (left + 1)) (compactPack cfg base) (fun _ => Compacting cfg p left) F := by
  refine does_of_forall fun s hs => ?_
  obtain ⟨hsnd, hpc, hbd⟩ := hs
  refine does_get_at fun e he => ?_
  dsimp only
  rw [he]
  split
  · -- no record of the pack is live
    rename_i hem
    have hde {k : Bytes} {loc : Loc} (hk : s.st.index.lookup k = some loc) : loc.pack ≠ base := by
      intro hlc
      have hmem : (k, loc) ∈ liveIn cfg s.st base := mem_liveIn.2 ⟨hk, hlc⟩
      rw [List.isEmpty_iff.1 hem] at hmem
      cases hmem
    refine Does.bind (does_modifyState (Q := fun s' => Sound (Names cfg s.st.writerSeq) s' ∧
      s'.st = { s.st with packs := s.st.packs.erase base }) fun s' hs' => ?_) fun _ => ?_
    · subst hs'
      exact ⟨hsnd.setIndex .inl, rfl⟩
    refine (does_removePackFiles (G := (· = { s.st with packs := s.st.packs.erase base }))
      fun s' _ hst => ?_).post fun _ s' ⟨hs', hst⟩ => ?_
    · rw [hst]
      exact ⟨hde, fun _ => hpc ▸ hbs.symm⟩
    · have hseq : s'.st.writerSeq = s.st.writerSeq := by rw [hst]
      exact ⟨hseq ▸ hs', by rw [hst]; exact hpc, by omega⟩
  · rename_i hlv
    obtain ⟨x, hx⟩ := exists_mem_of_ne_nil _ fun h => hlv (List.isEmpty_iff.2 h)
    obtain ⟨hidx, rfl⟩ := mem_liveIn.1 hx
    have hvp := (hsnd.index hidx).1
    have hnx : (s.st.writerSeq + 1) % 2 ^ 32 = s.st.writerSeq + 1 := Nat.mod_eq_of_lt (by omega)
    -- the next name is taken
    let s₁ : PackShard := { s with st := { s.st with writerSeq := s.st.writerSeq + 1 } }
    refine Does.bind (R := fun newBase s' => newBase = packName cfg s.st.writerSeq ∧ s' = s₁) ?_ fun newBase => ?_
    · refine does_get_at fun e he => ?_
      refine Does.bind (does_modifyState fun s' hs' => ?_) fun _ => does_pure _ fun s' hs' => ⟨by rw [he], hs'⟩
      rw [hs', hnx]
    refine does_of_forall fun s' ⟨hnew, hs'⟩ => ?_
    rw [hnew, hs']
    have hs₁ : Sound (Names cfg s.st.writerSeq) s₁ := hsnd.setIndex .inl
    refine Does.bind (does_attempt (does_compactInto hvp hs₁ rfl hpc)) fun o => ?_
    rcases o with _ | _
    · refine does_pure () fun s' hs' => ?_
      obtain ⟨hs', hseq, hpc'⟩ := hs'.2 rfl
      exact ⟨hseq ▸ hs', hpc', by omega⟩
    · refine (does_removePackFiles (N := Names cfg (s.st.writerSeq + 1)) (G := fun st =>
        (st.writerSeq = s.st.writerSeq + 1 ∧ st.writerPack = p) ∧
          ∀ {k loc}, st.index.lookup k = some loc → loc.pack ≠ x.2.pack) fun s' _ hs' => ?_).weaken
        (fun s' hs' => ?_) (fun _ s' hs' => ?_) fun _ => id
      · exact ⟨hs'.2, fun _ => hs'.1.2 ▸ hbs.symm⟩
      · obtain ⟨⟨hs', hseq⟩, hrs⟩ := hs'.1 () rfl
        exact ⟨hs', hseq, hrs⟩
      · obtain ⟨hs', ⟨hseq, hpc'⟩, -⟩ := hs'
        exact ⟨hseq ▸ hs', hpc', by omega⟩

variable {deadPct : ℕ}

theorem mem_toCompact_ne (h : base ∈ toCompact cfg st deadPct) : base ≠ st.writerPack := by
  rw [toCompact, List.mem_map] at h
  obtain ⟨x, hx, rfl⟩ := h
  have := (mem_filter.1 hx).2
  simp only [Bool.and_eq_true, decide_eq_true_eq] at this
  exact this.1.2

theorem length_toCompact_le (st : ShardState) (deadPct : ℕ) :
    (toCompact cfg st deadPct).length ≤ st.packs.keys.length := by
  rw [toCompact, length_map]
  refine (length_filter_le _ _).trans_eq ?_
  rw [(cfg.order_perm _).length_eq, length_map, AList.keys, List.keys, length_map]

/-- No name from the next one on is in use, and there are names for all packs. -/
structure Ready (cfg : PackConfig) (s : PackShard) : Prop where
  sound : Sound (Names cfg s.st.writerSeq) s
  bound : s.st.writerSeq + s.st.packs.keys.length < 2 ^ 32

theorem does_sealWriter {packs : AList fun _ : Bytes => PackMeta} :
    Does (fun s => Sound N s ∧ s.st.writerSeq = m ∧ s.st.packs = packs) (sealWriter cfg)
      (fun _ s => Sound N s ∧ s.st.writerSeq = m ∧ s.st.packs = packs) F := by
  refine does_of_forall fun s ⟨hs, hst⟩ => ?_
  refine does_get_at fun e he => ?_
  rw [he]
  split
  · rename_i hop
    refine Does.bind ((does_closeWriter (G := fun st => st.writerSeq = m ∧ st.packs = packs) fun _ => id).at
      ⟨hs, hop, hst⟩) fun _ => does_modifyState fun s' ⟨hs', hno, hst'⟩ => ?_
    exact ⟨hs'.setIndex .inl (.inl hno), hst'⟩
  · exact does_pure () fun s' hs' => hs' ▸ ⟨hs, hst⟩

theorem does_compactAll (xs : List Bytes) (hxs : ∀ x ∈ xs, x ≠ p) :
    Does (Compacting cfg p xs.length) (forEach xs (compactPack cfg)) (fun _ => Compacting cfg p 0) F := by
  induction xs with
  | nil => exact does_pure () fun _ => id
  | cons x xs ih =>
    exact (does_compactPack (hxs x mem_cons_self)).bind fun _ => ih fun y hy => hxs y (mem_cons_of_mem _ hy)

theorem does_reclaim : Does (Ready cfg) (reclaim cfg deadPct) (fun _ => Sound ∅) F := by
  refine does_of_forall fun s ⟨hs, hbd⟩ => ?_
  refine does_get_at fun e he => ?_
  dsimp only
  have hrs : Does (fun s' => Sound (Names cfg s.st.writerSeq) s' ∧ s'.st.writerSeq = s.st.writerSeq ∧
      s'.st.packs = s.st.packs)
      (do
        let e ← get
        forEach (toCompact cfg e.shard.st deadPct) (compactPack cfg)) (fun _ => Sound ∅) F := by
    refine does_of_forall fun s' ⟨hs', hseq, hpc⟩ => ?_
    refine does_get_at fun e he => ?_
    rw [he]
    have hlen : (toCompact cfg s'.st deadPct).length ≤ s'.st.packs.keys.length := length_toCompact_le _ _
    rw [hpc] at hlen
    exact ((does_compactAll _ fun x hx => mem_toCompact_ne hx).at
      ⟨hseq.symm ▸ hs', rfl, by omega⟩).post fun _ s'' hs'' => hs''.sound.mono (Set.empty_subset _)
  split
  · exact (does_sealWriter.at ⟨hs, rfl, rfl⟩).bind fun _ => hrs
  · exact hrs.at ⟨hs, rfl, rfl⟩

variable {index : AList fun _ : Bytes => Loc}

/-- An index with fewer entries is as sound. -/
theorem Sound.shrink (hs : Sound N s) (h : ∀ {k loc}, index.lookup k = some loc → s.st.index.lookup k = some loc) :
    Sound N { s with st := { s.st with index := index } } :=
  hs.setIndex (fun hk => .inl (h hk))

/-- What has expired is dropped, and nothing is added. -/
theorem lookup_expired (xs : List (Sigma fun _ : Bytes => Loc)) {k : Bytes} {loc : Loc}
    (h : (xs.foldl (fun index x => if isStale x.2 nowUnix then index.erase x.1 else index) index).lookup k = some loc) :
    index.lookup k = some loc := by
  induction xs generalizing index with
  | nil => exact h
  | cons x xs ih =>
    have hx := ih h
    dsimp only at hx
    split at hx
    · exact lookup_erase_sub hx
    · exact hx

/-- What `Reap` must find in a shard: no name from the next one on is in use, and there are names for all packs. -/
structure CanCompact (cfg : PackConfig) (s : PackShard) : Prop where
  unused : ∀ n, s.st.writerSeq ≤ n → s.files.lookup (packName cfg n) = none ∧
    s.files.lookup (vidxOf (packName cfg n)) = none
  bound : s.st.writerSeq + s.st.packs.keys.length + s.files.keys.length < 2 ^ 32

theorem does_expire :
    Does (fun s => Sound ∅ s ∧ CanCompact cfg s) (expire cfg nowUnix) (fun _ => Ready cfg) (Sound ∅) := by
  refine does_of_forall fun s ⟨hs, hun, hbd⟩ => ?_
  have hs : Sound (Names cfg s.st.writerSeq) s := by
    refine { hs with unused := ?_ }
    rintro b ⟨n, hn, rfl⟩ -
    exact hun n hn
  refine Does.bind ((does_ensureLoaded_at hs).fails fun _ h => h.sound.mono (Set.empty_subset _)) fun _ =>
    does_modifyState fun s' hs' => ?_
  obtain ⟨-, -, -, hseq⟩ := writerOf_eq hs'.writer
  refine ⟨?_, ?_⟩
  · have hnm : Names cfg s'.st.writerSeq = Names cfg s.st.writerSeq := by rw [hseq]
    rw [hnm]
    exact hs'.sound.shrink (lookup_expired _)
  · have := hs'.packs
    change s'.st.writerSeq + s'.st.packs.keys.length < 2 ^ 32
    omega

/-! ## All shards -/

variable {k : Bytes × Bytes}

/-- What is done on one shard leaves the others as they are. -/
theorem spec_onShard (hc : Does P c (fun _ => Q) E) {I J X : (Bytes × Bytes → PackShard) → Prop}
    (hP : ∀ f, I f → P (f k)) (hQ : ∀ f s, I f → Q s → J (Function.update f k s))
    (hE : ∀ f s, I f → E s → X (Function.update f k s)) :
    Spec (fun w => I w.shards) (onShard k c) (fun _ w => J w.shards) fun w => X w.shards := by
  intro w hw
  have h := hc { w with shard := w.shards k } (hP _ hw)
  rw [onShard, zoom]
  rcases hcs : c { w with shard := w.shards k } with ⟨_ | a, e⟩ <;> rw [hcs] at h
  · exact hE _ _ hw h
  · exact hQ _ _ hw h

variable {w : PackWorld}

theorem sound_evictOldest {maxBytes : ℤ} (es : List (ℕ × (Bytes × Bytes) × Bytes)) (total : ℤ)
    {J : Bytes × Bytes → PackShard → Prop} (hJ : ∀ k s keyfp, J k s → J k (dropKey s keyfp))
    (hw : ∀ k, J k (w.shards k)) (k : Bytes × Bytes) : J k ((evictOldest maxBytes es total w).shards k) := by
  induction es generalizing total w with
  | nil => exact hw k
  | cons x es ih =>
    rw [evictOldest]
    split
    · exact hw k
    split
    · exact ih total hw
    · exact ih _ ((forall_update_iff _ J).2 ⟨hJ _ _ _ (hw _), fun k' _ => hw k'⟩)

theorem Sound.dropKey (hs : Sound N s) (keyfp : Bytes) : Sound N (dropKey s keyfp) := hs.shrink lookup_erase_sub

theorem Ready.dropKey (hs : Ready cfg s) (keyfp : Bytes) : Ready cfg (dropKey s keyfp) :=
  ⟨hs.sound.dropKey keyfp, hs.bound⟩

/-- All shards are sound, those still to be done are `J`, and the others of `keys` are `K`. -/
structure Phase (J K : PackShard → Prop) (keys ks : List (Bytes × Bytes))
    (f : Bytes × Bytes → PackShard) : Prop where
  nodup : ks.Nodup
  sound : ∀ k, Sound ∅ (f k)
  todo : ∀ {k}, k ∈ ks → J (f k)
  done : ∀ {k}, k ∈ keys → k ∉ ks → K (f k)

variable {f : Bytes × Bytes → PackShard} {keys : List (Bytes × Bytes)} {J K : PackShard → Prop}

theorem sound_update (hf : ∀ k, Sound ∅ (f k)) (k : Bytes × Bytes) (hs : Sound ∅ s) :
    ∀ k', Sound ∅ (Function.update f k s k') :=
  (forall_update_iff f fun _ => Sound ∅).2 ⟨hs, fun k' _ => hf k'⟩

theorem Phase.update {ks : List (Bytes × Bytes)} (hf : Phase J K keys (k :: ks) f) (hs : Sound ∅ s) (hK : K s) :
    Phase J K keys ks (Function.update f k s) := by
  obtain ⟨hk, hnd⟩ := nodup_cons.1 hf.nodup
  refine ⟨hnd, sound_update hf.sound k hs, fun {k'} hk' => ?_, fun {k'} hkeys hks => ?_⟩
  all_goals rcases eq_or_ne k' k with rfl | hne
  · exact absurd hk' hk
  · rw [update_of_ne hne]
    exact hf.todo (mem_cons_of_mem _ hk')
  · rwa [update_self]
  · rw [update_of_ne hne]
    exact hf.done hkeys fun h => (mem_cons.1 h).elim hne hks

/-- The shards are gone through one after the other. -/
theorem spec_forShards {body : PackM Unit} (hbd : Does J body (fun _ s => Sound ∅ s ∧ K s) (Sound ∅)) :
    Spec (fun w => Phase J K keys keys w.shards) (forEach keys fun k => onShard k body)
      (fun _ w => Phase J K keys [] w.shards) fun w => ∀ k, Sound ∅ (w.shards k) :=
  spec_forEach (I := fun ks (w : PackWorld) => Phase J K keys ks w.shards) keys fun _ _ =>
    spec_onShard (X := fun f => ∀ k, Sound ∅ (f k)) hbd
      (fun _ hf => hf.todo mem_cons_self) (fun _ _ hf hs => hf.update hs.1 hs.2)
      fun _ _ hf hs => sound_update hf.sound _ hs

theorem spec_reap {dir : Bytes} {shardHashes : List Bytes} (hnd : shardHashes.Nodup) {maxBytes : UInt64} :
    Spec (fun w => (∀ k, Sound ∅ (w.shards k)) ∧ ∀ sh ∈ shardHashes, CanCompact cfg (w.shards (dir, sh)))
      (reap cfg dir shardHashes nowUnix maxBytes deadPct)
      (fun _ w => ∀ k, Sound ∅ (w.shards k)) fun w => ∀ k, Sound ∅ (w.shards k) := by
  have hks : (shardHashes.map fun sh => (dir, sh)).Nodup := hnd.map fun _ _ h => (Prod.mk.inj h).2
  have hex : Does (fun s => Sound ∅ s ∧ CanCompact cfg s) (expire cfg nowUnix)
      (fun _ s => Sound ∅ s ∧ Ready cfg s) (Sound ∅) :=
    does_expire.post fun _ _ hs => ⟨hs.sound.mono (Set.empty_subset _), hs⟩
  have hrc : Does (Ready cfg) (reclaim cfg deadPct) (fun _ s => Sound ∅ s ∧ True) (Sound ∅) :=
    does_reclaim.post fun _ _ hs => ⟨hs, trivial⟩
  -- the last loop, from shards that are ready
  have hls : Spec (fun w : PackWorld => ∀ k, Sound ∅ (w.shards k) ∧
      (k ∈ shardHashes.map (fun sh => (dir, sh)) → Ready cfg (w.shards k)))
      (forEach (shardHashes.map fun sh => (dir, sh)) fun k => onShard k (reclaim cfg deadPct))
      (fun _ w => ∀ k, Sound ∅ (w.shards k)) fun w => ∀ k, Sound ∅ (w.shards k) :=
    (spec_forShards hrc).weaken (fun w hw => ⟨hks, fun k => (hw k).1, fun {k} => (hw k).2, fun _ _ => trivial⟩)
      (fun _ w hw => hw.sound) fun _ => id
  refine ((spec_forShards hex).pre fun w hw => ⟨hks, hw.1, fun {k} hk => ?_, fun h h' => absurd h h'⟩).bind fun _ => ?_
  · obtain ⟨sh, hsh, rfl⟩ := List.mem_map.1 hk
    exact ⟨hw.1 _, hw.2 sh hsh⟩
  split
  · refine Spec.bind (spec_modify fun w hw k => ?_) fun _ => hls
    refine sound_evictOldest (J := fun k s => Sound ∅ s ∧ (k ∈ shardHashes.map (fun sh => (dir, sh)) → Ready cfg s)) _ _
      (fun k s keyfp hs => ⟨hs.1.dropKey keyfp, fun hk => (hs.2 hk).dropKey keyfp⟩)
      (fun k => ⟨hw.sound k, fun hk => hw.done hk not_mem_nil⟩) k
  · exact hls.pre fun w hw k => ⟨hw.sound k, fun hk => hw.done hk not_mem_nil⟩

/-- What an operation must find. -/
def Safe (cfg : PackConfig) (w : PackWorld) : PackOp → Prop
  | .persist dir shard r _ target => CanAppend cfg target r.buildRecord.length (w.shards (dir, shard))
  | .reap dir shardHashes _ _ _ _ => ∀ sh ∈ shardHashes, CanCompact cfg (w.shards (dir, sh))
  | _ => True

theorem sound_forget (hs : Sound ∅ s) : Sound ∅ (forget s) := hs.setIndex nofun (.inl rfl)

/-- An operation on one shard. -/
theorem spec_sound_onShard (hc : Does P c (fun _ => Sound ∅) (Sound ∅)) :
    Spec (fun w : PackWorld => (∀ k, Sound ∅ (w.shards k)) ∧ P (w.shards k)) (onShard k c)
      (fun _ w => ∀ k, Sound ∅ (w.shards k)) fun w => ∀ k, Sound ∅ (w.shards k) :=
  spec_onShard (I := fun f => (∀ k, Sound ∅ (f k)) ∧ P (f k)) (J := fun f => ∀ k, Sound ∅ (f k))
    (X := fun f => ∀ k, Sound ∅ (f k)) hc (fun _ hf => hf.2)
    (fun _ _ hf hs => sound_update hf.1 k hs) fun _ _ hf hs => sound_update hf.1 k hs

/-- An operation keeps all shards sound. -/
theorem sound_perform {op : PackOp} (hw : ∀ k, Sound ∅ (w.shards k)) (hop : Safe cfg w op) :
    ∀ k, Sound ∅ ((perform cfg op w).2.shards k) := by
  rcases op with ⟨dir, shard, r, expiresUnix, target⟩ | ⟨dir, shard, keyfp, nowUnix⟩ |
    ⟨dir, shardHashes, hnd, nowUnix, maxBytes, deadPct⟩ | ⟨dir, shard⟩ | _
  · exact ((spec_sound_onShard does_persist).bind fun _ => spec_pure () fun _ => id).state ⟨hw, hw _, hop⟩
  · exact ((spec_sound_onShard does_lookup).bind fun _ => spec_pure () fun _ => id).state ⟨hw, hw _⟩
  · exact (spec_reap hnd).state ⟨hw, hop⟩
  · have hfr : Does (Sound ∅) (modify fun e => { e with shard := forget e.shard })
        (fun _ => Sound ∅) (Sound ∅) := spec_modify fun _ he => sound_forget he
    exact (spec_sound_onShard hfr).state ⟨hw, hw _⟩
  · exact fun k => sound_forget (hw k)

theorem sound_empty : Sound ∅ {} where
  index h := nomatch h
  sidecar _ h := nomatch h
  pack _ h := nomatch h
  writer h := nomatch h
  unused h := nomatch h

/-- In every run whose operations find what they must, all shards are sound. -/
theorem sound_run {as : List (PackOp × List Fault)} (hsafe : (machine cfg).Along (fun w x => Safe cfg w x.1) {} as)
    (hrun : (machine cfg).run {} as = some w) : ∀ k, Sound ∅ (w.shards k) := by
  refine Machine.run_invariant_along (I := fun w => ∀ k, Sound ∅ (w.shards k)) (fun hw hx h => ?_)
    (fun _ => sound_empty) hsafe hrun
  cases h
  exact sound_perform hw hx

/-- After the run, the index of each shard designates records persisted for its keys. -/
def IndexSound (cfg : PackConfig) (as : List (PackOp × List Fault)) : Prop :=
  ∀ w, (machine cfg).run {} as = some w → ∀ k keyfp loc,
    (w.shards k).st.index.lookup keyfp = some loc → Designates (w.shards k) keyfp loc

/-- In every run whose operations find what they must, the index of a shard designates the
    records that were persisted for its keys. -/
theorem index_designates {as : List (PackOp × List Fault)}
    (hsafe : (machine cfg).Along (fun w x => Safe cfg w x.1) {} as) : IndexSound cfg as := by
  intro w hrun k keyfp loc hlc
  exact ((sound_run hsafe hrun k).index hlc).2

/-! ## Runs -/

instance (s : PackShard) (keyfp : Bytes) (loc : Loc) : Decidable (Designates s keyfp loc) :=
  inferInstanceAs (Decidable (∃ content ∈ s.files.lookup loc.pack, ∃ r ∈ s.log, _ ∧ _ ∧ _))

/-- All files have names before the next one, and there are names for all packs. -/
abbrev NamesBelow (cfg : PackConfig) (s : PackShard) : Prop :=
  (∀ b ∈ s.files.keys, ∃ m < s.st.writerSeq, b = packName cfg m ∨ b = vidxOf (packName cfg m)) ∧
    s.st.writerSeq + s.st.packs.keys.length + s.files.keys.length < 2 ^ 32

theorem NamesBelow.canCompact (h : NamesBelow cfg s) : CanCompact cfg s := by
  obtain ⟨h, hbd⟩ := h
  refine ⟨fun n hn => ⟨lookup_eq_none.2 fun hmem => ?_, lookup_eq_none.2 fun hmem => ?_⟩, hbd⟩
  · obtain ⟨m, hm, hnm | hnm⟩ := h _ hmem
    · exact absurd (packName_inj hnm) (by omega)
    · exact vidxOf_ne (isVpack_packName n) hnm
  · obtain ⟨m, hm, hnm | hnm⟩ := h _ hmem
    · exact vidxOf_ne (isVpack_packName m) hnm.symm
    · exact absurd (packName_inj (vidxOf_inj (isVpack_packName n) (isVpack_packName m) hnm)) (by omega)

/-- What an operation must find, as it can be computed. -/
abbrev Checked (cfg : PackConfig) (w : PackWorld) : PackOp → Prop
  | .persist dir shard r _ target => CanAppend cfg target r.buildRecord.length (w.shards (dir, shard))
  | .reap dir shardHashes _ _ _ _ => ∀ sh ∈ shardHashes, NamesBelow cfg (w.shards (dir, sh))
  | _ => True

instance (w : PackWorld) (op : PackOp) : Decidable (Checked cfg w op) := by
  rcases op <;> infer_instance

theorem Checked.safe {op : PackOp} (h : Checked cfg w op) : Safe cfg w op := by
  rcases op with _ | _ | _ | _ | _
  · exact h
  · trivial
  · exact fun sh hsh => (h sh hsh).canCompact
  · trivial
  · trivial

/-- The record of a letter is persisted in the one shard there is. -/
def letterPersist (c : UInt8) (target : ℕ) (faults : List Fault) : PackOp × List Fault :=
  (.persist [] [] (letterRecord c 100) 100 target, faults)

/-- The entry of a key after the run does not designate a record. -/
def misleads (as : List (PackOp × List Fault)) (keyfp : Bytes) : Bool :=
  match (machine letterConfig).run {} as with
  | none => false
  | some w =>
    match (w.shards ([], [])).st.index.lookup keyfp with
    | none => false
    | some loc => ¬Designates (w.shards ([], [])) keyfp loc

theorem not_indexSound_of_misleads {as : List (PackOp × List Fault)} (keyfp : Bytes)
    (h : misleads as keyfp) : ¬IndexSound letterConfig as := by
  intro hsnd
  rw [misleads] at h
  split at h
  · cases h
  rename_i w hrun
  split at h
  · cases h
  rename_i loc hlc
  exact (of_decide_eq_true h) (hsnd w hrun _ _ _ hlc)

/-- An append stops after ten bytes, and the next one goes well. -/
def tornRun : List (PackOp × List Fault) :=
  [letterPersist 97 0 [], letterPersist 98 0 [.short 10], letterPersist 99 0 []]

/-- The store forgets its state between two appends. -/
def forgottenRun : List (PackOp × List Fault) :=
  [letterPersist 97 0 [], (.invalidateShard [] [], []), letterPersist 98 0 []]

/-- After an append that stopped early, the next record is not where the index has it; and a
    store that has forgotten its state writes over records the index still has. -/
theorem index_misleads : ¬IndexSound letterConfig tornRun ∧ ¬IndexSound letterConfig forgottenRun :=
  ⟨not_indexSound_of_misleads (List.replicate 64 99) (by decide +kernel),
    not_indexSound_of_misleads (List.replicate 64 97) (by decide +kernel)⟩

/-- After an append that stopped early the next record goes to a new pack; then what has expired is reaped. -/
def rolledRun : List (PackOp × List Fault) :=
  [letterPersist 97 0 [], letterPersist 98 0 [.short 10], letterPersist 99 1 [],
    (.reap [] [[]] (nodup_singleton _) 200 0 50, []), (.invalidateAll, []), (.lookup [] [] [] 0, [])]

theorem rolledRun_designates : IndexSound letterConfig rolledRun := by
  have hch : (machine letterConfig).Along (fun w x => Checked letterConfig w x.1) {} rolledRun := by
    decide +kernel
  exact index_designates (hch.mono Checked.safe)

/-- In every run whose operations find what they must, a pack consists of records that were persisted and perhaps the
    beginning of one more, and the entries of its sidecar designate records of it. -/
theorem files_sound {as : List (PackOp × List Fault)} (hsafe : (machine cfg).Along (fun w x => Safe cfg w x.1) {} as)
    {w : PackWorld} (hrun : (machine cfg).run {} as = some w) (k : Bytes × Bytes) {base content : Bytes}
    (hbase : isVpack base) (hcontent : (w.shards k).files.lookup base = some content) :
    (∃ size, Packed (w.shards k).log size content) ∧ ∀ idx, (w.shards k).files.lookup (vidxOf base) = some idx →
      ∃ packSize live, idx <+: vidxBytes packSize live ∧
        ∀ x ∈ live, x.2.pack = base ∧ Designates (w.shards k) x.1 x.2 := by
  have hsnd := sound_run hsafe hrun k
  exact ⟨hsnd.pack hbase hcontent, fun idx hidx => hsnd.sidecar hbase hidx (by rw [hcontent]; rfl)⟩

/-- A pack whose last record is torn. -/
theorem tornPack_sound : ∃ w content, (machine letterConfig).run {} (rolledRun.take 2) = some w ∧
    (w.shards ([], [])).files.lookup (packName letterConfig 0) = some content ∧
    ∃ size, Packed (w.shards ([], [])).log size content := by
  have hch : (machine letterConfig).Along (fun w x => Checked letterConfig w x.1) {} (rolledRun.take 2) := by
    decide +kernel
  obtain ⟨content, hc⟩ := isSome_iff_exists.1 (show (((machine letterConfig).run {} (rolledRun.take 2)).bind fun w =>
    (w.shards ([], [])).files.lookup (packName letterConfig 0)).isSome by decide +kernel)
  obtain ⟨w, hrun, hc⟩ := bind_eq_some_iff.1 hc
  exact ⟨w, content, hrun, hc, (files_sound (hch.mono Checked.safe) hrun _ (isVpack_packName 0) hc).1⟩

end PackStore

end Vgi
