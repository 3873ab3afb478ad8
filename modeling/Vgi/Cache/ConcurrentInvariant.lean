import Vgi.Cache.Concurrent

/-!
# What holds of concurrent operations in any case

Whatever the interleaving, each entry in memory and each record on disk is found
where a flush for the catalog and the identity of its `Insert` looks for it
(`cacheOutline`). What a flush makes of this depends on the interleaving.
-/

namespace Vgi

open List MemoryTier

variable {P : Type*}

/-! ## Removing from the stores -/

namespace DiskTier

variable {dg : Digests} {d : DiskTier P}

theorem store_removeShard (dir shard : Bytes) (usePack : Bool) (p : Place) :
    (d.removeShard dir shard).store usePack p = if p.dir = dir ∧ p.shard = shard then none else d.store usePack p := by
  cases usePack <;> rfl

theorem store_removeDirectory (dir : Bytes) (usePack : Bool) (p : Place) :
    (d.removeDirectory dir).store usePack p = if p.dir = dir then none else d.store usePack p := by
  cases usePack <;> rfl

/-- A removal takes the records it is for, and no other record appears. -/
theorem store_remove {dir : Bytes} {f : FlushOp} {usePack : Bool} {p : Place} {r : DiskRecord P}
    (h : (d.remove dg dir f).store usePack p = some r) :
    d.store usePack p = some r ∧
      ¬(p.dir = dir ∧ ∀ name identityScope, f = .catalog name identityScope →
        p.shard = dg.identityShard identityScope) := by
  cases f with
  | catalog name identityScope =>
    rw [remove, store_removeShard] at h
    split at h
    · cases h
    · rename_i hne
      exact ⟨h, fun hp => hne ⟨hp.1, hp.2 _ _ rfl⟩⟩
  | all =>
    rw [remove, store_removeDirectory] at h
    split at h
    · cases h
    · rename_i hne
      exact ⟨h, fun hp => hne hp.1⟩

end DiskTier

/-! ## What a step can do -/

section Memory

variable {P : Type*} {t : MemoryTier P}

theorem MemoryTier.clear_config (h : t.Accounted) (f : FlushOp) : (t.clear f).disk = t.disk := by
  cases f with
  | catalog name identityScope => exact (h.dropWhere _).2.2.1
  | all => rfl

theorem MemoryTier.Accounted.clear (h : t.Accounted) (f : FlushOp) : (t.clear f).Accounted := by
  cases f with
  | catalog name identityScope => exact (h.dropWhere _).1
  | all => exact accounted_flushAllLocked t

theorem MemoryTier.Holds.clear (h : t.Accounted) {Q : ResultCacheEntry P → Prop} (hq : t.Holds Q)
    (f : FlushOp) : (t.clear f).Holds Q := by
  cases f with
  | catalog name identityScope => exact hq.dropWhere h _
  | all => exact fun e he => absurd he not_mem_nil

/-- What `LookupForRevalidation` answers is in memory. -/
theorem MemoryTier.Accounted.mem_lookupForRevalidation (h : t.Accounted) {k : ResultCacheKey}
    {now : ℤ} {e : ResultCacheEntry P} (he : t.lookupForRevalidation k now = some e) : e ∈ t.entries := by
  rw [lookupForRevalidation] at he
  split at he
  · cases he
  rename_i n hn
  split at he
  · cases he
    exact h.mem_entries hn
  · cases he

/-- `t'` comes from `t` by counting, by moving entries to the front and by dropping some. -/
structure MemoryTier.Settles (t t' : MemoryTier P) : Prop where
  accounted : t'.Accounted
  disk : t'.disk = t.disk
  holds : ∀ Q : ResultCacheEntry P → Prop, (∀ e, Q e → Q e.hit) → t.Holds Q → t'.Holds Q

theorem MemoryTier.Accounted.settles_self (h : t.Accounted) : t.Settles t := ⟨h, rfl, fun _ _ => id⟩

theorem MemoryTier.Accounted.settles_probe (h : t.Accounted) (k : ResultCacheKey) (now : ℤ) :
    t.Settles (t.probe k now).1 :=
  ⟨h.probe k now, (probe_config t k now).2, fun _ hQ hq => hq.probe h hQ k now⟩

theorem MemoryTier.Settles.noteHit {t' : MemoryTier P} (h : t.Settles t') : t.Settles t'.noteHit :=
  ⟨h.accounted.congr, h.disk, h.holds⟩

theorem MemoryTier.Settles.noteMiss {t' : MemoryTier P} (h : t.Settles t') : t.Settles t'.noteMiss :=
  ⟨h.accounted.congr, h.disk, h.holds⟩

end Memory

/-- A lookup that has not read a payload. -/
def CachePc.looking : CachePc P → Prop
  | .probe .. | .pack .. | .peek .. | .load .. => True
  | _ => False

/-- What a step can do to the cache and to the thread that takes it. -/
inductive CacheMove (dg : Digests) (g : CacheState P) (l : CacheThread P) :
    CacheState P → CacheThread P → Prop
  | done : CacheMove dg g l g { l with pc := .done }
  /-- A tier has nothing for a lookup. -/
  | miss {t pc} (hlooking : l.pc.looking) (ht : g.tier.Settles t)
    (hpc : pc.looking ∨ pc = .answered none) :
    CacheMove dg g l { g with tier := t } { l with pc := pc }
  /-- Memory answers a lookup. -/
  | hit {t e} (hlooking : l.pc.looking) (ht : g.tier.Settles t) {e₀} (he₀ : e₀ ∈ g.tier.entries)
    (he : e = e₀.hit) :
    CacheMove dg g l { g with tier := t } { l with pc := .answered (some e) }
  /-- A lookup reads a record. -/
  | read {t pc usePack dir k r e} (hlooking : l.pc.looking) (ht : g.tier.Settles t)
    (hr : g.disk.store usePack (dg.place dir k) = some r)
    (he : ∃ now nowUnix diskBacked, e = { r.load k now nowUnix with diskBacked := diskBacked })
    (hpc : pc = .adopt e ∨ pc = .answered (some e)) :
    CacheMove dg g l { g with tier := t } { l with pc := pc }
  | adopt {e} (hpc : l.pc = .adopt e) :
    CacheMove dg g l { g with tier := (g.tier.adopt e).1 }
      { l with pc := .answered (some (g.tier.adopt e).2) }
  | insert {r} (hpc : l.pc = .insert r)
    (hfits : r.entry.totalBytes ≤ toInt64 g.tier.settings.maxEntryBytes) :
    CacheMove dg g l (g.accept (g.stamped r.entry) r.allowDisk)
      { l with
        pc := .persisting (g.stamped r.entry)
          (g.tier.insertLocked (g.stamped r.entry) r.allowDisk).2.2
        since := g.events.length + 1 }
  | reinsert {e allowDisk} (hpc : l.pc = .reinsert e allowDisk) :
    CacheMove dg g l { g with tier := (g.tier.insertLocked e allowDisk).1 }
      { l with pc := .persisting e (g.tier.insertLocked e allowDisk).2.2 }
  | persist {e plan} (size nowUnix) (hpc : l.pc = .persist e plan)
    (hfits : size.blob ≤ plan.diskMax) :
    CacheMove dg g l (g.persist dg plan e size nowUnix) { l with pc := .done }
  | clear {f} (hpc : l.pc = .clear f) :
    CacheMove dg g l (g.clear f l.victims (g.accepted.filter f.covers))
      { l with pc := .remove f g.tier.disk.dir, doomed := g.accepted.filter f.covers }
  /-- Without files to remove, a flush returns when it has cleared memory. -/
  | clearAll {f} (hpc : l.pc = .clear f) (hremoves : f.removes g.tier = false) :
    CacheMove dg g l ((g.clear f l.victims (g.accepted.filter f.covers)).flushReturns l.victims
      (g.accepted.filter f.covers)) { l with pc := .done, doomed := g.accepted.filter f.covers }
  | remove {f dir} (hpc : l.pc = .remove f dir) :
    CacheMove dg g l ({ g with disk := g.disk.remove dg dir f }.flushReturns l.victims l.doomed)
      { l with pc := .done }
  | revalidate {e exchange allowDisk} (he : e ∈ g.tier.entries) :
    CacheMove dg g l g { l with pc := .slide e exchange allowDisk, since := g.events.length }
  | slide {e exchange allowDisk} (hpc : l.pc = .slide e exchange allowDisk) (cc ttl now allowDisk') :
    CacheMove dg g l g { l with pc := .reinsert (e.slid cc ttl now) allowDisk' }

variable {dg : Digests} {g g' : CacheState P} {l l' : CacheThread P} {x : CacheInput}

theorem cacheStep_move (hg : g.tier.Accounted) (h : cacheStep dg g l x = some (g', l')) : CacheMove dg g l g' l' := by
  have hsl := hg.settles_self
  obtain ⟨pc, dead, victims, doomed, since⟩ := l
  cases pc with
  | insert r =>
    simp only [cacheStep] at h
    split at h <;> cases h
    · exact .done
    · rename_i hft
      exact .insert rfl (not_lt.1 hft)
  | reinsert e allowDisk =>
    cases h
    exact .reinsert rfl
  | persist e plan =>
    simp only [cacheStep] at h
    split at h <;> cases h
    · rename_i hft
      simp only [Bool.and_eq_true, decide_eq_true_eq] at hft
      exact .persist _ _ rfl hft.2
    · exact .done
  | probe k =>
    have hpr := hg.settles_probe k x.now
    simp only [cacheStep] at h
    split at h
    · rename_i e he
      obtain ⟨e₀, he₀, -, -, rfl⟩ := hg.probe_eq_some he
      cases h
      exact .hit trivial hpr he₀ rfl
    · split at h <;> cases h
      · exact .miss trivial hpr (.inl trivial)
      · exact .miss trivial hpr.noteMiss (.inr rfl)
  | pack k dir maxEntryBytes =>
    simp only [cacheStep] at h
    split at h <;> cases h
    · rename_i e hld _
      obtain ⟨r, hr, -, rfl⟩ := DiskTier.packLookup_eq_some hld
      exact .read trivial hsl hr ⟨_, _, _, rfl⟩ (.inl rfl)
    · exact .miss trivial hsl (.inl trivial)
  | peek k dir maxEntryBytes =>
    simp only [cacheStep] at h
    split_ifs at h <;> cases h
    all_goals first
      | exact .miss trivial hsl (.inl trivial)
      | exact .miss trivial hsl.noteMiss (.inr rfl)
  | load k dir streaming =>
    simp only [cacheStep] at h
    split at h <;> split at h <;> cases h
    · rename_i e hst _
      obtain ⟨e, hld, rfl⟩ := Option.map_eq_some_iff.1 hst
      obtain ⟨r, hr, -, rfl⟩ := DiskTier.loadFromDisk_eq_some hld
      exact .read trivial hsl.noteHit hr ⟨_, _, _, rfl⟩ (.inr rfl)
    · exact .miss trivial hsl.noteMiss (.inr rfl)
    · rename_i e hld _
      obtain ⟨r, hr, -, rfl⟩ := DiskTier.loadFromDisk_eq_some hld
      exact .read trivial hsl hr ⟨_, _, _, rfl⟩ (.inl rfl)
    · exact .miss trivial hsl.noteMiss (.inr rfl)
  | adopt e =>
    cases h
    exact .adopt rfl
  | clear f =>
    simp only [cacheStep] at h
    split at h <;> cases h
    · exact .clear rfl
    · rename_i hrm
      exact .clearAll rfl (Bool.eq_false_iff.2 hrm)
  | remove f dir =>
    cases h
    exact .remove rfl
  | revalidate k exchange allowDisk =>
    simp only [cacheStep] at h
    split at h <;> cases h
    · rename_i e he
      exact .revalidate (hg.mem_lookupForRevalidation he)
    · exact .done
  | slide e exchange allowDisk =>
    simp only [cacheStep] at h
    split at h <;> cases h
    · cases exchange <;> exact .slide rfl _ _ _ _
    · exact .done
  | answered e | done => cases h

/-! ## The invariant -/

namespace CacheState

variable (dg) (cfg : DiskConfig) (g)

/-- The payload of the entry was accepted, and the entry is found under the catalog and
    in the shard of the `Insert` it is from. -/
structure Knows (e : ResultCacheEntry (Origin × P)) : Prop where
  accepted : e.streams.1 ∈ g.accepted
  catalogName : e.streams.1.catalogName = e.catalogName
  shard : dg.identityShard e.streams.1.key.identityScope = dg.identityShard e.key.identityScope

/-- The same of a record. There is only one if the disk tier is on. -/
structure Keeps (p : Place) (r : DiskRecord (Origin × P)) : Prop where
  accepted : r.streams.1 ∈ g.accepted
  catalogName : r.streams.1.catalogName = r.catalogName
  shard : dg.identityShard r.streams.1.key.identityScope = p.shard
  dir : p.dir = cfg.dir
  enabled : g.tier.diskEnabledLocked = true

/-- What holds of the cache in any case. -/
structure WF : Prop where
  accounted : g.tier.Accounted
  config : g.tier.disk = cfg
  memory : g.tier.Holds (g.Knows dg)
  disk : ∀ usePack p r, g.disk.store usePack p = some r → g.Keeps dg cfg p r
  accepted : ∀ o ∈ g.accepted, o.seq < g.events.length ∧ o.key.identityScope ≠ []
  published : ∀ o ∈ g.published, o ∈ g.accepted

end CacheState

/-- What holds of a thread in any case. -/
def CacheThread.WF (dg : Digests) (cfg : DiskConfig) (g : CacheState P) (l : CacheThread P) : Prop :=
  match l.pc with
  | .reinsert e _ | .slide e _ _ | .adopt e => g.Knows dg e ∧ 0 ≤ e.totalBytes
  | .persist e plan => g.Knows dg e ∧ plan.dir = cfg.dir ∧ g.tier.diskEnabledLocked = true
  | .remove _ dir => dir = cfg.dir
  | _ => True

variable {cfg : DiskConfig}

/-- What a step leaves: events are only added, and the configuration stays. -/
structure CacheState.Later (g g' : CacheState P) : Prop where
  events : ∃ es, g'.events = g.events ++ es
  disk : g'.tier.disk = g.tier.disk

namespace CacheState

theorem Later.of_same (hev : g'.events = g.events) (hds : g'.tier.disk = g.tier.disk) : g.Later g' :=
  ⟨⟨[], by rw [hev, append_nil]⟩, hds⟩

theorem Later.accepted (h : g.Later g') {o : Origin} (ho : o ∈ g.accepted) : o ∈ g'.accepted := by
  obtain ⟨es, hes⟩ := h.events
  rw [CacheState.accepted, hes, filterMap_append]
  exact mem_append_left _ ho

theorem Later.enabled (h : g.Later g') : g'.tier.diskEnabledLocked = g.tier.diskEnabledLocked := by
  rw [diskEnabledLocked, diskEnabledLocked, h.disk]

variable {e : ResultCacheEntry (Origin × P)}

theorem Knows.later (h : g.Knows dg e) (hl : g.Later g') : g'.Knows dg e :=
  { h with accepted := hl.accepted h.accepted }

theorem Knows.hit (h : g.Knows dg e) : g.Knows dg e.hit := { h with }

variable {r : DiskRecord (Origin × P)}

theorem Keeps.later {p : Place} (h : g.Keeps dg cfg p r) (hl : g.Later g') : g'.Keeps dg cfg p r :=
  { h with accepted := hl.accepted h.accepted, enabled := hl.enabled.trans h.enabled }

/-- What is read from disk is known. -/
theorem Keeps.load {k : ResultCacheKey} {dir : Bytes} (h : g.Keeps dg cfg (dg.place dir k) r) (now nowUnix : ℤ)
    (diskBacked : Bool) : g.Knows dg { r.load k now nowUnix with diskBacked := diskBacked } :=
  { h with }

/-- The copy a slide inserts is of the same payload, key and catalog. -/
theorem Knows.slid (h : g.Knows dg e) (cc : CacheControl) (ttl now : ℤ) : g.Knows dg (e.slid cc ttl now) := { h with }

/-- Only memory changes, and holds what was there or is known. -/
theorem WF.tier (h : g.WF dg cfg) {t : MemoryTier (Origin × P)} (ht : t.Accounted) (hds : t.disk = g.tier.disk)
    (hmem : t.Holds (g.Knows dg)) : ({ g with tier := t } : CacheState P).WF dg cfg := by
  have hl : g.Later { g with tier := t } := .of_same rfl hds
  exact ⟨ht, hds.trans h.config, fun e he => (hmem e he).later hl,
    fun u p r hr => (h.disk u p r hr).later hl, h.accepted, h.published⟩

end CacheState

theorem CacheThread.WF.later (h : l.WF dg cfg g) (hl : g.Later g') : l.WF dg cfg g' := by
  revert h
  simp only [CacheThread.WF]
  split
  case h_1 | h_2 | h_3 => exact fun h => ⟨h.1.later hl, h.2⟩
  case h_4 => exact fun h => ⟨h.1.later hl, h.2.1, hl.enabled.trans h.2.2⟩
  all_goals exact id

/-! ## The steps keep the invariant -/

/-- Steps add events, and leave the configuration. -/
theorem CacheMove.later (hg : g.tier.Accounted) (h : CacheMove dg g l g' l') : g.Later g' := by
  cases h with
  | miss _ ht | hit _ ht | read _ ht => exact .of_same rfl ht.disk
  | adopt => exact .of_same rfl (adopt_config ..).2
  | insert => exact ⟨⟨_, rfl⟩, (insertLocked_config ..).2⟩
  | reinsert => exact .of_same rfl (insertLocked_config ..).2
  | done | persist | remove | revalidate | slide => exact .of_same rfl rfl
  | clear | clearAll => exact ⟨⟨_, rfl⟩, clear_config hg _⟩

variable {e : ResultCacheEntry (Origin × P)}

/-- After its locked section an `Insert` knows where to persist the entry. -/
theorem persisting_wf (hg : g.WF dg cfg) {e' : ResultCacheEntry (Origin × P)} {allowDisk : Bool} {since : ℕ}
    (hl : g.Later g') (he : g'.Knows dg e) :
    CacheThread.WF dg cfg g' { l with pc := .persisting e (g.tier.insertLocked e' allowDisk).2.2, since := since } := by
  cases hpl : (g.tier.insertLocked e' allowDisk).2.2 with
  | none => trivial
  | some plan =>
    obtain ⟨hdir, -, hen⟩ := insertLocked_plan hpl
    exact ⟨he, hdir.trans (congrArg _ hg.config), hl.enabled.trans hen⟩

namespace CacheState

theorem accepted_of_accept {o : Origin} (h : g'.events = g.events ++ [.accept o]) :
    g'.accepted = g.accepted ++ [o] := by
  rw [accepted, h, filterMap_append]
  rfl

theorem accepted_of_clear {f : FlushOp} (h : g'.events = g.events ++ [.clear f]) : g'.accepted = g.accepted := by
  rw [accepted, h, filterMap_append]
  exact append_nil _

theorem accepted_accept (e : ResultCacheEntry (Origin × P)) (allowDisk : Bool) :
    (g.accept e allowDisk).accepted = g.accepted ++ [e.streams.1] := accepted_of_accept rfl

theorem accepted_clear (f : FlushOp) (victims doomed : List Origin) :
    (g.clear f victims doomed).accepted = g.accepted := accepted_of_clear rfl

theorem knows_stamped (r : NewResult P) : (g.accept (g.stamped r.entry) r.allowDisk).Knows dg (g.stamped r.entry) where
  accepted := by
    rw [accepted_accept]
    exact mem_append_right _ (mem_singleton_self _)
  catalogName := rfl
  shard := rfl

section

variable (hg : g.WF dg cfg)

include hg

theorem WF.accept (r : NewResult P) : (g.accept (g.stamped r.entry) r.allowDisk).WF dg cfg := by
  have hl : g.Later (g.accept (g.stamped r.entry) r.allowDisk) := ⟨⟨_, rfl⟩, (insertLocked_config ..).2⟩
  have hkn : (g.accept (g.stamped r.entry) r.allowDisk).Knows dg (g.stamped r.entry) := knows_stamped r
  refine ⟨hg.accounted.insertLocked r.nonneg _, hl.disk.trans hg.config, ?_,
    fun u p rec hrc => (hg.disk u p rec hrc).later hl, fun o ho => ?_, fun o ho => ?_⟩
  · exact MemoryTier.Holds.insertLocked hg.accounted (fun e he => (hg.memory e he).later hl) hkn r.allowDisk
  · rw [accepted_accept, mem_append, mem_singleton] at ho
    rw [CacheState.accept, length_append, length_singleton]
    rcases ho with ho | rfl
    · exact ⟨Nat.lt_succ_of_lt (hg.accepted o ho).1, (hg.accepted o ho).2⟩
    · exact ⟨Nat.lt_succ_self _, r.identified⟩
  · rw [CacheState.accept] at ho
    split at ho
    · rcases mem_cons.1 ho with rfl | ho
      · exact hkn.accepted
      · exact hl.accepted (hg.published o ho)
    · exact hl.accepted (hg.published o ho)

theorem WF.persist {plan : PersistPlan} (he : g.Knows dg e) (hdir : plan.dir = cfg.dir)
    (hen : g.tier.diskEnabledLocked = true) (size : BlobSize) (nowUnix : ℤ) :
    (g.persist dg plan e size nowUnix).WF dg cfg := by
  have hl : g.Later (g.persist dg plan e size nowUnix) := .of_same rfl rfl
  refine { hg with
    memory := fun e he => (hg.memory e he).later hl, disk := fun u p r hr => ?_, published := fun o ho => ?_ }
  · rcases DiskTier.store_persist hr with ⟨-, rfl, rfl⟩ | ⟨-, hr⟩
    · exact { he with dir := hdir, enabled := hen }
    · exact (hg.disk u p r hr).later hl
  · rcases mem_cons.1 ho with rfl | ho
    · exact he.accepted
    · exact hg.published o ho

theorem WF.clear (f : FlushOp) (victims doomed : List Origin) : (g.clear f victims doomed).WF dg cfg := by
  have hl : g.Later (g.clear f victims doomed) := ⟨⟨_, rfl⟩, clear_config hg.accounted f⟩
  refine ⟨hg.accounted.clear f, hl.disk.trans hg.config, ?_,
    fun u p r hr => (hg.disk u p r hr).later hl, fun o ho => ?_, fun o ho => ?_⟩
  · exact MemoryTier.Holds.clear hg.accounted (fun e he => (hg.memory e he).later hl) f
  · rw [accepted_clear] at ho
    rw [CacheState.clear, length_append, length_singleton]
    exact ⟨Nat.lt_succ_of_lt (hg.accepted o ho).1, (hg.accepted o ho).2⟩
  · exact hl.accepted (hg.published o ho)

theorem WF.flushReturns (victims doomed : List Origin) : (g.flushReturns victims doomed).WF dg cfg :=
  have hl : g.Later (g.flushReturns victims doomed) := .of_same rfl rfl
  { hg with memory := fun e he => (hg.memory e he).later hl, disk := fun u p r hr => (hg.disk u p r hr).later hl }

theorem WF.remove (dir : Bytes) (f : FlushOp) : ({ g with disk := g.disk.remove dg dir f } : CacheState P).WF dg cfg :=
  have hl : g.Later { g with disk := g.disk.remove dg dir f } := .of_same rfl rfl
  { hg with
    memory := fun e he => (hg.memory e he).later hl
    disk := fun u p r hr => (hg.disk u p r (DiskTier.store_remove hr).1).later hl }

end

end CacheState

/-- Every step keeps what holds in any case. -/
theorem CacheMove.wf (hg : g.WF dg cfg) (hl : l.WF dg cfg g) (h : CacheMove dg g l g' l') :
    g'.WF dg cfg ∧ l'.WF dg cfg g' := by
  have hlt := h.later hg.accounted
  cases h with
  | done => exact ⟨hg, trivial⟩
  | @miss t pc hlk ht hpc =>
    refine ⟨hg.tier ht.accounted ht.disk (ht.holds _ (fun _ he => he.hit) hg.memory), ?_⟩
    rcases hpc with hpc | rfl
    · cases pc <;> trivial
    · trivial
  | hit _ ht => exact ⟨hg.tier ht.accounted ht.disk (ht.holds _ (fun _ he => he.hit) hg.memory), trivial⟩
  | @read t pc usePack dir k r e _ ht hr he hpc =>
    refine ⟨hg.tier ht.accounted ht.disk (ht.holds _ (fun _ he => he.hit) hg.memory), ?_⟩
    obtain ⟨now, nowUnix, diskBacked, rfl⟩ := he
    have hkn := ((hg.disk _ _ r hr).load now nowUnix diskBacked).later hlt
    rcases hpc with rfl | rfl
    · exact ⟨hkn, Int.natCast_nonneg _⟩
    · trivial
  | adopt hpc =>
    simp only [CacheThread.WF, hpc] at hl
    exact ⟨hg.tier (hg.accounted.adopt hl.2) hlt.disk (hg.memory.adopt hg.accounted (fun _ he => he.hit) hl.1), trivial⟩
  | @insert r hpc => exact ⟨hg.accept r, persisting_wf hg hlt (CacheState.knows_stamped r)⟩
  | @reinsert e allowDisk hpc =>
    simp only [CacheThread.WF, hpc] at hl
    exact ⟨hg.tier (hg.accounted.insertLocked hl.2 _) hlt.disk (hg.memory.insertLocked hg.accounted hl.1 allowDisk),
      persisting_wf hg hlt (hl.1.later hlt)⟩
  | persist size nowUnix hpc =>
    simp only [CacheThread.WF, hpc] at hl
    exact ⟨hg.persist hl.1 hl.2.1 hl.2.2 size nowUnix, trivial⟩
  | clear hpc => exact ⟨hg.clear _ _ _, congrArg _ hg.config⟩
  | clearAll hpc => exact ⟨(hg.clear _ _ _).flushReturns _ _, trivial⟩
  | remove hpc => exact ⟨(hg.remove _ _).flushReturns _ _, trivial⟩
  | revalidate he => exact ⟨hg, hg.memory _ he, hg.accounted.nonneg _ he⟩
  | slide hpc =>
    simp only [CacheThread.WF, hpc] at hl
    exact ⟨hg, hl.1.slid _ _ _, hl.2⟩

variable (dg cfg) in
/-- What holds in any case, as an outline. -/
theorem cacheOutline : (cacheThreads (P := P) dg).Outline {} (fun _ g => g.WF dg cfg) (fun g _ l => l.WF dg cfg g) where
  spawn {g n op g' l} hg _ h := by
    cases h
    refine ⟨hg, ?_, fun _ _ _ hm => hm⟩
    cases op <;> trivial
  step {g n i l x g' l'} hg _ hl _ h := by
    have hmove := cacheStep_move hg.accounted h
    obtain ⟨hg', hl'⟩ := hmove.wf hg hl
    exact ⟨hg', hl', fun j m _ hm => hm.later (hmove.later hg.accounted)⟩

theorem CacheState.init_wf (s : CacheSettings) :
    (CacheState.init s : CacheState P).WF dg (CacheState.init s : CacheState P).tier.disk where
  accounted := accounted_init.configure s
  config := rfl
  memory := MemoryTier.holds_init s
  disk u p r hr := by cases u <;> cases hr
  accepted := nofun
  published := fun o ho => absurd ho not_mem_nil

/-- Where all runs start. -/
theorem CacheState.meets_init {J : CacheState P → Prop} {K : CacheState P → CacheThread P → Prop} (s : CacheSettings)
    (h : J (init s)) : (⟨init s, []⟩ : Threads.Config (CacheState P) (CacheThread P)).Meets
      (fun _ g => g.WF dg (init s : CacheState P).tier.disk ∧ J g)
      (fun g _ l => l.WF dg (init s : CacheState P).tier.disk g ∧ K g l) :=
  ⟨⟨init_wf s, h⟩, fun _ _ hl => by simp at hl⟩

/-! ## What a flush finds -/

variable {f : FlushOp}

/-- Clearing memory leaves no entry that the flush covers. -/
theorem CacheState.WF.not_covers_of_mem_clear (hg : g.WF dg cfg) (he : e ∈ (g.tier.clear f).entries) :
    e ∈ g.tier.entries ∧ f.covers e.streams.1 = false := by
  cases f with
  | catalog name identityScope =>
    change e ∈ (g.tier.dropWhere _).1.entries at he
    rw [(hg.accounted.dropWhere _).2.2.2] at he
    obtain ⟨hold, hnm⟩ := mem_filter.1 he
    have hne : e.streams.1.catalogName ≠ name := by
      rw [(hg.memory e hold).catalogName]
      simpa using hnm
    exact ⟨hold, by simp [FlushOp.covers, hne]⟩
  | all => exact absurd he not_mem_nil

variable {r : DiskRecord (Origin × P)}

/-- Where there are no files to remove there are none of the flush. -/
theorem CacheState.WF.not_covers_of_not_removes (hg : g.WF dg cfg) (hf : f.removes g.tier = false) {usePack : Bool}
    {p : Place} (hr : g.disk.store usePack p = some r) : f.covers r.streams.1 = false := by
  have hkp := hg.disk usePack p r hr
  cases f with
  | catalog name identityScope =>
    have hsc : identityScope = [] := by
      simpa [FlushOp.removes, hkp.enabled] using hf
    have hne := (hg.accepted _ hkp.accepted).2
    simp [FlushOp.covers, hsc, hne]
  | all => simp [FlushOp.removes, hkp.enabled] at hf

/-- The removal leaves no file that the flush covers. -/
theorem CacheState.WF.not_covers_of_remove (hg : g.WF dg cfg) {usePack : Bool} {p : Place}
    (hr : (g.disk.remove dg cfg.dir f).store usePack p = some r) :
    g.disk.store usePack p = some r ∧ f.covers r.streams.1 = false := by
  obtain ⟨hold, hne⟩ := DiskTier.store_remove hr
  have hkp := hg.disk usePack p r hold
  refine ⟨hold, Bool.eq_false_iff.2 fun hcv => hne ⟨hkp.dir, ?_⟩⟩
  rintro name identityScope rfl
  simp only [FlushOp.covers, Bool.and_eq_true, decide_eq_true_eq] at hcv
  rw [← hkp.shard, hcv.2]

end Vgi
