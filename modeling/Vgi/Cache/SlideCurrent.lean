import Vgi.Cache.ConcurrentInvariant

/-!
# What a slide puts back

A slide probes memory for a stale entry, asks the worker whether it is still good,
and, if so, inserts a copy of it with a new lifetime. That `Insert` is unconditional:
whatever happened to the key while the worker was asked, the payload that was probed
becomes the entry of the key again, in memory and on disk (`slide_rolls_back`).

* `slide_current`: if nothing happened to the key in between, memory holds the latest
  payload accepted for each key, and none that was flushed; and a store on disk the
  latest one written to it, and none that a flush which has returned was to remove.
-/

namespace Vgi

open List CacheState

variable {P : Type*}

/-! ## The condition -/

/-- The event replaces or flushes the payload. -/
def CacheEvent.touches (o : Origin) : CacheEvent → Bool
  | .accept o' => o'.key = o.key
  | .clear f => f.covers o

/-- The payload was neither replaced nor flushed since there were so many events. -/
abbrev CacheState.Untouched (g : CacheState P) (since : ℕ) (o : Origin) : Prop :=
  ∀ ev ∈ g.events.drop since, ev.touches o = false

/-- Nothing happened to the payload that is about to be inserted again since it was
    probed, or to the one that is about to be written to disk since it was accepted. -/
abbrev CachePc.Undisturbed (g : CacheState P) (since : ℕ) : CachePc P → Prop
  | .reinsert e _ | .persist e _ => g.Untouched since e.streams.1
  | _ => True

instance (g : CacheState P) (since : ℕ) (pc : CachePc P) : Decidable (pc.Undisturbed g since) := by
  rcases pc <;> infer_instance

def CacheOp.isLookup : CacheOp P → Bool
  | .lookup _ => true
  | _ => false

/-- Slides with inserts and flushes, where nothing comes between. -/
abbrev undisturbed : Threads.Rule (CacheState P) (CacheThread P) (CacheOp P) CacheInput where
  spawn _ op := op.isLookup = false
  step g _ l _ := l.pc.Undisturbed g l.since

/-! ## The invariant -/

/-- The payload is the latest one accepted for its key, and was not flushed. -/
structure CacheState.Current (g : CacheState P) (o : Origin) : Prop where
  latest : ∀ o' ∈ g.accepted, o'.key = o.key → o'.seq ≤ o.seq
  unflushed : o ∉ g.flushed

/-- Memory is current, and so is each store, as far as it was written. -/
structure CacheState.Fresh (g : CacheState P) : Prop where
  memory : g.tier.Holds fun e => e.streams.1.key = e.key ∧ g.Current e.streams.1
  disk : ∀ usePack p r, g.disk.store usePack p = some r → r.streams.1 ∉ g.gone ∧
    ∀ o, (usePack, p, o) ∈ g.written → o.key = r.streams.1.key → o.seq ≤ r.streams.1.seq
  gone : g.gone ⊆ g.flushed
  flushed : g.flushed ⊆ g.accepted
  written : ∀ w ∈ g.written, w.2.2 ∈ g.accepted

/-- The payload at hand was current at the time, so it is if nothing has touched it since. -/
structure CacheState.Held (g : CacheState P) (since : ℕ) (e : ResultCacheEntry (Origin × P)) :
    Prop where
  key : e.streams.1.key = e.key
  since_le : since ≤ g.events.length
  current : g.Untouched since e.streams.1 → g.Current e.streams.1

def CacheThread.Fresh (g : CacheState P) (l : CacheThread P) : Prop :=
  match l.pc with
  | .slide e _ _ | .reinsert e _ | .persist e _ => g.Held l.since e
  | .remove f _ => ∀ o ∈ l.doomed, f.covers o ∧ o ∈ g.flushed
  | .insert _ | .clear _ | .revalidate .. | .done => True
  -- there are no lookups
  | .probe .. | .pack .. | .peek .. | .load .. | .adopt .. | .answered .. => False

variable {dg : Digests} {cfg : DiskConfig} {g g' : CacheState P} {l l' : CacheThread P}

/-! ## Events -/

/-- The one event a step may add, and what it adds to what was flushed. -/
inductive CacheState.Adds (g g' : CacheState P) : Prop
  | none (hevents : g'.events = g.events) (hflushed : g'.flushed = g.flushed)
  | accept (o : Origin) (hevents : g'.events = g.events ++ [.accept o])
    (hflushed : g'.flushed = g.flushed)
  | clear (f : FlushOp) (hevents : g'.events = g.events ++ [.clear f])
    (hflushed : g'.flushed = g.accepted.filter f.covers ++ g.flushed)

theorem CacheMove.adds (h : CacheMove dg g l g' l') : g.Adds g' := by
  cases h with
  | insert hpc => exact .accept _ rfl rfl
  | clear hpc | clearAll hpc => exact .clear _ rfl rfl
  | _ => exact .none rfl rfl

namespace CacheState

theorem Adds.flushed (h : g.Adds g') : g.flushed ⊆ g'.flushed := by
  cases h with
  | none _ hfls | accept _ _ hfls => exact hfls ▸ List.Subset.refl _
  | clear _ _ hfls => exact hfls ▸ subset_append_right _ _

theorem Current.same {o : Origin} (h : g.Current o) (hev : g'.events = g.events)
    (hfls : g'.flushed = g.flushed) : g'.Current o := by
  refine ⟨?_, hfls ▸ h.unflushed⟩
  rw [accepted, hev]
  exact h.latest

/-- What nothing touches stays current. -/
theorem Current.adds {o : Origin} (h : g.Current o) (ha : g.Adds g')
    (hun : g'.Untouched g.events.length o) : g'.Current o := by
  cases ha with
  | none hev hfls => exact h.same hev hfls
  | accept o' hev hfls =>
    rw [Untouched, hev, drop_left] at hun
    have hkey : o'.key ≠ o.key := by simpa [CacheEvent.touches] using hun
    refine ⟨fun o₁ ho₁ hkey₁ => ?_, hfls ▸ h.unflushed⟩
    rw [accepted_of_accept hev, mem_append, mem_singleton] at ho₁
    rcases ho₁ with ho₁ | rfl
    · exact h.latest o₁ ho₁ hkey₁
    · exact absurd hkey₁ hkey
  | clear f hev hfls =>
    rw [Untouched, hev, drop_left] at hun
    have hcv : f.covers o = false := by simpa [CacheEvent.touches] using hun
    refine ⟨accepted_of_clear hev ▸ h.latest, ?_⟩
    rw [hfls, mem_append, not_or]
    exact ⟨fun hmem => by simp [hcv] at hmem, h.unflushed⟩

/-- The payload at hand stays as it is held, whatever happens. -/
theorem Held.adds {since : ℕ} {e : ResultCacheEntry (Origin × P)} (h : g.Held since e)
    (hl : g.Later g') (ha : g.Adds g') : g'.Held since e := by
  obtain ⟨es, hes⟩ := hl.events
  refine ⟨h.key, ?_, fun hun => ?_⟩
  · rw [hes, length_append]
    exact h.since_le.trans (Nat.le_add_right _ _)
  · rw [Untouched, hes, drop_append_of_le_length h.since_le] at hun
    refine (h.current fun ev hev => hun ev (mem_append_left _ hev)).adds ha ?_
    rw [Untouched, hes, drop_left]
    exact fun ev hev => hun ev (mem_append_right _ hev)

end CacheState

theorem CacheThread.Fresh.adds (h : l.Fresh g) (hl : g.Later g') (ha : g.Adds g') : l.Fresh g' := by
  revert h
  simp only [CacheThread.Fresh]
  split
  case h_1 | h_2 | h_3 => exact fun h => h.adds hl ha
  case h_4 => exact fun h o ho => ⟨(h o ho).1, ha.flushed (h o ho).2⟩
  all_goals exact id

theorem CacheThread.Fresh.not_looking (h : l.Fresh g) : ¬l.pc.looking := by
  intro hlk
  rw [CacheThread.Fresh] at h
  revert h hlk
  cases l.pc <;> simp [CachePc.looking]

/-! ## The steps keep it -/

namespace CacheState

/-- The payload accepted now is current. -/
theorem Fresh.current_stamped (hg : g.WF dg cfg) (h : g.Fresh) (r : NewResult P) :
    (g.accept (g.stamped r.entry) r.allowDisk).Current (g.stamped r.entry).streams.1 := by
  refine ⟨fun o ho _ => ?_, fun hmem => ?_⟩
  · rw [accepted_accept, mem_append, mem_singleton] at ho
    rcases ho with ho | rfl
    · exact (hg.accepted o ho).1.le
    · exact le_rfl
  · exact absurd (hg.accepted _ (h.flushed hmem)).1 (lt_irrefl _)

theorem Fresh.accept (hg : g.WF dg cfg) (h : g.Fresh) {r : NewResult P}
    (hft : r.entry.totalBytes ≤ toInt64 g.tier.settings.maxEntryBytes) :
    (g.accept (g.stamped r.entry) r.allowDisk).Fresh := by
  have hsb : g.accepted ⊆ (g.accept (g.stamped r.entry) r.allowDisk).accepted := by
    rw [accepted_accept]
    exact subset_append_left _ _
  refine ⟨fun e he => ?_, h.disk, h.gone, List.Subset.trans h.flushed hsb, fun w hw => hsb (h.written w hw)⟩
  rcases hg.accounted.mem_insertLocked he with ⟨hlr, -⟩ | ⟨-, ⟨rfl, -⟩ | ⟨he, hkey⟩⟩
  · exact absurd hft (not_le.2 hlr)
  · exact ⟨rfl, h.current_stamped hg r⟩
  -- an entry of another key
  obtain ⟨hek, hcr⟩ := h.memory e he
  refine ⟨hek, hcr.adds (.accept _ rfl rfl) ?_⟩
  rw [Untouched, CacheState.accept, drop_left]
  simpa [CacheEvent.touches, stamped, hek] using Ne.symm hkey

/-- Only memory changes, and is current. -/
theorem Fresh.tier (h : g.Fresh) {t : MemoryTier (Origin × P)}
    (ht : t.Holds fun e => e.streams.1.key = e.key ∧ g.Current e.streams.1) :
    ({ g with tier := t } : CacheState P).Fresh :=
  { h with memory := fun e he => ⟨(ht e he).1, (ht e he).2.same rfl rfl⟩ }

theorem Fresh.persist (h : g.Fresh) {plan : PersistPlan} {e : ResultCacheEntry (Origin × P)}
    (hac : e.streams.1 ∈ g.accepted) (he : g.Current e.streams.1) {size : BlobSize}
    (hft : size.blob ≤ plan.diskMax) (nowUnix : ℤ) : (g.persist dg plan e size nowUnix).Fresh := by
  refine ⟨fun e he => ⟨(h.memory e he).1, (h.memory e he).2.same rfl rfl⟩, fun u p r hr => ?_, h.gone, h.flushed, ?_⟩
  · rcases DiskTier.store_persist hr with ⟨-, -, rfl⟩ | ⟨hne, hr⟩
    · -- all that was written was accepted before
      refine ⟨fun hmem => he.unflushed (h.gone hmem), fun o ho hkey => ?_⟩
      rcases mem_cons.1 ho with ho | ho
      · cases ho
        exact le_rfl
      · exact he.latest o (h.written _ ho) hkey
    · refine ⟨(h.disk u p r hr).1, fun o ho hkey => ?_⟩
      rcases mem_cons.1 ho with ho | ho
      · cases ho
        exact absurd ⟨hft, rfl, rfl⟩ hne
      · exact (h.disk u p r hr).2 o ho hkey
  · intro w hw
    rcases mem_cons.1 hw with rfl | hw
    · exact hac
    · exact h.written w hw

theorem Fresh.clear (hg : g.WF dg cfg) (h : g.Fresh) (f : FlushOp) (victims : List Origin) :
    (g.clear f victims (g.accepted.filter f.covers)).Fresh := by
  refine ⟨fun e he => ?_, h.disk, subset_append_of_subset_right _ h.gone, fun o ho => ?_, fun w hw => ?_⟩
  · obtain ⟨hold, hcv⟩ := hg.not_covers_of_mem_clear he
    obtain ⟨hek, hcr⟩ := h.memory e hold
    refine ⟨hek, hcr.adds (.clear f rfl rfl) ?_⟩
    rw [Untouched, CacheState.clear, drop_left]
    simpa [CacheEvent.touches] using hcv
  · rw [accepted_clear]
    rcases mem_append.1 ho with ho | ho
    · exact mem_of_mem_filter ho
    · exact h.flushed ho
  · rw [accepted_clear]
    exact h.written w hw

theorem Fresh.flushReturns (h : g.Fresh) (victims : List Origin) {doomed : List Origin} (hd : doomed ⊆ g.flushed)
    (hds : ∀ usePack p r, g.disk.store usePack p = some r → r.streams.1 ∉ doomed) :
    (g.flushReturns victims doomed).Fresh := by
  refine ⟨fun e he => ⟨(h.memory e he).1, (h.memory e he).2.same rfl rfl⟩,
    fun u p r hr => ⟨fun hmem => ?_, (h.disk u p r hr).2⟩, fun o ho => ?_, h.flushed, h.written⟩
  · rcases mem_append.1 hmem with hmem | hmem
    · exact hds u p r hr hmem
    · exact (h.disk u p r hr).1 hmem
  · rcases mem_append.1 ho with ho | ho
    · exact hd ho
    · exact h.gone ho

theorem Fresh.remove (hg : g.WF dg cfg) (h : g.Fresh) (f : FlushOp) :
    ({ g with disk := g.disk.remove dg cfg.dir f } : CacheState P).Fresh :=
  { h with
    memory := fun e he => ⟨(h.memory e he).1, (h.memory e he).2.same rfl rfl⟩
    disk := fun u p r hr => h.disk u p r (hg.not_covers_of_remove hr).1 }

end CacheState

/-- After its locked section an `Insert` holds what it may write to disk. -/
theorem CacheThread.Fresh.persisting {e : ResultCacheEntry (Origin × P)} {since : ℕ} (h : g.Held since e)
    (plan : Option PersistPlan) : CacheThread.Fresh g { l with pc := .persisting e plan, since := since } := by
  cases plan with
  | none => trivial
  | some plan => exact h

/-- What a step under the condition keeps. -/
theorem CacheMove.fresh (hg : g.WF dg cfg) (hl : l.WF dg cfg g) (hfg : g.Fresh) (hfl : l.Fresh g)
    (hrule : l.pc.Undisturbed g l.since) (h : CacheMove dg g l g' l') : g'.Fresh ∧ l'.Fresh g' := by
  have hlt := h.later hg.accounted
  have had := h.adds
  cases h with
  | done => exact ⟨hfg, trivial⟩
  | miss hlk | hit hlk | read hlk => exact absurd hlk hfl.not_looking
  | adopt hpc =>
    rw [CacheThread.Fresh, hpc] at hfl
    exact hfl.elim
  | @insert r hpc hft =>
    refine ⟨hfg.accept hg hft, .persisting ⟨rfl, ?_, fun _ => hfg.current_stamped hg r⟩ _⟩
    rw [accept, length_append, length_singleton]
  | @reinsert e allowDisk hpc =>
    rw [CacheThread.Fresh, hpc] at hfl
    rw [hpc] at hrule
    have hmem := hfg.memory.insertLocked hg.accounted ⟨hfl.key, hfl.current hrule⟩ allowDisk
    exact ⟨hfg.tier hmem, .persisting (hfl.adds hlt had) _⟩
  | persist size nowUnix hpc hft =>
    rw [CacheThread.Fresh, hpc] at hfl
    rw [CacheThread.WF, hpc] at hl
    rw [hpc] at hrule
    exact ⟨hfg.persist hl.1.accepted (hfl.current hrule) hft nowUnix, trivial⟩
  | @clear f hpc => refine ⟨hfg.clear hg f _, fun o ho => ⟨(mem_filter.1 ho).2, mem_append_left _ ho⟩⟩
  | @clearAll f hpc hrm =>
    refine ⟨(hfg.clear hg f _).flushReturns _ (subset_append_left _ _) fun u p r hr hmem => ?_, trivial⟩
    have hcv := hg.not_covers_of_not_removes hrm hr
    simp [hcv] at hmem
  | @remove f dir hpc =>
    rw [CacheThread.Fresh, hpc] at hfl
    rw [CacheThread.WF, hpc] at hl
    obtain rfl : dir = cfg.dir := hl
    refine ⟨(hfg.remove hg f).flushReturns _ (fun o ho => (hfl o ho).2) fun u p r hr hmem => ?_, trivial⟩
    have hcv := (hg.not_covers_of_remove hr).2
    simp [(hfl _ hmem).1] at hcv
  | @revalidate e exchange allowDisk he =>
    obtain ⟨hkey, hcr⟩ := hfg.memory e he
    exact ⟨hfg, hkey, le_rfl, fun _ => hcr⟩
  | slide hpc =>
    rw [CacheThread.Fresh, hpc] at hfl
    exact ⟨hfg, hfl.key, hfl.since_le, hfl.current⟩

variable (dg cfg) in
/-- What slides, inserts and flushes leave, as an outline. -/
theorem freshOutline : (cacheThreads (P := P) dg).Outline undisturbed
    (fun _ g => g.WF dg cfg ∧ g.Fresh) (fun g _ l => l.WF dg cfg g ∧ l.Fresh g) := by
  refine (cacheOutline dg cfg).extend ?_ ?_
  · intro g n op g' l _ hfg hop h
    cases h
    refine ⟨hfg, ?_, fun _ _ _ hm => hm⟩
    cases op with
    | lookup k => cases hop
    | insert r | flush f | slide k exchange allowDisk => trivial
  · intro g n i l x g' l' hg hfg hl hfl hrule h
    have hmove := cacheStep_move hg.accounted h
    obtain ⟨hfg', hfl'⟩ := hmove.fresh hg hl hfg hfl hrule
    exact ⟨hfg', hfl', fun j m _ _ hm => hm.adds (hmove.later hg.accounted) hmove.adds⟩

theorem CacheState.init_fresh (s : CacheSettings) : (init s : CacheState P).Fresh where
  memory := MemoryTier.holds_init s
  disk u p r hr := by cases u <;> cases hr
  gone := nil_subset _
  flushed := nil_subset _
  written := fun w hw => absurd hw not_mem_nil

/-- Slides, inserts and flushes, where nothing happens to a payload between its probe and its slide, or between its
    acceptance and its write: memory holds the latest payload accepted for the key, and none that was flushed; a store
    holds the latest payload written to it, and none that a flush which has returned was to remove. -/
theorem slide_current (dg : Digests) (s : CacheSettings)
    {as : CacheActs P} {c : Threads.Config (CacheState P) (CacheThread P)}
    (hrule : (cacheThreads dg).machine.Along undisturbed.At ⟨init s, []⟩ as)
    (hrun : (cacheThreads dg).machine.run ⟨init s, []⟩ as = some c) :
    (∀ e ∈ c.shared.tier.entries, e.streams.1.key = e.key ∧ c.shared.Current e.streams.1) ∧
      ∀ usePack p r, c.shared.disk.store usePack p = some r → r.streams.1 ∉ c.shared.gone ∧
        ∀ o, (usePack, p, o) ∈ c.shared.written → o.key = r.streams.1.key → o.seq ≤ r.streams.1.seq := by
  have hfr := ((freshOutline dg _).run (meets_init s (init_fresh s)) hrule hrun).shared.2
  exact ⟨hfr.memory, hfr.disk⟩

/-! ## Runs -/

def staleInsert : CacheActs Unit :=
  .spawn (.insert (newResult "1" false)) :: steps 0 2

/-- A slide probes the entry of the key, and nothing comes between. -/
def slideRun : CacheActs Unit :=
  staleInsert ++ .spawn (.slide (resultKey "1") false true) :: steps 1 4

/-- A new result is inserted between the probe and the slide. -/
def insertCrossed : CacheActs Unit :=
  staleInsert ++ .spawn (.slide (resultKey "1") false true) :: steps 1 1 ++
    .spawn (.insert (newResult "1" true)) :: steps 2 2 ++ steps 1 3

/-- A flush comes between the probe and the slide. -/
def flushCrossed : CacheActs Unit :=
  staleInsert ++ .spawn (.slide (resultKey "1") true true) :: steps 1 1 ++
    .spawn (.flush (.catalog [] (ascii "alice"))) :: steps 2 2 ++ steps 1 2

/-- What was probed is put back. -/
theorem slideRun_current : ∃ c, ran slideRun = some c ∧
      c.shared.tier.entries.map (·.streams.1.seq) = [0] ∧
      ∀ e ∈ c.shared.tier.entries, e.streams.1.key = e.key ∧ c.shared.Current e.streams.1 := by
  have hrule : (cacheThreads argumentDigests).machine.Along undisturbed.At
      ⟨init oneEntry, []⟩ slideRun := by decide
  have hhl : ((ran slideRun).map fun c => c.shared.tier.entries.map (·.streams.1.seq)) = some [0] := by decide
  obtain ⟨c, hrun, hc⟩ := Option.map_eq_some_iff.1 hhl
  exact ⟨c, hrun, hc, (slide_current _ _ hrule hrun).1⟩

/-- What was replaced, or flushed, after the probe is put back as well. -/
theorem slide_rolls_back :
    (∃ c, ran insertCrossed = some c ∧
      ∃ e ∈ c.shared.tier.entries, ∃ o ∈ c.shared.accepted, o.key = e.key ∧
        e.streams.1.seq < o.seq) ∧
    ∃ c, ran flushCrossed = some c ∧ ∃ e ∈ c.shared.tier.entries, e.streams.1 ∈ c.shared.gone := by
  constructor
  · have hhl : ((ran insertCrossed).map fun c => decide (∃ e ∈ c.shared.tier.entries, ∃ o ∈ c.shared.accepted,
          o.key = e.key ∧ e.streams.1.seq < o.seq)) = some true := by decide
    obtain ⟨c, hrun, hc⟩ := Option.map_eq_some_iff.1 hhl
    exact ⟨c, hrun, of_decide_eq_true hc⟩
  · have hhl : ((ran flushCrossed).map fun c => decide (∃ e ∈ c.shared.tier.entries,
          e.streams.1 ∈ c.shared.gone)) = some true := by decide
    obtain ⟨c, hrun, hc⟩ := Option.map_eq_some_iff.1 hhl
    exact ⟨c, hrun, of_decide_eq_true hc⟩

end Vgi
