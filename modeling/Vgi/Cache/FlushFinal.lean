import Vgi.Cache.ConcurrentInvariant

/-!
# What a flush leaves

A flush clears memory and then removes files, each under a lock of its own. A
lookup that has read a record before the files are removed may adopt it into memory
after memory was cleared; an `Insert` that has published its entry in memory before
may write it to disk after the files were removed. Either way later lookups are
answered with what was flushed (`flush_crossed`).

* `lookup_not_dead`: without such crossings no lookup that starts after a flush has
  returned is answered with what was published before the flush began.
-/

namespace Vgi

open List CacheThread Option CacheState

variable {P : Type*}

/-- No entry is put into memory after a flush it was published before has cleared
    memory, and none is written to disk after one has removed its files. -/
abbrev CachePc.Uncrossed (g : CacheState P) : CachePc P → Prop
  | .adopt e | .reinsert e _ => e.streams.1 ∉ g.cleared
  | .persist e _ => e.streams.1 ∉ g.removed
  | _ => True

instance (g : CacheState P) (pc : CachePc P) : Decidable (pc.Uncrossed g) := by
  rcases pc <;> infer_instance

/-- No step crosses a flush. -/
abbrev uncrossed : Threads.Rule (CacheState P) (CacheThread P) (CacheOp P) CacheInput where
  step g _ l _ := l.pc.Uncrossed g

/-! ## The invariant -/

/-- What was flushed is out of memory from when memory was cleared, and off the disk
    from when the files were removed. -/
structure CacheState.Final (g : CacheState P) : Prop where
  memory : g.tier.Holds fun e => e.streams.1 ∉ g.cleared
  disk : ∀ usePack p r, g.disk.store usePack p = some r → r.streams.1 ∉ g.removed
  dead : g.dead ⊆ g.removed
  removed : g.removed ⊆ g.cleared
  cleared : g.cleared ⊆ g.accepted

/-- A lookup has read nothing that was dead when it started, and a flush knows what it is to remove. -/
structure CacheThread.Final (g : CacheState P) (l : CacheThread P) : Prop where
  dead : l.dead ⊆ g.dead
  pc : match l.pc with
    | .adopt e | .answered (some e) => e.streams.1 ∉ l.dead
    | .clear f => ∀ o ∈ l.victims, f.covers o ∧ o ∈ g.accepted
    | .remove f _ => ∀ o ∈ l.victims, f.covers o ∧ o ∈ g.cleared
    | _ => True

variable {dg : Digests} {cfg : DiskConfig} {g g' : CacheState P} {l l' : CacheThread P}

theorem CacheThread.Final.persisting (hde : l.dead ⊆ g.dead) (e : ResultCacheEntry (Origin × P))
    (plan : Option PersistPlan) (since : ℕ) :
    CacheThread.Final g { l with pc := .persisting e plan, since := since } := by
  refine ⟨hde, ?_⟩
  cases plan <;> trivial

theorem CacheThread.Final.later (h : l.Final g) (hde : g.dead ⊆ g'.dead)
    (hcl : g.cleared ⊆ g'.cleared) (hl : g.Later g') : l.Final g' := by
  refine ⟨List.Subset.trans h.dead hde, ?_⟩
  have hpc := h.pc
  revert hpc
  split
  case h_3 => exact fun h o ho => ⟨(h o ho).1, hl.accepted (h o ho).2⟩
  case h_4 => exact fun h o ho => ⟨(h o ho).1, hcl (h o ho).2⟩
  all_goals exact id

/-- What a step adds to what was flushed. -/
theorem CacheMove.flushes (h : CacheMove dg g l g' l') : g.dead ⊆ g'.dead ∧ g.cleared ⊆ g'.cleared := by
  cases h with
  | clear | clearAll | remove => constructor <;> first | exact subset_append_right _ _ | exact fun _ => id
  | _ => exact ⟨fun _ => id, fun _ => id⟩

/-! ## The steps keep it -/

variable {victims : List Origin}

theorem mem_victims_or {o : Origin} {os : List Origin} {f : FlushOp} (hv : ∀ o ∈ victims, f.covers o = true)
    (hf : f.covers o = false) (ho : o ∉ os) : o ∉ victims ++ os := by
  rw [mem_append, not_or]
  exact ⟨fun hmem => by simp [hv o hmem] at hf, ho⟩

namespace CacheState

variable {t : MemoryTier (Origin × P)}

/-- Only memory changes, and holds nothing that was flushed. -/
theorem Final.tier (h : g.Final) (ht : t.Holds fun e => e.streams.1 ∉ g.cleared) :
    ({ g with tier := t } : CacheState P).Final :=
  { h with memory := ht }

theorem Final.settles (h : g.Final) (ht : g.tier.Settles t) : ({ g with tier := t } : CacheState P).Final :=
  h.tier (ht.holds _ (fun _ he => he) h.memory)

/-- What is accepted now was not flushed before. -/
theorem Final.accept (hg : g.WF dg cfg) (h : g.Final) (r : NewResult P) :
    (g.accept (g.stamped r.entry) r.allowDisk).Final := by
  have hfr : (g.stamped r.entry).streams.1 ∉ g.cleared := fun hmem =>
    absurd (hg.accepted _ (h.cleared hmem)).1 (lt_irrefl _)
  refine { h with memory := h.memory.insertLocked hg.accounted hfr _, cleared := fun o ho => ?_ }
  rw [accepted_accept]
  exact mem_append_left _ (h.cleared ho)

theorem Final.persist (h : g.Final) {plan : PersistPlan} {e : ResultCacheEntry (Origin × P)}
    (he : e.streams.1 ∉ g.removed) (size : BlobSize) (nowUnix : ℤ) : (g.persist dg plan e size nowUnix).Final := by
  refine { h with disk := fun u p r hr => ?_ }
  rcases DiskTier.store_persist hr with ⟨-, -, rfl⟩ | ⟨-, hr⟩
  · exact he
  · exact h.disk u p r hr

theorem Final.clear (hg : g.WF dg cfg) (h : g.Final) {f : FlushOp} {doomed : List Origin}
    (hv : ∀ o ∈ victims, f.covers o ∧ o ∈ g.accepted) : (g.clear f victims doomed).Final := by
  refine ⟨fun e he => ?_, h.disk, h.dead, ?_, fun o ho => ?_⟩
  · obtain ⟨hold, hcovers⟩ := hg.not_covers_of_mem_clear he
    exact mem_victims_or (fun o ho => (hv o ho).1) hcovers (h.memory e hold)
  · exact subset_append_of_subset_right _ h.removed
  · rw [accepted_clear]
    rcases mem_append.1 ho with ho | ho
    · exact (hv o ho).2
    · exact h.cleared ho

theorem Final.flushReturns (h : g.Final) (doomed : List Origin) (hv : ∀ o ∈ victims, o ∈ g.cleared)
    (hds : ∀ usePack p r, g.disk.store usePack p = some r → r.streams.1 ∉ victims ++ g.removed) :
    (g.flushReturns victims doomed).Final := by
  refine ⟨h.memory, hds, fun o ho => ?_, fun o ho => ?_, h.cleared⟩
  · rcases mem_append.1 ho with ho | ho
    · exact mem_append_left _ ho
    · exact mem_append_right _ (h.dead ho)
  · rcases mem_append.1 ho with ho | ho
    · exact hv o ho
    · exact h.removed ho

end CacheState

/-- What a step under the condition keeps. -/
theorem CacheMove.final (hg : g.WF dg cfg) (hl : l.WF dg cfg g) (hfg : g.Final) (hfl : l.Final g)
    (hrule : l.pc.Uncrossed g) (h : CacheMove dg g l g' l') : g'.Final ∧ l'.Final g' := by
  have hlv : ∀ o, o ∉ g.removed → o ∉ l.dead := fun o ho hd => ho (hfg.dead (hfl.dead hd))
  cases h with
  | done => exact ⟨hfg, hfl.dead, trivial⟩
  | @miss t pc hlk ht hpc =>
    refine ⟨hfg.settles ht, hfl.dead, ?_⟩
    rcases hpc with hpc | rfl
    · cases pc <;> trivial
    · trivial
  | hit _ ht he₀ he =>
    obtain rfl := he
    exact ⟨hfg.settles ht, hfl.dead, hlv _ fun hmem => hfg.memory _ he₀ (hfg.removed hmem)⟩
  | read _ ht hr he hpc =>
    obtain ⟨now, nowUnix, diskBacked, rfl⟩ := he
    have hrd := hlv _ (hfg.disk _ _ _ hr)
    refine ⟨hfg.settles ht, hfl.dead, ?_⟩
    rcases hpc with rfl | rfl <;> exact hrd
  | @adopt e hpc =>
    rw [hpc] at hrule
    refine ⟨hfg.tier (hfg.memory.adopt hg.accounted (fun _ he => he) hrule), hfl.dead, ?_⟩
    have hpc' := hfl.pc
    rw [hpc] at hpc'
    change (g.tier.adopt e).2.streams.1 ∉ l.dead
    rw [MemoryTier.adopt_streams]
    exact hpc'
  | @insert r hpc => exact ⟨hfg.accept hg r, .persisting (by exact hfl.dead) _ _ _⟩
  | @reinsert e allowDisk hpc =>
    rw [hpc] at hrule
    exact ⟨hfg.tier (hfg.memory.insertLocked hg.accounted hrule allowDisk), .persisting (by exact hfl.dead) _ _ _⟩
  | persist size nowUnix hpc =>
    rw [hpc] at hrule
    exact ⟨hfg.persist hrule size nowUnix, hfl.dead, trivial⟩
  | @clear f hpc =>
    have hpc' := hfl.pc
    rw [hpc] at hpc'
    exact ⟨hfg.clear hg hpc', hfl.dead, fun o ho => ⟨(hpc' o ho).1, mem_append_left _ ho⟩⟩
  | @clearAll f hpc hrm =>
    have hpc' := hfl.pc
    rw [hpc] at hpc'
    refine ⟨(hfg.clear hg hpc').flushReturns _ (fun o ho => mem_append_left _ ho)
      fun u p r hr => ?_, subset_append_of_subset_right _ hfl.dead, trivial⟩
    exact mem_victims_or (fun o ho => (hpc' o ho).1) (hg.not_covers_of_not_removes hrm hr) (hfg.disk u p r hr)
  | @remove f dir hpc =>
    have hpc' := hfl.pc
    rw [hpc] at hpc'
    simp only [CacheThread.WF, hpc] at hl
    subst hl
    have hlf : ∀ u p r, (g.disk.remove dg cfg.dir f).store u p = some r → r.streams.1 ∉ l.victims ++ g.removed := by
      intro u p r hr
      obtain ⟨hold, hcovers⟩ := hg.not_covers_of_remove hr
      exact mem_victims_or (fun o ho => (hpc' o ho).1) hcovers (hfg.disk u p r hold)
    have hrmv : ({ g with disk := g.disk.remove dg cfg.dir f } : CacheState P).Final :=
      { hfg with disk := fun u p r hr hmem => hlf u p r hr (mem_append_right _ hmem) }
    exact ⟨hrmv.flushReturns _ (fun o ho => (hpc' o ho).2) hlf, subset_append_of_subset_right _ hfl.dead, trivial⟩
  | revalidate | slide => exact ⟨hfg, hfl.dead, trivial⟩

variable (dg cfg) in
/-- What a flush leaves, as an outline. -/
theorem finalOutline : (cacheThreads (P := P) dg).Outline uncrossed
    (fun _ g => g.WF dg cfg ∧ g.Final) (fun g _ l => l.WF dg cfg g ∧ l.Final g) := by
  refine (cacheOutline dg cfg).extend ?_ ?_
  · intro g n op g' l hg hfg _ h
    cases h
    refine ⟨hfg, ?_, fun _ _ _ hm => hm⟩
    cases op with
    | flush f =>
      refine ⟨nil_subset _, fun o ho => ?_⟩
      obtain ⟨hpub, hcovers⟩ := mem_filter.1 ho
      exact ⟨hcovers, hg.published o hpub⟩
    | lookup k => exact ⟨List.Subset.refl _, trivial⟩
    | insert r | slide k exchange allowDisk => exact ⟨nil_subset _, trivial⟩
  · intro g n i l x g' l' hg hfg hl hfl hrule h
    have hmove := cacheStep_move hg.accounted h
    obtain ⟨hfg', hfl'⟩ := hmove.final hg hl hfg hfl hrule
    exact ⟨hfg', hfl', fun j m _ _ hm => hm.later hmove.flushes.1 hmove.flushes.2 (hmove.later hg.accounted)⟩

theorem CacheState.init_final (s : CacheSettings) : (init s : CacheState P).Final where
  memory := MemoryTier.holds_init s
  disk u p r hr := by cases u <;> cases hr
  dead := nil_subset _
  removed := nil_subset _
  cleared := nil_subset _

/-- If no step crosses a flush, no lookup is answered with what was published before a
    flush began that had returned when the lookup started. -/
theorem lookup_not_dead (dg : Digests) (s : CacheSettings)
    {as : CacheActs P} {c : Threads.Config (CacheState P) (CacheThread P)}
    (hrule : (cacheThreads dg).machine.Along uncrossed.At ⟨init s, []⟩ as)
    (hrun : (cacheThreads dg).machine.run ⟨init s, []⟩ as = some c)
    {i : ℕ} {l : CacheThread P} (hl : c.locals[i]? = some l) {e : ResultCacheEntry (Origin × P)}
    (he : l.pc = .answered (some e)) : e.streams.1 ∉ l.dead := by
  have hfn := (((finalOutline dg _).run (meets_init s (init_final s)) hrule hrun).locals i l hl).2.pc
  rw [he] at hfn
  exact hfn

/-! ## Runs -/

/-- A flush, and then a new result and a lookup. -/
def flushedRun : CacheActs Unit :=
  .spawn (.insert (newResult "1" true)) :: steps 0 2 ++ .spawn (.flush .all) :: steps 1 2 ++
    .spawn (.insert (newResult "1" true)) :: steps 2 1 ++ .spawn (.lookup (resultKey "1")) :: steps 3 1

/-- The flush comes between the locked section of an `Insert` and its write to disk. -/
def persistCrossed : CacheActs Unit :=
  .spawn (.insert (newResult "1" true)) :: steps 0 1 ++ .spawn (.flush .all) :: steps 1 2 ++ steps 0 1 ++
    .spawn (.lookup (resultKey "1")) :: steps 2 5

/-- The flush comes between the read of a lookup and its adoption into memory. -/
def adoptCrossed : CacheActs Unit :=
  .spawn (.insert (newResult "1" true)) :: steps 0 2 ++ .spawn (.insert (newResult "2" true)) :: steps 1 2 ++
    .spawn (.lookup (resultKey "1")) :: steps 2 4 ++ .spawn (.flush .all) :: steps 3 2 ++
    steps 2 1 ++ .spawn (.lookup (resultKey "1")) :: steps 4 1

/-- Whether the lookup is answered with what was dead when it started. -/
def CacheThread.answeredDead (l : CacheThread P) : Option Bool :=
  match l.pc with
  | .answered (some e) => some (e.streams.1 ∈ l.dead)
  | _ => none

theorem CacheThread.answeredDead_eq_some {b : Bool} (h : l.answeredDead = some b) :
    ∃ e, l.pc = .answered (some e) ∧ b = decide (e.streams.1 ∈ l.dead) := by
  rw [answeredDead] at h
  split at h
  · rename_i e hpc
    cases h
    exact ⟨e, hpc, rfl⟩
  · cases h

/-- The lookup after the flush is answered with the new result. -/
theorem flushedRun_not_dead : ∃ c l e, ran flushedRun = some c ∧
      c.locals[3]? = some l ∧ l.pc = .answered (some e) ∧ l.dead ≠ [] ∧ e.streams.1 ∉ l.dead := by
  have hrule : (cacheThreads argumentDigests).machine.Along uncrossed.At
      ⟨init oneEntry, []⟩ flushedRun := by decide
  have hlk : ((ran flushedRun).bind fun c => c.locals[3]?.bind fun l =>
        l.answeredDead.map fun _ => l.dead.isEmpty) = some false := by decide
  obtain ⟨c, hrun, hc⟩ := bind_eq_some_iff.1 hlk
  obtain ⟨l, hl, han⟩ := bind_eq_some_iff.1 hc
  obtain ⟨b, hb, hde⟩ := map_eq_some_iff.1 han
  obtain ⟨e, he, -⟩ := answeredDead_eq_some hb
  exact ⟨c, l, e, hrun, hl, he, by simpa using hde, lookup_not_dead _ _ hrule hrun hl he⟩

/-- In the run, the lookup that starts last is answered with what was dead by then. -/
def AnswersDead (as : CacheActs Unit) : Prop :=
  ∃ c l e, ran as = some c ∧ c.locals.getLast? = some l ∧ l.pc = .answered (some e) ∧ e.streams.1 ∈ l.dead

theorem answersDead_of_run {as : CacheActs Unit}
    (h : ((ran as).bind fun c => c.locals.getLast?.bind answeredDead) = some true) :
    AnswersDead as := by
  obtain ⟨c, hrun, hc⟩ := bind_eq_some_iff.1 h
  obtain ⟨l, hl, han⟩ := bind_eq_some_iff.1 hc
  obtain ⟨e, he, hde⟩ := answeredDead_eq_some han
  exact ⟨c, l, e, hrun, hl, he, of_decide_eq_true hde.symm⟩

/-- A crossing of either kind makes a later lookup return what was flushed. -/
theorem flush_crossed : AnswersDead persistCrossed ∧ AnswersDead adoptCrossed := by
  constructor
  · exact answersDead_of_run (by decide)
  · exact answersDead_of_run (by decide)

end Vgi
