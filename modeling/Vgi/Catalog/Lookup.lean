import Vgi.Catalog.Set

/-!
# Lookups of tables

Threads look up tables of one schema and scan it, and the tables that the worker has do not change. A lookup is to
find a table if the worker has it, and nothing otherwise.

A lookup that fetches a single table publishes it only if the generation of the set is the one from before the
request. The generation also changes whenever another entry is published: then what was fetched is thrown away, and
the lookup returns as if there were no such table (`table_lost`).

* `tables_found`: lookups are right if this does not happen, and no count of zero is trusted that is wrong.
-/

namespace Vgi.Catalog

open Prog Function List Option

/-- The worker has a table of this name. -/
abbrev Has (W : List EntryInfo) (name : Bytes) : Prop := ∃ t ∈ W, lower t.name = lower name

/-- A lookup has returned what the worker has. -/
structure Found (W : List EntryInfo) (name : Bytes) (r : Option Entry) : Prop where
  entry : ∀ e, r = some e → ∃ t ∈ W, lower t.name = lower name ∧ e.name = t.name ∧ e.definition = t.definition
  absent : r = none → ¬Has W name

/-- The replies are those of a worker with these tables. -/
abbrev Input.From (W : List EntryInfo) : Input → Prop
  | .listing reply => ∀ t ∈ reply, t ∈ W
  | .fetched name (some t) => t ∈ W ∧ lower t.name = lower name
  | .fetched name none => ¬Has W name
  | _ => True

/-- No entry has been published, since the generation was read, when the one that was fetched is. -/
abbrev Input.Unraced (g : World) : Input → Prop
  | .publish X _ preGen => (g.sets X).generation = preGen
  | _ => True

instance (W : List EntryInfo) (input : Input) : Decidable (input.From W) := by
  rcases input with _ | _ | _ | _ | _ | _ | _ | ⟨_, _ | _⟩ <;> infer_instance

instance (g : World) (input : Input) : Decidable (input.Unraced g) := by
  rcases input <;> infer_instance

/-- `GetEntry` or `Scan` of the tables. -/
inductive TableCall
  | getEntry (ctx : Context) (name : Bytes)
  | scan (ctx : Context)

def TableCall.ctx : TableCall → Context
  | getEntry ctx _ => ctx
  | scan ctx => ctx

def TableCall.main (H : Host) (a i : ℕ) : TableCall → Program (Except Unit (Option Entry))
  | getEntry ctx name => (getTable H ctx a name).run
  | scan ctx => (do
      let _ ← Catalog.scan H i ctx (.inSchema a .table)
      return none : M (Option Entry)).run

/-- The threads that look up tables of the schema. -/
def tableThreads (H : Host) (a : ℕ) := threads (TableCall.main H a)

/-- The tables of the schema, before anything is known of them. What it was seeded with is from the worker. -/
structure World.Fresh (W : List EntryInfo) (a : ℕ) (g : World) : Prop where
  set : g.sets (.inSchema a .table) = {}
  seed : ∀ seed, (g.schemaAt a).seed = some seed → ∀ t ∈ seed.tables, t ∈ W

/-- The replies are from the worker, no lookup is overtaken, and a count of zero is trusted only if it is right. -/
abbrev unraced (W : List EntryInfo) (a : ℕ) (g₀ : World) :
    Threads.Rule World (TableCall × Program (Except Unit (Option Entry))) TableCall Input where
  spawn _ call := call.ctx.trustEmptyKinds = true → (g₀.schemaAt a).info.estimatedTables = 0 → W = []
  step g _ _ input := input.From W ∧ input.Unraced g

namespace Lookup

variable {W : List EntryInfo} {a i : ℕ} {n : ℤ} {H : Host} {ctx : Context} {name : Bytes}

/-! ## The invariant -/

/-- What is remembered is what the worker has, or has not. -/
structure SetInv (W : List EntryInfo) (n : ℤ) (s : EntrySet) : Prop where
  entries : ∀ x ∈ s.entries, ∃ t ∈ W, lower t.name = x.1 ∧ x.2.name = t.name ∧ x.2.definition = t.definition
  missing : ∀ m ∈ s.missing, ∀ t ∈ W, lower t.name ≠ m.1
  count : s.estimatedCount = if s.eagerLoadResolved then n else 1

structure Inv (W : List EntryInfo) (a : ℕ) (n : ℤ) (g : World) : Prop where
  set : SetInv W n (g.sets (.inSchema a .table))
  seed : ∀ seed, (g.schemaAt a).seed = some seed → ∀ t ∈ seed.tables, t ∈ W
  estimate : (g.schemaAt a).info.estimatedTables = n

/-- Nothing is asked of a single step but the invariant. -/
abbrev discipline (W : List EntryInfo) (a : ℕ) (n : ℤ) : Discipline World Input where
  inv := Inv W a n
  guar _ _ _ := True
  allowed _ g input := input.From W ∧ input.Unraced g

theorem stable {p : Prop} : (discipline W a n).Stable i fun _ => p := Discipline.stable_const p

namespace SetInv

variable {s : EntrySet}

theorem find (h : SetInv W n s) {e : Entry} (he : s.find name = some e) : Found W name (some e) := by
  refine ⟨fun e' he' => ?_, fun hno => absurd hno (some_ne_none e)⟩
  cases he'
  obtain ⟨l₁, l₂, hl, -⟩ := lookup_eq_some_iff.1 he
  exact h.entries (lower name, e) (hl ▸ mem_append_right l₁ mem_cons_self)

theorem isMissing (h : SetInv W n s) (hms : s.isMissing name = true) : Found W name none := by
  refine ⟨fun e he => absurd he.symm (some_ne_none e), fun _ hhs => ?_⟩
  obtain ⟨m, hm, heq⟩ := List.any_eq_true.1 hms
  obtain ⟨t, ht, hnm⟩ := hhs
  exact h.missing m hm t ht (hnm.trans (of_decide_eq_true heq).symm)

theorem insert (h : SetInv W n s) {t : EntryInfo} (ht : t ∈ W) {key : Bytes} (hkey : lower t.name = key)
    (sentAt : ℕ) : SetInv W n (s.insert key (buildEntry t sentAt)) := by
  refine ⟨fun x hx => ?_, fun m hm => h.missing m (mem_of_mem_filter hm), h.count⟩
  rcases mem_cons.1 hx with rfl | hx
  · exact ⟨t, ht, hkey, rfl, rfl⟩
  · exact h.entries x hx

theorem createEntry (h : SetInv W n s) {t : EntryInfo} (ht : t ∈ W) (sentAt : ℕ) :
    SetInv W n (s.createEntry (buildEntry t sentAt)) := by
  rw [EntrySet.createEntry]
  split_ifs
  · exact { h with missing := fun m hm => h.missing m (mem_of_mem_filter hm) }
  · exact h.insert ht rfl sentAt

theorem foldl_createEntry {ts : List EntryInfo} (hts : ∀ t ∈ ts, t ∈ W) (sentAt : ℕ) (h : SetInv W n s) :
    SetInv W n (ts.foldl (fun s t => s.createEntry (buildEntry t sentAt)) s) := by
  induction ts generalizing s with
  | nil => exact h
  | cons t ts ih => exact ih (fun t' ht' => hts t' (mem_cons_of_mem t ht')) (h.createEntry (hts t mem_cons_self) sentAt)

theorem cacheMissing (h : SetInv W n s) (hab : ¬Has W name) (preGen sentAt : ℕ) :
    SetInv W n (s.cacheMissing H name preGen sentAt) := by
  have hnew : ∀ t ∈ W, lower t.name ≠ lower name := fun t ht heq => hab ⟨t, ht, heq⟩
  rw [EntrySet.cacheMissing]
  split_ifs
  · exact h
  · refine { h with missing := fun m hm => ?_ }
    rw [mem_singleton.1 hm]
    exact hnew
  · refine { h with missing := fun m hm => ?_ }
    rcases mem_cons.1 hm with rfl | hm
    exacts [hnew, h.missing m (mem_of_mem_filter hm)]

theorem resolve (h : SetInv W n s) (threshold : ℤ) : SetInv W n (s.resolve threshold (some n)) := by
  rw [EntrySet.resolve]
  split_ifs
  exacts [h, { h with count := rfl }]

end SetInv

namespace Inv

variable {g : World}

section

variable (hg : Inv W a n g)

include hg

theorem mapSet {f : EntrySet → EntrySet}
    (hf : SetInv W n (f (g.sets (.inSchema a .table)))) : Inv W a n (g.mapSet (.inSchema a .table) f) := by
  refine { hg with set := ?_ }
  change SetInv W n (update g.sets _ _ _)
  rwa [update_self]

theorem resolve : Inv W a n (g.resolve H (.inSchema a .table)) := by
  rw [World.resolve]
  split_ifs
  · exact hg
  · refine hg.mapSet ?_
    rw [show g.estimate (.inSchema a .table) = some n from congrArg some hg.estimate]
    exact hg.set.resolve _

theorem markLoaded (began : ℕ) : Inv W a n (g.markLoaded (.inSchema a .table) began) := by
  have hset := hg.mapSet (f := ({ · with isLoaded := true })) ⟨hg.set.entries, hg.set.missing, hg.set.count⟩
  exact { hset with }

theorem takeSeed (k : EntryKind) : Inv W a n (g.takeSeed a k) := by
  refine ⟨hg.set, fun seed hsd => hg.seed seed ?_, ?_⟩
  · change (update g.schemaAt a _ a).seed = some seed at hsd
    rwa [update_self] at hsd
  · change (update g.schemaAt a _ a).info.estimatedTables = n
    rw [update_self]
    exact hg.estimate

/-- The set is taken to be empty only if the worker has no tables. -/
theorem beginLoad (htr : ctx.trustEmptyKinds = true → n = 0 → W = []) :
    Inv W a n (beginLoad H (.inSchema a .table) ctx.trustEmptyKinds g).1 ∧
      ((beginLoad H (.inSchema a .table) ctx.trustEmptyKinds g).2 = false → W = []) := by
  have hres := hg.resolve (H := H)
  rw [Catalog.beginLoad]
  split_ifs with hbp
  · refine ⟨hres.markLoaded _, fun _ => ?_⟩
    rw [World.shouldBypassRpc, Bool.and_eq_true, Bool.and_eq_true, decide_eq_true_eq] at hbp
    obtain ⟨⟨-, hcn⟩, ht⟩ := hbp
    rw [hres.set.count] at hcn
    split_ifs at hcn
    exacts [htr ht hcn, absurd hcn one_ne_zero]
  · exact ⟨hres, fun h => absurd h (by decide)⟩

end

end Inv

theorem found_none_of_nil (hW : W = []) : Found W name none := by
  refine ⟨fun e he => absurd he.symm (some_ne_none e), fun _ hhs => ?_⟩
  obtain ⟨t, ht, -⟩ := hhs
  rw [hW] at ht
  exact not_mem_nil ht

/-! ## The programs -/

/-- Whatever the others do meanwhile, what the program of a thread returns meets `Q`. -/
abbrev Yields (W : List EntryInfo) (a : ℕ) (n : ℤ) (i : ℕ) {β : Type} (Q : β → Prop) (c : Program β) : Prop :=
  Meets (discipline W a n) i (fun b _ => Q b) c fun _ => True

/-- The program may fail as well. -/
abbrev Tries (W : List EntryInfo) (a : ℕ) (n : ℤ) (i : ℕ) {β : Type} (Q : β → Prop) (c : M β) : Prop :=
  Meets (discipline W a n) i (Outcome (fun b _ => Q b) fun _ => True) c.run fun _ => True

/-- The section keeps the invariant, and what it returns does not depend on the state. -/
theorem meets_section {β : Type} {label : Input} {f : World → World × β} {Q : β → Prop}
    (h : ∀ g, label.From W → label.Unraced g → Inv W a n g → Inv W a n (f g).1 ∧ Q (f g).2) :
    Yields W a n i Q (critical label f) :=
  meets_critical (fun _ => stable) fun g ha hg _ => ⟨(h g ha.1 ha.2 hg).1, trivial, (h g ha.1 ha.2 hg).2⟩

theorem spec_look (htr : ctx.trustEmptyKinds = true → n = 0 → W = []) :
    Yields W a n i (fun gl => ∀ r, gl = .known r → Found W name r) (look H ctx (.inSchema a .table) name) := by
  refine meets_section fun g _ _ hg => ?_
  rw [beginLookup]
  rcases hfn : (g.sets (.inSchema a .table)).find name with _ | e
  · split_ifs with hms
    · refine ⟨hg, fun r hr => ?_⟩
      obtain rfl := Glance.known.inj hr
      exact hg.set.isMissing (Bool.and_eq_true_iff.1 hms).2
    · obtain ⟨hinv, hem⟩ := hg.beginLoad htr
      rcases hld : beginLoad H (.inSchema a .table) ctx.trustEmptyKinds g with ⟨g', _ | _⟩ <;> rw [hld] at hinv hem
      · refine ⟨hinv, fun r hr => ?_⟩
        obtain rfl := Glance.known.inj hr
        exact found_none_of_nil (hem rfl)
      · exact ⟨hinv, nofun⟩
  · refine ⟨hg, fun r hr => ?_⟩
    obtain rfl := Glance.known.inj hr
    exact hg.set.find hfn

theorem spec_takeEntries : Tries W a n i (fun r => ∀ t ∈ r.1, t ∈ W) (takeEntries a .table) := by
  have hcl : Yields W a n i (fun r => ∀ l, r = some l → ∀ t ∈ l.1, t ∈ W) (claimSeed a .table) := by
    refine meets_section fun g _ _ hg => ?_
    rcases g.hasSeed (.inSchema a .table) with _ | _ <;> rcases hsd : (g.schemaAt a).seed with _ | seed
    on_goal 4 =>
      refine ⟨hg.takeSeed .table, fun l hl => ?_⟩
      cases hl
      exact hg.seed seed hsd
    all_goals exact ⟨hg, nofun⟩
  refine hcl.liftE fun r => ?_
  rcases r with _ | listing
  · exact meets_requestListing (fun _ => stable) stable (fun _ => trivial) (fun _ _ ha _ _ => ha.1) fun _ _ _ => trivial
  · exact meets_return fun _ _ h => h listing rfl

theorem spec_recheck :
    Yields W a n i (fun r => ∀ e, r.1 = some e → Found W name (some e)) (recheck (.inSchema a .table) name) :=
  meets_section fun _ _ _ hg => ⟨hg, fun _ he => hg.set.find he⟩

variable {preGen : ℕ}

theorem spec_loadTables {began : ℕ} :
    Tries W a n i (fun r => ∀ e, r.1 = some e → Found W name (some e)) (loadTables H a name preGen began) := by
  have hbl : Tries W a n i (fun r => ∀ t ∈ r.1, t ∈ W) (buildAll H a) := by
    refine spec_takeEntries.tryE fun listing => ?_
    split_ifs
    · exact meets_return fun _ _ => id
    · exact meets_throw fun _ _ _ => trivial
  refine hbl.tryE fun listing => ?_
  have hpb : Meets (discipline W a n) i (fun _ _ => True)
      (publishAll (.inSchema a .table) listing preGen began) fun _ => ∀ t ∈ listing.1, t ∈ W := by
    refine meets_critical (fun _ => stable) fun g _ hg hls => ?_
    split_ifs
    · exact ⟨(hg.mapSet (hg.set.foldl_createEntry hls listing.2)).markLoaded began, trivial, trivial⟩
    · exact ⟨hg, trivial, trivial⟩
  exact hpb.liftE fun _ => spec_recheck.lift fun _ => True

/-- The only section where what was fetched is thrown away is not reached with another generation. -/
theorem spec_publishTable {t : EntryInfo} {sentAt : ℕ} (ht : t ∈ W) (hnm : lower t.name = lower name) :
    Yields W a n i (Found W name) (publishTable (.inSchema a .table) name (buildEntry t sentAt) preGen) := by
  refine meets_section fun g _ hun hg => ?_
  have hgn : (g.sets (.inSchema a .table)).generation = preGen := hun
  rw [if_neg (not_not.2 hgn)]
  rcases hfn : (g.sets (.inSchema a .table)).find name with _ | e <;> dsimp only
  · refine ⟨hg.mapSet (hg.set.insert ht hnm sentAt), fun e he => ?_, fun h => absurd h (some_ne_none _)⟩
    cases he
    exact ⟨t, ht, hnm, rfl, rfl⟩
  · exact ⟨hg, hg.set.find hfn⟩

theorem spec_fetchTable (hat : H.attached = true) : Tries W a n i (Found W name) (fetchTable H a name preGen) := by
  have hreq : Tries W a n i (fun r => Input.From W (.fetched name r.1)) (requestTable name) :=
    meets_requestTable (fun _ => stable) stable (fun _ => trivial) (fun _ _ ha _ _ => ha.1) fun _ _ _ => trivial
  rw [fetchTable, if_pos hat]
  refine hreq.tryE fun r => ?_
  obtain ⟨_ | t, sentAt⟩ := r
  · refine (Meets.lift (Q := fun _ _ => ¬Has W name) ?_ fun _ => True).tryE fun _ => meets_return fun _ _ h => ?_
    · exact meets_critical (fun _ => stable) fun g _ hg hab =>
        ⟨hg.mapSet (f := (·.cacheMissing H name preGen sentAt)) (hg.set.cacheMissing hab preGen sentAt), trivial, hab⟩
    · exact ⟨fun e he => absurd he.symm (some_ne_none e), fun _ => h⟩
  · dsimp only
    split_ifs
    · refine Meets.pre (meets_of_fact fun h => ?_) fun _ _ h => ⟨trivial, h⟩
      exact (spec_publishTable h.1 h.2).lift fun _ => True
    · exact meets_throw fun _ _ _ => trivial

theorem spec_getTable (hat : H.attached = true) (htr : ctx.trustEmptyKinds = true → n = 0 → W = []) :
    Tries W a n i (Found W name) (getTable H ctx a name) := by
  refine (spec_look htr).liftE fun gl => ?_
  rcases gl with r | ⟨eager, preGen, began⟩
  · exact meets_return fun _ _ h => h r rfl
  refine Meets.tryE (R := fun r _ => ∀ e, r.1 = some e → Found W name (some e)) (E := fun _ => True) ?_ fun r => ?_
  · split_ifs
    · exact spec_loadTables.pre fun _ _ _ => trivial
    · exact meets_return fun _ _ _ e he => by cases he
  · obtain ⟨_ | e, gen⟩ := r
    · exact (spec_fetchTable hat).pre fun _ _ _ => trivial
    · exact meets_return fun _ _ h => h e rfl

theorem spec_loadEach {sentAt : ℕ} (ts : List EntryInfo) (hts : ∀ t ∈ ts, t ∈ W) :
    Tries W a n i (fun _ => True) (loadEach H a .table sentAt ts) := by
  induction ts with
  | nil => exact meets_return fun _ _ => id
  | cons t ts ih =>
    refine Meets.tryE (E := fun _ => True) ?_ fun _ => ih fun t' ht' => hts t' (mem_cons_of_mem t ht')
    rw [loadEntry]
    split_ifs
    · exact (meets_section fun g _ _ hg =>
        ⟨hg.mapSet (f := (·.createEntry (buildEntry t sentAt))) (hg.set.createEntry (hts t mem_cons_self) sentAt),
          trivial⟩).lift fun _ => True
    · exact meets_throw fun _ _ => id
    · exact absurd rfl ‹_›

theorem spec_loadLocked : Tries W a n i (fun _ => True) (loadLocked H ctx (.inSchema a .table)) := by
  have hld : Tries W a n i (fun _ => True) (load H ctx (.inSchema a .table)) := by
    rw [load]
    split_ifs
    · refine spec_takeEntries.tryE fun listing => ?_
      exact Meets.pre (meets_of_fact (spec_loadEach listing.1)) fun _ _ h => ⟨trivial, h⟩
    · exact meets_return fun _ _ => id
  refine (meets_section (Q := fun _ => True) fun _ _ _ hg => ⟨hg, trivial⟩).liftE fun r => ?_
  rcases r with _ | began
  · exact meets_return fun _ _ => id
  · refine hld.tryE fun _ => ?_
    exact (meets_section fun _ _ _ hg => ⟨hg.markLoaded began, trivial⟩).lift fun _ => True

theorem spec_ensureLoaded (htr : ctx.trustEmptyKinds = true → n = 0 → W = []) :
    Tries W a n i (fun _ => True) (ensureLoaded H i ctx (.inSchema a .table)) := by
  have hnd : Yields W a n i (fun _ => True) (needsLoad H ctx (.inSchema a .table)) := by
    refine meets_section fun g _ _ hg => ?_
    split_ifs
    exacts [⟨hg, trivial⟩, ⟨(hg.beginLoad htr).1, trivial⟩]
  have hlck : ∀ {g : World} l, Inv W a n g →
      Inv W a n (g.mapSet (.inSchema a .table) ({ · with loadLock := l })) := fun l hg =>
    hg.mapSet ⟨hg.set.entries, hg.set.missing, hg.set.count⟩
  have hlc : Yields W a n i (fun _ => True) (lockLoad i (.inSchema a .table)) := by
    refine meets_atomic (fun _ => stable) fun g input g' b hg _ heq => ?_
    obtain ⟨-, heq⟩ := ite_none_right_eq_some.1 heq
    obtain ⟨rfl, -⟩ := Prod.mk.inj (some.inj heq)
    exact ⟨hlck (some i) hg, trivial, trivial⟩
  have hun : Yields W a n i (fun _ => True) (unlockLoad (.inSchema a .table)) :=
    meets_section fun g _ _ hg => ⟨hlck none hg, trivial⟩
  refine hnd.liftE fun needed => ?_
  rcases needed with _ | _
  · exact meets_return fun _ _ => id
  · refine meets_holding (hlc.lift fun _ => True) spec_loadLocked (fun r => ?_) fun _ _ _ => id
    refine (hun.pre fun _ _ _ => trivial).post fun _ _ _ _ => ?_
    rcases r with _ | _ <;> trivial

/-- What a call returns with. -/
def Right (W : List EntryInfo) : TableCall → Except Unit (Option Entry) → Prop
  | .getEntry _ name, .ok r => Found W name r
  | _, _ => True

theorem spec_main (hat : H.attached = true) (i : ℕ) (call : TableCall)
    (htr : call.ctx.trustEmptyKinds = true → n = 0 → W = []) :
    Yields W a n i (Right W call) (call.main H a i) := by
  rcases call with ⟨ctx, name⟩ | ctx
  · refine (spec_getTable hat htr).post fun r _ _ h => ?_
    rcases r with e | r
    exacts [trivial, h]
  · refine Meets.post (Q := fun _ _ => True) ?_ fun r _ _ _ => trivial
    refine Meets.bindE (R := fun _ _ => True) (E := fun _ => True) ?_ (fun _ => meets_return fun _ _ _ => trivial)
      fun _ _ _ _ => trivial
    exact (spec_ensureLoaded htr).tryE fun _ => (meets_section fun _ _ _ hg => ⟨hg, trivial⟩).lift fun _ => True

end Lookup

/-- In every interleaving of lookups and scans, a lookup that returns has found what the worker has: if no entry is
    published between its reading of the generation and the publication of what it fetched, and no count of zero is
    trusted that is wrong. -/
theorem tables_found {H : Host} (hattached : H.attached = true) {W : List EntryInfo} {a : ℕ} {g : World}
    (hfresh : g.Fresh W a) {acts : List (Threads.Act TableCall Input)}
    {s : Threads.Config World (TableCall × Program (Except Unit (Option Entry)))}
    (hrule : (tableThreads H a).machine.Along (unraced W a g).At ⟨g, []⟩ acts)
    (hrun : (tableThreads H a).machine.run ⟨g, []⟩ acts = some s) {i : ℕ} {ctx : Context} {name : Bytes}
    {r : Option Entry} (hr : s.locals[i]? = some (.getEntry ctx name, .ret (.ok r))) : Found W name r := by
  have hinv : Lookup.Inv W a (g.schemaAt a).info.estimatedTables g := by
    refine ⟨?_, hfresh.seed, rfl⟩
    rw [hfresh.set]
    exact ⟨nofun, nofun, rfl⟩
  exact (run_meets (Lookup.spec_main hattached) hinv hrule hrun).2 i _ _ hr

/-! ## Two tables -/

/-- Tables are fetched one by one. -/
def singly : Host where thresholds _ := 0

def aAndB : List EntryInfo := [{ name := ascii "a" }, { name := ascii "b" }]

/-- The lookup of `a` begins when `b` is published. -/
def oneByOne : List (Threads.Act TableCall Input) :=
  [.spawn (.getEntry {} (ascii "a")), .spawn (.getEntry {} (ascii "b")),
    .step 1 (.look (.inSchema 0 .table) true), .step 1 (.fetched (ascii "b") (some { name := ascii "b" })),
    .step 1 (.publish (.inSchema 0 .table) (ascii "b") 0), .step 0 (.look (.inSchema 0 .table) true),
    .step 0 (.fetched (ascii "a") (some { name := ascii "a" })),
    .step 0 (.publish (.inSchema 0 .table) (ascii "a") 1)]

/-- Both lookups have read the generation when `b` is published. -/
def overlapping : List (Threads.Act TableCall Input) :=
  [.spawn (.getEntry {} (ascii "a")), .spawn (.getEntry {} (ascii "b")),
    .step 0 (.look (.inSchema 0 .table) true), .step 1 (.look (.inSchema 0 .table) true),
    .step 1 (.fetched (ascii "b") (some { name := ascii "b" })),
    .step 1 (.publish (.inSchema 0 .table) (ascii "b") 0),
    .step 0 (.fetched (ascii "a") (some { name := ascii "a" })),
    .step 0 (.publish (.inSchema 0 .table) (ascii "a") 0)]

theorem fresh_empty (W : List EntryInfo) (a : ℕ) : World.Fresh W a {} :=
  ⟨rfl, fun _ h => absurd h.symm (some_ne_none _)⟩

theorem tables_found_oneByOne : ∃ s r, (tableThreads singly 0).machine.run ⟨{}, []⟩ oneByOne = some s ∧
    s.locals[0]? = some (.getEntry {} (ascii "a"), .ret (.ok (some r))) ∧ Found aAndB (ascii "a") (some r) := by
  have hrl : (tableThreads singly 0).machine.Along (unraced aAndB 0 {}).At ⟨{}, []⟩ oneByOne := by decide +kernel
  exact ⟨_, _, rfl, rfl, tables_found rfl (fresh_empty aAndB 0) hrl rfl (i := 0) rfl⟩

/-- The worker has the table, and says so, and the lookup finds nothing. -/
theorem table_lost : ∃ s, (tableThreads singly 0).machine.run ⟨{}, []⟩ overlapping = some s ∧
    s.locals[0]? = some (.getEntry {} (ascii "a"), .ret (.ok none)) ∧ Has aAndB (ascii "a") ∧
    ∀ i input, .step i input ∈ overlapping → input.From aAndB := by
  refine ⟨_, rfl, rfl, by decide, fun i input h => ?_⟩
  simp only [overlapping, mem_cons, Threads.Act.step.injEq, reduceCtorEq, not_mem_nil, false_or,
    or_false] at h
  rcases h with ⟨-, rfl⟩ | ⟨-, rfl⟩ | ⟨-, rfl⟩ | ⟨-, rfl⟩ | ⟨-, rfl⟩ | ⟨-, rfl⟩ <;> decide

end Vgi.Catalog
