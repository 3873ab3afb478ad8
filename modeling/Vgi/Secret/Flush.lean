import Vgi.Secret.Storage

/-!
# What a flush leaves of the secrets

A flush empties the cache. It does not touch a fetch that is under way: its leader will put the
credential into the cache afterwards, and a lookup that starts after the flush will wait for it. So a
credential that was fetched before the flush is given out after it (`flush_outlived`).

* `given_out_current`: if no fetch is under way when the cache is flushed, then no call that starts
  after a flush gives out a credential whose fetch began before it;
* `fetches_apart`: no two calls fetch for the same key at once.
-/

namespace Vgi

open List

/-- No fetch is under way when the cache is flushed. -/
abbrev flushAlone : Threads.Rule SecretStorage SecretThread SecretOp SecretInput where
  step g _ l _ := l.flushes → g.fetching = []

/-! ## The invariant -/

/-- The fetches of what is in the cache, and of what is under way, began after the last flush. -/
structure SecretStorage.Current (n : ℕ) (g : SecretStorage) : Prop where
  positive : ∀ e ∈ g.positive, e.2.secret.epoch = g.epoch
  inflight : ∀ k j, (k, j) ∈ g.inflight →
    j < n ∧ ∀ f, (g.records j).begun = some f → j ∈ g.fetching ∧ f = g.epoch
  records : ∀ j c, (g.records j).secret = some c → (g.records j).begun = some c.epoch

/-- All that is in flight for the thread is what it looks up. -/
def SecretThread.Owns (g : SecretStorage) (i : ℕ) (l : SecretThread) : Prop :=
  ∀ k, (k, i) ∈ g.inflight → k = l.op.key

/-- What a call is to give out was fetched after the flushes before the call. -/
structure SecretThread.Current (g : SecretStorage) (i : ℕ) (l : SecretThread) : Prop where
  started : l.started ≤ g.epoch
  pc : match l.pc with
    | .start | .check _ => ∀ k, (k, i) ∉ g.inflight
    | .wait leader => ∀ f, (g.records leader).begun = some f → l.started ≤ f
    | .fetch _ => l.Owns g i ∧ (g.records i).secret = none
    | .fetching _ epoch => l.Owns g i ∧ i ∈ g.fetching ∧ (g.records i).begun = some epoch ∧
        (g.records i).secret = none ∧ epoch = g.epoch
    | .publish _ f => l.Owns g i ∧ i ∈ g.fetching ∧
        ∀ c ∈ f.credential, c.epoch = g.epoch ∧ (g.records i).begun = some c.epoch
    | .wake f => ∀ c ∈ f.credential, l.started ≤ c.epoch ∧ (g.records i).begun = some c.epoch
    | .answer out _ | .done out _ _ => ∀ c ∈ out, l.started ≤ c.epoch
    | .clear | .threw => True

/-- What the other threads may rely on in a step of the thread `i`. -/
structure SecretStorage.Later (i : ℕ) (g g' : SecretStorage) : Prop where
  epoch : g.epoch ≤ g'.epoch
  records : ∀ j, j ≠ i → g'.records j = g.records j
  inflight : ∀ k j, j ≠ i → (k, j) ∈ g'.inflight → (k, j) ∈ g.inflight
  fetching : ∀ j, j ≠ i → j ∈ g.fetching → j ∈ g'.fetching ∧ g'.epoch = g.epoch
  begun : ∀ j f, (g'.records j).begun = some f → (g.records j).begun = some f ∨ f = g.epoch

theorem SecretThread.Current.later {g g' : SecretStorage} {i j : ℕ} {l : SecretThread} (h : l.Current g j)
    (hj : j ≠ i) (hg : g.Later i g') : l.Current g' j := by
  refine ⟨h.started.trans hg.epoch, ?_⟩
  have hpc := h.pc
  have how : l.Owns g j → l.Owns g' j := fun ho k hk => ho k (hg.inflight k j hj hk)
  rcases hl : l.pc with _ | now | leader | now | ⟨now, epoch⟩ | ⟨now, f⟩ | f | _ | ⟨out, cached⟩ | _ |
      ⟨out, cached, t⟩ <;> rw [hl] at hpc <;> dsimp only at hpc ⊢
  case start => exact fun k hk => hpc k (hg.inflight k j hj hk)
  case check => exact fun k hk => hpc k (hg.inflight k j hj hk)
  case wait =>
    -- the leader may have begun since then, when there were at least as many flushes
    intro f hf
    rcases hg.begun leader f hf with hf | rfl
    · exact hpc f hf
    · exact h.started
  case fetch => exact ⟨how hpc.1, hg.records j hj ▸ hpc.2⟩
  case fetching =>
    obtain ⟨ho, hft, hbegun, hsc, hep⟩ := hpc
    obtain ⟨hft', hsm⟩ := hg.fetching j hj hft
    rw [hg.records j hj, hsm]
    exact ⟨how ho, hft', hbegun, hsc, hep⟩
  case publish =>
    obtain ⟨ho, hft, hc⟩ := hpc
    obtain ⟨hft', hsm⟩ := hg.fetching j hj hft
    rw [hg.records j hj, hsm]
    exact ⟨how ho, hft', hc⟩
  case wake =>
    rw [hg.records j hj]
    exact hpc
  all_goals exact hpc

/-! ## The steps keep it -/

namespace SecretHost

open SecretStorage

variable {H : SecretHost} {g g' : SecretStorage} {i n : ℕ} {l : SecretThread} {pc : SecretPc}
  {response : Option SecretResponse}

variable {r : InflightLookup}

/-- What a record says after one was changed. -/
theorem setRecord_cases {α : Type} {π : InflightLookup → Option α} {j : ℕ} {a : α}
    (h : π ((g.setRecord i r).records j) = some a) : j = i ∧ π r = some a ∨ j ≠ i ∧ π (g.records j) = some a := by
  by_cases hj : j = i
  · subst hj
    rw [records_setRecord_self] at h
    exact .inl ⟨rfl, h⟩
  · rw [records_setRecord_of_ne g hj] at h
    exact .inr ⟨hj, h⟩

theorem later_refl (g : SecretStorage) (i : ℕ) : g.Later i g :=
  ⟨le_rfl, fun _ _ => rfl, fun _ _ _ => id, fun _ _ hj => ⟨hj, rfl⟩, fun _ _ => .inl⟩

theorem later_trans_keeps {g'' : SecretStorage} (h : g.Later i g') (h' : g'.Keeps g'') : g.Later i g'' := by
  refine ⟨h'.epoch ▸ h.epoch, fun j hj => ?_, fun k j hj hk => ?_, fun j hj hf => ?_, fun j f hf => ?_⟩
  · rw [h'.records, h.records j hj]
  · rw [h'.inflight] at hk
    exact h.inflight k j hj hk
  · rw [h'.fetching, h'.epoch]
    exact h.fetching j hj hf
  · rw [h'.records] at hf
    exact h.begun j f hf

theorem later_release (key : SecretKey) : g.Later i (g.release i key) := by
  refine ⟨le_rfl, fun _ _ => rfl, fun k j _ hk => mem_of_mem_filter hk, fun j hj hf => ?_, fun _ _ => .inl⟩
  exact ⟨(mem_erase_of_ne hj).2 hf, rfl⟩

theorem later_add (h : g.Later i g') (key : SecretKey) (e : PositiveEntry) : g.Later i (g'.add key e) := { h with }

theorem later_setRecord (h : g.Later i g')
    (hbegun : ∀ f, r.begun = some f → (g.records i).begun = some f ∨ f = g.epoch) : g.Later i (g'.setRecord i r) := by
  refine { h with records := fun j hj => ?_, begun := fun j f hf => ?_ }
  · exact (records_setRecord_of_ne _ hj _).trans (h.records j hj)
  · rcases setRecord_cases hf with ⟨rfl, hr⟩ | ⟨-, hr⟩
    · exact hbegun f hr
    · exact h.begun j f hr

/-- What a step changes for the other threads. -/
theorem Move.later (h : H.Move g i l response g' pc) (hrule : l.flushes → g.fetching = []) : g.Later i g' := by
  cases h with
  | refuse | read | handed | rethrow | complete | «return» => exact later_refl g i
  | disable => exact { later_refl g i with }
  | flush hl =>
    refine ⟨Nat.le_succ _, fun _ _ => rfl, fun _ _ _ => id, fun j _ hj => ?_, fun _ _ => .inl⟩
    rw [hrule hl] at hj
    exact absurd hj not_mem_nil
  | serve _ hkp | unknown _ hkp | attach _ hkp => exact later_trans_keeps (later_refl g i) hkp
  | lead _ hkp =>
    have hlt : g.Later i _ := later_setRecord (r := {}) (later_trans_keeps (later_refl g i) hkp) fun _ hf => by cases hf
    refine { hlt with inflight := fun k j hj hk => ?_ }
    rcases mem_cons.1 hk with hk | hk
    · exact absurd (congrArg Prod.snd hk) hj
    · exact hlt.inflight k j hj hk
  | begin =>
    have hlt := later_setRecord (r := { g.records i with begun := some g.epoch }) (later_refl g i)
      fun f hf => .inr (Option.some.inj hf).symm
    refine { hlt with fetching := fun j _ hj => ?_ }
    exact ⟨mem_cons_of_mem _ hj, rfl⟩
  | publish _ hkp =>
    rcases hkp with hkp | ⟨key, c, ttl, -, -, hkp⟩
    · exact later_trans_keeps (later_release _) hkp
    · exact later_trans_keeps (later_add (later_release _) _ _) hkp
  | settle _ hbegun => exact later_setRecord (later_refl g i) fun f hf => .inl (hbegun ▸ hf)

theorem epoch_of_fetched {type : Bytes} {epoch time : ℕ} {c : Credential}
    (h : (H.fetched type epoch time response).credential = some c) : c.epoch = epoch := by
  rcases response with _ | r
  · cases h
  rw [fetched] at h
  split_ifs at h
  · cases h
    rfl
  · cases h

theorem current_of_keeps (hg : g.Current n) (h : g.Keeps g') : g'.Current n := by
  refine ⟨fun e' he' => ?_, fun k j hk => ?_, fun j c hc => ?_⟩
  · obtain ⟨e, he, hsc, -⟩ := h.positive e' he'
    rw [← hsc, h.epoch]
    exact hg.positive e he
  · rw [h.inflight] at hk
    rw [h.records, h.fetching, h.epoch]
    exact hg.inflight k j hk
  · rw [h.records] at hc ⊢
    exact hg.records j c hc

theorem current_add (hg : g.Current n) {e : PositiveEntry} (he : e.secret.epoch = g.epoch) (key : SecretKey) :
    (g.add key e).Current n :=
  { hg with positive := forall_mem_cons.2 ⟨he, hg.positive⟩ }

/-- The fetch of the thread is no longer under way; others are as before. -/
theorem current_release (hg : g.Current n) (ho : l.Owns g i) : (g.release i l.op.key).Current n := by
  refine { hg with inflight := fun k j hk => ?_ }
  obtain ⟨hmem, hkey⟩ := mem_filter.1 hk
  obtain ⟨hj, hbegun⟩ := hg.inflight k j hmem
  refine ⟨hj, fun f hf => ⟨?_, (hbegun f hf).2⟩⟩
  -- what is in flight for this thread has been dropped
  have hne : j ≠ i := by
    rintro rfl
    rw [ho k hmem] at hkey
    simp at hkey
  exact (mem_erase_of_ne hne).2 (hbegun f hf).1

theorem current_setRecord (hg : g.Current n)
    (hbegun : ∀ f, r.begun = some f → (g.records i).begun = some f ∨ i ∈ g.fetching ∧ f = g.epoch)
    (hsc : ∀ c, r.secret = some c → r.begun = some c.epoch) : (g.setRecord i r).Current n := by
  refine ⟨hg.positive, fun k j hk => ?_, fun j c hc => ?_⟩
  · obtain ⟨hj, hin⟩ := hg.inflight k j hk
    refine ⟨hj, fun f hf => ?_⟩
    rcases setRecord_cases hf with ⟨rfl, hr⟩ | ⟨-, hr⟩
    · exact (hbegun f hr).elim (hin f) id
    · exact hin f hr
  · rcases setRecord_cases hc with ⟨rfl, hr⟩ | ⟨hj, hr⟩
    · exact (congrArg _ (records_setRecord_self ..)).trans (hsc c hr)
    · exact (congrArg _ (records_setRecord_of_ne _ hj _)).trans (hg.records j c hr)

/-- A step of a thread keeps the invariant and what is said of the thread. -/
theorem Move.current (h : H.Move g i l response g' pc) (hi : i < n) (hg : g.Current n) (hl : l.Current g i)
    (hrule : l.flushes → g.fetching = []) : g'.Current n ∧ ({ l with pc } : SecretThread).Current g' i := by
  have hstd : l.started ≤ g'.epoch := hl.started.trans (h.later hrule).epoch
  have hpc := hl.pc
  cases h with
  | refuse => exact ⟨hg, hstd, nofun⟩
  | read hst =>
    rw [hst] at hpc
    exact ⟨hg, hstd, hpc⟩
  | disable => exact ⟨{ hg with }, hstd, trivial⟩
  | flush hfl =>
    refine ⟨⟨nofun, fun k j hk => ?_, hg.records⟩, hstd, nofun⟩
    obtain ⟨hj, hbegun⟩ := hg.inflight k j hk
    refine ⟨hj, fun f hf => ?_⟩
    -- no fetch that is in flight has begun
    have hmem := (hbegun f hf).1
    rw [hrule hfl] at hmem
    exact absurd hmem not_mem_nil
  | serve _ hkp hsr =>
    refine ⟨current_of_keeps hg hkp, hstd, fun c hc => ?_⟩
    obtain ⟨e, he, rfl, -⟩ := hsr c hc
    exact (hg.positive e he).symm ▸ hl.started
  | unknown _ hkp => exact ⟨current_of_keeps hg hkp, hstd, nofun⟩
  | attach _ hkp hld =>
    refine ⟨current_of_keeps hg hkp, hstd, fun f hf => ?_⟩
    rw [hkp.records] at hf
    exact ((hg.inflight _ _ hld).2 f hf).2 ▸ hl.started
  | lead hch hkp =>
    rw [hch] at hpc
    have hg' := current_setRecord (i := i) (r := {}) (current_of_keeps hg hkp) nofun fun _ hc => by cases hc
    refine ⟨{ hg' with inflight := fun k j hk => ?_ }, hstd, fun k hk => ?_, ?_⟩
    · rcases mem_cons.1 hk with hk | hk
      · cases hk
        refine ⟨hi, fun f hf => ?_⟩
        cases (congrArg InflightLookup.begun (records_setRecord_self ..)).symm.trans hf
      · exact hg'.inflight k j hk
    · rcases mem_cons.1 hk with hk | hk
      · exact congrArg Prod.fst hk
      · rw [hkp.inflight] at hk
        exact absurd hk (hpc k)
    · exact congrArg InflightLookup.secret (records_setRecord_self ..)
  | @handed leader _ hwt hout =>
    rw [hwt] at hpc
    exact ⟨hg, hstd, fun c hc => hpc c.epoch (hg.records leader c (hout c hc))⟩
  | rethrow => exact ⟨hg, hstd, trivial⟩
  | begin hftc =>
    rw [hftc] at hpc
    obtain ⟨ho, hsc⟩ := hpc
    have hg' : ({ g with fetching := i :: g.fetching } : SecretStorage).Current n := by
      refine { hg with inflight := fun k j hk => ?_ }
      obtain ⟨hj, hbegun⟩ := hg.inflight k j hk
      exact ⟨hj, fun f hf => ⟨mem_cons_of_mem _ (hbegun f hf).1, (hbegun f hf).2⟩⟩
    refine ⟨current_setRecord hg' (fun f hf => ?_) fun c hc => ?_, hstd, ho, mem_cons_self, ?_, ?_, rfl⟩
    · exact .inr ⟨mem_cons_self, (Option.some.inj hf).symm⟩
    · cases hsc.symm.trans hc
    · exact congrArg InflightLookup.begun (records_setRecord_self ..)
    · exact (congrArg InflightLookup.secret (records_setRecord_self ..)).trans hsc
  | complete hft =>
    rw [hft] at hpc
    obtain ⟨ho, hmem, hbegun, -, hep⟩ := hpc
    refine ⟨hg, hstd, ho, hmem, fun c hc => ?_⟩
    have hc : c.epoch = _ := epoch_of_fetched hc
    exact ⟨hc.trans hep, hc ▸ hbegun⟩
  | publish hpb hkp =>
    rw [hpb] at hpc
    obtain ⟨ho, -, hc⟩ := hpc
    have hg₁ := current_release hg ho
    refine ⟨?_, hstd, fun c hcr => ?_⟩
    · rcases hkp with hkp | ⟨key, c₀, ttl, rfl, -, hkp⟩
      · exact current_of_keeps hg₁ hkp
      · exact current_of_keeps (current_add hg₁ (hc c₀ rfl).1 key) hkp
    · obtain ⟨hep, hbegun⟩ := hc c hcr
      have hrc : g'.records = g.records := by
        rcases hkp with hkp | ⟨_, _, _, -, -, hkp⟩ <;> exact hkp.records
      exact ⟨hep ▸ hl.started, hrc ▸ hbegun⟩
  | settle hwk hbegun hsc hout =>
    rw [hwk] at hpc
    refine ⟨current_setRecord hg (fun f hf => .inl (hbegun ▸ hf)) fun c hc => ?_, hstd, ?_⟩
    · exact hbegun ▸ (hpc c (hsc.symm.trans hc)).2
    · rcases hout with rfl | ⟨out, rfl, hout⟩
      · trivial
      · exact fun c hc => (hpc c (hout c hc)).1
  | «return» han =>
    rw [han] at hpc
    exact ⟨hg, hstd, hpc⟩

theorem current_tick (hg : g.Current n) (elapsed : ℕ) : (g.tick elapsed).Current n := { hg with }

variable (H) in
theorem outline_current : H.threads.Outline flushAlone Current SecretThread.Current where
  spawn hg _ h := by
    cases h
    refine ⟨{ hg with inflight := fun k j hk => ?_ }, ⟨le_rfl, fun k hk => ?_⟩, fun _ _ _ => id⟩
    · obtain ⟨hj, hbegun⟩ := hg.inflight k j hk
      exact ⟨Nat.lt_succ_of_lt hj, hbegun⟩
    · exact lt_irrefl _ (hg.inflight k _ hk).1
  step {g n i l a g' l'} hg hi hl hrule h := by
    obtain ⟨pc, rfl, hmove⟩ := step_moves h
    -- time does not matter here
    have htick : ∀ j (m : SecretThread), m.Current g j → m.Current (g.tick a.elapsed) j := fun _ _ hm => { hm with }
    obtain ⟨hg', hl'⟩ := hmove.current hi (current_tick hg _) (htick i l hl) hrule
    exact ⟨hg', hl', fun j m hj hm => (htick j m hm).later hj (hmove.later hrule)⟩

/-- In every interleaving of calls in which no fetch is under way when the cache is flushed, a call that has returned
    has given out no credential whose fetch began before a flush that came before the call. -/
theorem given_out_current (H : SecretHost) (acts : SecretActs)
    {s : Threads.Config SecretStorage SecretThread} (hrule : H.threads.machine.Along flushAlone.At ⟨{}, []⟩ acts)
    (hrun : H.threads.machine.run ⟨{}, []⟩ acts = some s) {i : ℕ} {l : SecretThread} (hl : s.locals[i]? = some l)
    {out : List Credential} {cached : Option ℕ} {time : ℕ} (hdone : l.pc = .done out cached time) :
    ∀ c ∈ out, l.started ≤ c.epoch := by
  have hst : Threads.Config.Meets Current SecretThread.Current
      ⟨{}, []⟩ :=
    ⟨⟨nofun, nofun,
      nofun⟩, nofun⟩
  have hpc := (((outline_current H).run hst hrule hrun).locals i l hl).pc
  rw [hdone] at hpc
  exact hpc

/-! ## A fetch that outlives a flush -/

/-- The first secret with the path in its scope is chosen. -/
def firstMatch : SecretHost where
  select path cs := cs.find? fun x => x.2.scope.any (startsWith path)
  select_mem _ _ _ h := mem_of_find?_eq_some h
  defaultTtl := 300
  wallStart := 10 * nanos

/-- The service knows a secret. -/
def known : SecretResponse := ⟨true, ascii "s", [], 60, 0⟩

/-- A thread takes some steps. -/
def steps (i n : ℕ) : SecretActs :=
  List.replicate n (.step i { response := some known })

/-- A call is made. -/
def call (op : SecretOp) : SecretActs := [.spawn op]

def aLookup : SecretOp := .lookup (ascii "p") (ascii "t") false

/-- What a call has returned, from the cache for which time, and when; and how many flushes came before it. -/
def ended (acts : SecretActs) (i : ℕ) :
    Option (ℕ × List Credential × Option ℕ × ℕ) :=
  (firstMatch.threads.machine.run ⟨{}, []⟩ acts).bind fun s => s.locals[i]?.bind fun l =>
    match l.pc with
    | .done out cached time => some (l.started, out, cached, time)
    | _ => none

theorem done_of_ended {acts : SecretActs} {i started time : ℕ} {out : List Credential}
    {cached : Option ℕ} (h : ended acts i = some (started, out, cached, time)) : ∃ s l,
      firstMatch.threads.machine.run ⟨{}, []⟩ acts = some s ∧ s.locals[i]? = some l ∧
        l.pc = .done out cached time ∧ l.started = started := by
  obtain ⟨s, hs, h⟩ := Option.bind_eq_some_iff.1 h
  obtain ⟨l, hl, h⟩ := Option.bind_eq_some_iff.1 h
  split at h
  · next hpc =>
    cases h
    exact ⟨s, l, hs, hl, hpc, rfl⟩
  · cases h

/-- What a call has returned, and how many flushes came before it. -/
def returned (acts : SecretActs) (i : ℕ) : Option (ℕ × List Credential) :=
  (ended acts i).map fun x => (x.1, x.2.1)

/-- The secret, if its fetch began after so many flushes. -/
def issued (epoch : ℕ) : Credential := ⟨ascii "t", ascii "s", [[]], epoch, 0, 60, 0⟩

/-- A secret is fetched, the cache is flushed, and it is fetched again: this one is given out. -/
theorem firstMatch_current :
    let acts := call aLookup ++ steps 0 7 ++ call .flushCache ++ steps 1 2 ++ call aLookup ++ steps 2 7
    returned acts 0 = some (0, [issued 0]) ∧ returned acts 2 = some (1, [issued 1]) ∧
      ∀ c ∈ [issued 1], 1 ≤ c.epoch := by
  intro acts
  have hrt : returned acts 2 = some (1, [issued 1]) := by decide +kernel
  refine ⟨by decide +kernel, hrt, ?_⟩
  obtain ⟨⟨started, out, cached, time⟩, hen, hx⟩ := Option.map_eq_some_iff.1 hrt
  cases hx
  obtain ⟨s, l, hrun, hl, hdn, hst⟩ := done_of_ended hen
  have hcr := given_out_current firstMatch acts (by decide +kernel) hrun hl hdn
  rwa [hst] at hcr

/-- If the cache is flushed while a fetch is under way, then what was fetched is given out to a lookup
    that starts after the flush: from the cache, or because it waits for the fetch. It is also given
    out after a detach, to those who list the secrets or ask for one by its name. -/
theorem flush_outlived :
    returned (call aLookup ++ steps 0 3 ++ call .flushCache ++ steps 1 2 ++ steps 0 4 ++ call aLookup ++
      steps 2 3) 2 = some (1, [issued 0]) ∧
    returned (call aLookup ++ steps 0 3 ++ call .flushCache ++ steps 1 2 ++ call aLookup ++ steps 2 2 ++
      steps 0 3 ++ steps 2 2) 2 = some (1, [issued 0]) ∧
    returned (call aLookup ++ steps 0 3 ++ call .deactivate ++ steps 1 3 ++ steps 0 4 ++
      call .allSecrets ++ steps 2 2) 2 = some (1, [issued 0]) ∧
    returned (call aLookup ++ steps 0 3 ++ call .deactivate ++ steps 1 3 ++ steps 0 4 ++
      call (.getSecretByName (ascii "s")) ++ steps 2 2) 2 = some (1, [issued 0]) ∧ (issued 0).epoch < 1 := by
  refine ⟨?_, ?_, ?_, ?_, ?_⟩
  all_goals decide +kernel

end SecretHost

/-! ## One fetch for a key -/

/-- The call is the leader for what it looks up. -/
def SecretPc.leads : SecretPc → Bool
  | .fetch _ | .fetching _ _ | .publish _ _ => true
  | _ => false

def SecretThread.Registered (g : SecretStorage) (i : ℕ) (l : SecretThread) : Prop :=
  l.pc.leads → (l.op.key, i) ∈ g.inflight

/-- No key is in flight twice. -/
def SecretStorage.Apart (_ : ℕ) (g : SecretStorage) : Prop := (g.inflight.map (·.1)).Nodup

theorem SecretStorage.Apart.eq {n i j : ℕ} {g : SecretStorage} (hg : g.Apart n) {k : SecretKey}
    (hi : (k, i) ∈ g.inflight) (hj : (k, j) ∈ g.inflight) : i = j :=
  congrArg Prod.snd (inj_on_of_nodup_map hg hi hj rfl)

namespace SecretHost

open SecretStorage

variable {H : SecretHost} {g g' : SecretStorage} {i : ℕ} {l : SecretThread}

/-- Who becomes the leader has found nobody else in flight. -/
theorem lookup_of_lead {now now' : ℕ} {a : SecretInput} (hpc : l.pc = .check now)
    (h : H.threads.step g i l a = some (g', { l with pc := .fetch now' })) : g.inflight.lookup l.op.key = none := by
  obtain ⟨⟨g₁, pc⟩, hact, heq⟩ := Option.map_eq_some_iff.1 h
  obtain rfl : pc = .fetch now' := congrArg (·.2.pc) heq
  rcases hop : l.op with ⟨path, type, nested⟩ | _ | _ | _ | _ <;> simp only [act, hpc, hop, reduceCtorEq] at hact
  have hlk := congrArg Prod.snd (Option.some.inj hact)
  rw [lookupCached] at hlk
  split at hlk
  · cases hlk
  split_ifs at hlk
  split at hlk
  · cases hlk
  · assumption

variable (H) in
theorem outline_apart : H.threads.Outline {} Apart SecretThread.Registered where
  spawn hg _ h := by
    cases h
    exact ⟨hg, nofun, fun _ _ _ => id⟩
  step {g n i l a g' l'} hg _ hl _ h := by
    obtain ⟨pc, rfl, hmove⟩ := step_moves h
    have hsame (heq : g'.inflight = g.inflight) (hpc : pc.leads → l.pc.leads) : g'.Apart n ∧
        SecretThread.Registered g' i { l with pc } ∧ ∀ j (m : SecretThread), j ≠ i →
          m.Registered g j → m.Registered g' j := by
      simp only [Apart, SecretThread.Registered, heq]
      exact ⟨hg, fun hp => hl (hpc hp), fun _ _ _ => id⟩
    cases hmove with
    | serve _ hkp | unknown _ hkp | attach _ hkp => exact hsame hkp.inflight nofun
    | begin hpc | complete hpc => exact hsame rfl fun _ => hpc ▸ rfl
    | settle _ _ _ hout => exact hsame rfl (by rcases hout with rfl | ⟨_, rfl, -⟩ <;> exact nofun)
    | lead hch hkp =>
      simp only [Apart, SecretThread.Registered, register, setRecord, hkp.inflight]
      refine ⟨nodup_cons.2 ⟨fun hk => ?_, hg⟩, fun _ => mem_cons_self, fun _ _ _ hm hp => mem_cons_of_mem _ (hm hp)⟩
      obtain ⟨e, he, hk⟩ := List.mem_map.1 hk
      exact absurd (lookup_eq_none_iff.1 (lookup_of_lead hch h) e he) (by simp [hk])
    | publish hpc hkp =>
      have heq : g'.inflight = g.inflight.filter (·.1 ≠ l.op.key) := by
        rcases hkp with hkp | ⟨_, _, _, -, -, hkp⟩ <;> exact hkp.inflight
      simp only [Apart, SecretThread.Registered, heq]
      refine ⟨(filter_sublist.map _).nodup hg, nofun, fun j m hj hm hp => ?_⟩
      -- another leader has another key
      refine mem_filter.2 ⟨hm hp, decide_eq_true fun hk => hj (hg.eq (hm hp) ?_)⟩
      rw [show m.op.key = l.op.key from hk]
      exact hl (hpc ▸ rfl)
    | _ => exact hsame rfl nofun

/-- In every interleaving of calls, a key is fetched by one call at a time. -/
theorem fetches_apart (H : SecretHost) (acts : SecretActs)
    {s : Threads.Config SecretStorage SecretThread} (hrun : H.threads.machine.run ⟨{}, []⟩ acts = some s) {i j : ℕ}
    {l m : SecretThread} (hl : s.locals[i]? = some l) (hm : s.locals[j]? = some m) (hlead : l.pc.leads)
    (hlead' : m.pc.leads) (hne : i ≠ j) : l.op.key ≠ m.op.key := by
  have hst : Threads.Config.Meets Apart SecretThread.Registered ⟨{}, []⟩ := ⟨nodup_nil, nofun⟩
  have hs := (outline_apart H).run hst (Machine.along_of_forall Threads.Rule.at_any _ _) hrun
  intro hkey
  exact hne (hs.shared.eq (hkey ▸ hs.locals i l hl hlead) (hs.locals j m hm hlead'))

/-- Two secrets are fetched at once, while a third call waits for the first. -/
theorem two_fetches_apart : ∃ acts s l m, firstMatch.threads.machine.run ⟨{}, []⟩ acts = some s ∧
    s.locals[0]? = some l ∧ s.locals[1]? = some m ∧ l.pc.leads ∧ m.pc.leads ∧ l.op.key ≠ m.op.key := by
  have hls : (firstMatch.threads.machine.run ⟨{}, []⟩ (call aLookup ++ steps 0 3 ++
      call (.lookup [] (ascii "t") false) ++ steps 1 3 ++ call aLookup ++ steps 2 2)).map
        (fun s => s.locals.map (·.pc.leads)) = some [true, true, false] := by decide +kernel
  obtain ⟨⟨g, ls⟩, hrun, hls⟩ := Option.map_eq_some_iff.1 hls
  obtain ⟨l, ls, rfl, hl, hls⟩ := map_eq_cons_iff.1 hls
  obtain ⟨m, ls, rfl, hm, -⟩ := map_eq_cons_iff.1 hls
  exact ⟨_, _, l, m, hrun, rfl, rfl, hl, hm, fetches_apart firstMatch _ hrun (i := 0) (j := 1) rfl rfl hl hm nofun⟩

end SecretHost

end Vgi
