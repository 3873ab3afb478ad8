import Vgi.Lib.Bytes
import Vgi.Lib.Machine

/-!
# The buffered sink

A buffered table function, and `COPY ... TO`, absorb their input over several workers: each local state has a worker of
its own and hands it each chunk; the worker answers with the id of the state that the chunk went to. When a local state
is done, its worker and the id go to the global state; in the end one worker is told to combine the states of these ids.
`COPY ... TO` gives workers that are handed over to later local states.

* `Inv`: the id that goes with a worker is the last one that it returned;
* `mem_combined`: so the ids to combine are the last ones of the workers;
* `combined_complete_iff`: all returned ids are among them iff each is the last one of some worker.
-/

namespace Vgi.BufferedSink

open List Option

variable {β : Type} (op : Operator)

/-! ## The model -/

/-- Which operator sinks: `PhysicalVgiTableBufferingFunction` or the callbacks of `COPY`. -/
inductive Operator
  | tableBuffering
  | copyTo
deriving DecidableEq

inductive SinkError
  | sinkAfterFinalize
  | peerInit (error : Bytes)
  | worker (error : Bytes)
  | missingInitWorker
deriving DecidableEq

/-- How far the init is that gives the execution its id. -/
inductive InitStatus
  | idle
  | started
  | done (executionId : Bytes)
  | failed (error : Bytes)
deriving DecidableEq

/-- Where the thread of a local state is. -/
inductive Turn
  /-- Between two calls. -/
  | ready
  | initRunner
  | waiting
  | initSecondary (executionId : Bytes)
  | processing
  /-- A call has thrown. -/
  | thrown
deriving DecidableEq

/-- The thread is about to have a worker. -/
def Turn.connecting : Turn → Bool
  | .initRunner | .waiting | .initSecondary _ => true
  | .ready | .processing | .thrown => false

/-- A local state. The connections are numbered. -/
structure LocalState where
  connection : Option ℕ := none
  stateId : Bytes := []
  turn : Turn := .ready
deriving DecidableEq

/-- What a worker returned for a chunk. -/
structure Reply (β : Type) where
  connection : ℕ
  stateId : Bytes
  batch : β

structure World (β : Type) where
  status : InitStatus := .idle
  initWorker : Option ℕ := none
  workers : List ℕ := []
  stateIds : List Bytes := []
  locals : List LocalState := []
  finalized : Bool := false
  /-- How many connections there were. -/
  connections : ℕ := 0
  error : Option SinkError := none
  /-- The replies of the workers, in their order. -/
  returned : List (Reply β) := []
  /-- What was passed to `table_buffering_combine`. -/
  combined : Option (List Bytes) := none

open World

variable (w : World β)

variable (i : ℕ)

namespace World

variable (w : World β) (l : LocalState)

def setLocal : World β := { w with locals := w.locals.set i l }

/-- The call of a local state throws. -/
def throwing (e : SinkError) : World β :=
  { w.setLocal i { l with turn := .thrown } with error := some e }

/-- A call of `Sink` begins: a local state without a worker has to get one. -/
def beginSink : Option (World β) :=
  if l.connection.isSome then some (w.setLocal i { l with turn := .processing })
  else
    match op, w.status with
    | .tableBuffering, .done executionId => some (w.setLocal i { l with turn := .initSecondary executionId })
    -- the first to arrive runs the init
    | .tableBuffering, .idle => some { w.setLocal i { l with turn := .initRunner } with status := .started }
    | .tableBuffering, _ => some (w.setLocal i { l with turn := .waiting })
    | .copyTo, .done executionId =>
      match w.workers.getLast?, w.stateIds.getLast? with
      -- a worker that was handed over, with the id it came with
      | some c, some stateId =>
        some { w.setLocal i { connection := some c, stateId, turn := .processing } with
          workers := w.workers.dropLast, stateIds := w.stateIds.dropLast }
      | _, _ => some (w.setLocal i { l with turn := .initSecondary executionId })
    | .copyTo, _ => none

/-- A thread that waits for the init looks again. -/
def wake : Option (World β) :=
  match w.status with
  | .done executionId => some (w.setLocal i { l with turn := .initSecondary executionId })
  | .failed e => some (w.throwing i l (.peerInit e))
  | _ => none

/-- The init on a new worker has ended. -/
def endInit (reply : Except Bytes Bytes) : Option (World β) :=
  let connected : World β :=
    { w.setLocal i { l with connection := some w.connections, turn := .processing } with
      connections := w.connections + 1 }
  match l.turn, reply with
  | .initRunner, .ok executionId => some { connected with status := .done executionId }
  | .initRunner, .error e => some { w.throwing i l (.worker e) with status := .failed e }
  | .initSecondary _, .ok _ => some connected
  | .initSecondary _, .error e => some (w.throwing i l (.worker e))
  | _, _ => none

/-- The worker has answered a `table_buffering_process`. The call keeps one id. -/
def process (c : ℕ) (batch : β) : Except Bytes Bytes → World β
  | .ok stateId =>
    { w.setLocal i { l with stateId, turn := .ready } with
      returned := w.returned ++ [{ connection := c, stateId, batch }] }
  | .error e => w.throwing i l (.worker e)

/-- Hand the worker of a local state over. -/
def combine : World β :=
  match l.connection with
  -- no input
  | none => w
  | some c =>
    { w.setLocal i { l with connection := none } with
      workers := w.workers ++ [c], stateIds := w.stateIds ++ [l.stateId] }

/-- Combine the states. `served` is whether the result is in the cache, `init` the init of a
    worker for an input without rows. -/
def finalize (served : Bool) (init : Except Bytes Bytes) : World β :=
  match op with
  | .tableBuffering =>
    if served then { w with finalized := true }
    else if w.workers.isEmpty then
      match init with
      | .ok executionId =>
        { w with status := .done executionId, connections := w.connections + 1
                 combined := some [], finalized := true }
      | .error e => { w with error := some (.worker e), finalized := true }
    else { w with combined := some w.stateIds, finalized := true }
  | .copyTo =>
    match w.initWorker with
    | none => { w with error := some .missingInitWorker }
    | some _ =>
      { w with initWorker := none, workers := [], stateIds := []
               combined := some w.stateIds, finalized := true }

/-- When the engine calls `Finalize`: no call has thrown, and `Combine` was called for each local state. -/
abbrev Settled : Prop :=
  w.error = none ∧ ∀ l ∈ w.locals, l.turn = .ready ∧ l.connection = none

end World

/-- What the threads do, with the answers of the workers. -/
inductive Action (β : Type)
  /-- `initialize_global` of `COPY`. -/
  | initializeGlobal (reply : Except Bytes Bytes)
  | initializeLocal
  | sink (i : ℕ)
  | wake (i : ℕ)
  | endInit (i : ℕ) (reply : Except Bytes Bytes)
  | process (i : ℕ) (batch : β) (reply : Except Bytes Bytes)
  | combine (i : ℕ)
  | finalize (served : Bool) (init : Except Bytes Bytes)

/-- A local state where its thread is at this point. -/
def World.at (turn : Turn → Bool) : Option LocalState :=
  w.locals[i]?.filter fun l => turn l.turn

def step : Action β → Option (World β)
  | .initializeGlobal reply =>
    if op = .copyTo ∧ w.status = .idle then
      match reply with
      | .ok executionId =>
        some { w with
          status := .done executionId, initWorker := some w.connections, connections := w.connections + 1 }
      | .error e => some { w with status := .failed e, error := some (.worker e) }
    else none
  | .initializeLocal => some { w with locals := w.locals ++ [{}] }
  | .sink i => do
    let l ← w.at i (· = .ready)
    if w.finalized then
      if op = .tableBuffering then return w.throwing i l .sinkAfterFinalize else none
    else w.beginSink op i l
  | .wake i => do
    let l ← w.at i (· = .waiting)
    w.wake i l
  | .endInit i reply => do
    let l ← w.locals[i]?
    w.endInit i l reply
  | .process i batch reply => do
    let l ← w.at i (· = .processing)
    let c ← l.connection
    return w.process i l c batch reply
  | .combine i => do
    let l ← w.at i (· = .ready)
    return w.combine i l
  | .finalize served init =>
    if w.Settled ∧ w.finalized = false then some (w.finalize op served init) else none

def machine : Machine (World β) (Action β) := ⟨step op⟩

/-! ## The last ids of the workers -/

/-- The last id that the worker of a connection returned. -/
def lastReply (returned : List (Reply β)) (c : ℕ) : Option Bytes :=
  ((returned.filter fun r => r.connection = c).getLast?).map (·.stateId)

theorem lastReply_append_self (returned : List (Reply β)) (r : Reply β) :
    lastReply (returned ++ [r]) r.connection = some r.stateId := by
  rw [lastReply, filter_append, filter_singleton, decide_eq_true rfl, cond_true, getLast?_concat]
  rfl

variable {returned : List (Reply β)} {c : ℕ}

theorem lastReply_append_ne {r : Reply β} (h : r.connection ≠ c) :
    lastReply (returned ++ [r]) c = lastReply returned c := by
  rw [lastReply, filter_append, filter_singleton, decide_eq_false h, cond_false, append_nil, lastReply]

theorem exists_reply {stateId : Bytes} (h : lastReply returned c = some stateId) :
    ∃ r ∈ returned, r.connection = c ∧ r.stateId = stateId := by
  obtain ⟨r, hr, rfl⟩ := map_eq_some_iff.1 h
  obtain ⟨hmem, hc⟩ := mem_filter.1 (mem_of_getLast? hr)
  exact ⟨r, hmem, of_decide_eq_true hc, rfl⟩

/-! ## The invariant -/

/-- The local state `i` has the connection `c`. -/
def World.Has (i c : ℕ) : Prop := ∃ l, w.locals[i]? = some l ∧ l.connection = some c

structure Inv (w : World β) : Prop where
  /-- A worker that was handed over came with its last id. -/
  parked : w.workers.map (lastReply w.returned) = w.stateIds.map some
  /-- So does one that a local state has, between two calls. -/
  current : ∀ (i : ℕ) (l : LocalState) (c : ℕ), w.locals[i]? = some l → l.turn = .ready →
    l.connection = some c → lastReply w.returned c = some l.stateId
  connecting : ∀ (i : ℕ) (l : LocalState), w.locals[i]? = some l → l.turn.connecting = true →
    l.connection = none ∧ w.finalized = false
  workers_nodup : w.workers.Nodup
  not_parked : ∀ i c, w.Has i c → c ∉ w.workers
  not_shared : ∀ i j c, w.Has i c → w.Has j c → i = j
  workers_lt : ∀ c ∈ w.workers, c < w.connections
  has_lt : ∀ i c, w.Has i c → c < w.connections
  /-- No worker that has absorbed something is lost. -/
  owned : w.finalized = false → ∀ r ∈ w.returned, r.connection ∈ w.workers ∨ ∃ i, w.Has i r.connection
  finished : w.finalized = true → ∀ i c, ¬ w.Has i c
  combined : ∀ ids, w.combined = some ids →
    w.finalized = true ∧ ∀ id, id ∈ ids ↔ ∃ c, lastReply w.returned c = some id

theorem inv_start : Inv ({} : World β) where
  parked := rfl
  current := by
    intro i l c hl
    cases hl
  connecting := by
    intro i l hl
    cases hl
  workers_nodup := nodup_nil
  not_parked := fun _ _ _ => not_mem_nil
  not_shared := by
    rintro i j c ⟨l, hl, -⟩
    cases hl
  workers_lt := nofun
  has_lt := by
    rintro i c ⟨l, hl, -⟩
    cases hl
  owned := nofun
  finished := nofun
  combined := fun _ h => nomatch h

section Locals

variable {w : World β} {i : ℕ} {l : LocalState}

section

variable (hl : w.locals[i]? = some l)

include hl

theorem World.locals_setLocal {l' l₁ : LocalState} {j : ℕ} :
    (w.setLocal i l').locals[j]? = some l₁ ↔ i = j ∧ l' = l₁ ∨ i ≠ j ∧ w.locals[j]? = some l₁ := by
  have hlt := (List.getElem?_eq_some_iff.1 hl).1
  rw [setLocal]
  rw [getElem?_set]
  split_ifs with hij <;> simp [hij]

theorem World.has_iff (c : ℕ) : w.Has i c ↔ l.connection = some c := by
  simp [Has, hl]

/-- The connections after a local state has been replaced. -/
theorem World.has_setLocal (l' : LocalState) (j c : ℕ) :
    (w.setLocal i l').Has j c ↔ i = j ∧ l'.connection = some c ∨ i ≠ j ∧ w.Has j c := by
  simp only [Has, locals_setLocal hl, or_and_right, exists_or, and_assoc, exists_and_left, exists_eq_left']

/-- A local state that keeps its connection. -/
theorem World.has_setLocal_same (l' : LocalState)
    (hcn : l'.connection = l.connection) (j c : ℕ) : (w.setLocal i l').Has j c ↔ w.Has j c := by
  rw [has_setLocal hl, hcn]
  rcases eq_or_ne i j with rfl | hne
  · simp [has_iff hl]
  · simp [hne]

end

theorem World.Settled.not_has (h : w.Settled) (j c : ℕ) : ¬ w.Has j c := by
  rintro ⟨l₁, hl₁, hc⟩
  cases (h.2 l₁ (mem_of_getElem? hl₁)).2.symm.trans hc

end Locals

namespace Inv

variable {w : World β} {i : ℕ} {l : LocalState}

section

variable (h : Inv w) (hl : w.locals[i]? = some l)

include h hl

/-- A local state that keeps its connection and is not back from a call. -/
theorem move (l' : LocalState) (hcon : l'.connection = l.connection)
    (htr : l'.turn ≠ .ready) (hcn : l'.turn.connecting = true → l.connection = none ∧ w.finalized = false) :
    Inv (w.setLocal i l') := by
  have hsm (j c : ℕ) := has_setLocal_same hl l' hcon j c
  refine { h with
    current := ?_
    connecting := ?_
    not_parked := fun j c hc => h.not_parked j c ((hsm j c).1 hc)
    not_shared := fun j k c hj hk => h.not_shared j k c ((hsm j c).1 hj) ((hsm k c).1 hk)
    has_lt := fun j c hc => h.has_lt j c ((hsm j c).1 hc)
    owned := fun hfin r hr => (h.owned hfin r hr).imp_right fun ⟨j, hj⟩ => ⟨j, (hsm j _).2 hj⟩
    finished := fun hfin j c hc => h.finished hfin j c ((hsm j c).1 hc) }
  · intro j l₁ c hl₁ hrd hc
    rcases (locals_setLocal hl).1 hl₁ with ⟨-, rfl⟩ | ⟨-, hl₁⟩
    · exact absurd hrd htr
    · exact h.current j l₁ c hl₁ hrd hc
  · intro j l₁ hl₁ htr₁
    rcases (locals_setLocal hl).1 hl₁ with ⟨-, rfl⟩ | ⟨-, hl₁⟩
    · exact ⟨hcon.trans (hcn htr₁).1, (hcn htr₁).2⟩
    · exact h.connecting j l₁ hl₁ htr₁

section

variable (hnone : l.connection = none) (hfin : w.finalized = false)

include hnone hfin

/-- A local state without a connection gets one that nobody has. -/
theorem give {l' : LocalState} {c₀ : ℕ} (hcn : l'.connection = some c₀) (htr : l'.turn = .processing)
    {workers : List ℕ} {stateIds : List Bytes} {connections : ℕ}
    (hpr : workers.map (lastReply w.returned) = stateIds.map some) (hsub : ∀ c ∈ workers, c ∈ w.workers)
    (hcv : ∀ c ∈ w.workers, c ∈ workers ∨ c = c₀) (hnd : workers.Nodup) (hc₀ : c₀ ∉ workers)
    (hun : ∀ j, ¬ w.Has j c₀) (hlt : c₀ < connections) (hle : w.connections ≤ connections) :
    Inv { w.setLocal i l' with workers, stateIds, connections } where
  parked := hpr
  current := by
    intro j l₁ c hl₁ hrd hc
    rcases (locals_setLocal hl).1 hl₁ with ⟨-, rfl⟩ | ⟨-, hl₁⟩
    · cases htr.symm.trans hrd
    · exact h.current j l₁ c hl₁ hrd hc
  connecting := by
    intro j l₁ hl₁ htr₁
    rcases (locals_setLocal hl).1 hl₁ with ⟨-, rfl⟩ | ⟨-, hl₁⟩
    · rw [htr] at htr₁
      cases htr₁
    · exact h.connecting j l₁ hl₁ htr₁
  workers_nodup := hnd
  not_parked := by
    intro j c hc
    rcases (has_setLocal hl l' j c).1 hc with ⟨-, hsm⟩ | ⟨-, hj⟩
    · cases hcn.symm.trans hsm
      exact hc₀
    · exact fun hmem => h.not_parked j c hj (hsub c hmem)
  not_shared := by
    intro j k c hj hk
    rcases (has_setLocal hl l' j c).1 hj with ⟨rfl, hsm⟩ | ⟨-, hj⟩ <;>
      rcases (has_setLocal hl l' k c).1 hk with ⟨rfl, hsm'⟩ | ⟨-, hk⟩
    · rfl
    · cases hcn.symm.trans hsm
      exact absurd hk (hun k)
    · cases hcn.symm.trans hsm'
      exact absurd hj (hun j)
    · exact h.not_shared j k c hj hk
  workers_lt := fun c hc => (h.workers_lt c (hsub c hc)).trans_le hle
  has_lt := by
    intro j c hc
    rcases (has_setLocal hl l' j c).1 hc with ⟨-, hsm⟩ | ⟨-, hj⟩
    · cases hcn.symm.trans hsm
      exact hlt
    · exact (h.has_lt j c hj).trans_le hle
  owned := by
    intro _ r hr
    rcases h.owned hfin r hr with hmem | ⟨j, hj⟩
    · rcases hcv _ hmem with hmem | heq
      · exact .inl hmem
      · exact .inr ⟨i, (has_setLocal hl l' i _).2 (.inl ⟨rfl, heq ▸ hcn⟩)⟩
    · have hne : i ≠ j := by
        rintro rfl
        cases hnone.symm.trans ((has_iff hl _).1 hj)
      exact .inr ⟨j, (has_setLocal hl l' j _).2 (.inr ⟨hne, hj⟩)⟩
  finished := fun hfin' => absurd (hfin.symm.trans hfin') Bool.noConfusion
  combined := fun ids hid => absurd (hfin.symm.trans (h.combined ids hid).1) Bool.noConfusion

/-- A worker that was just started is nobody's. -/
theorem connect :
    Inv { w.setLocal i { l with connection := some w.connections, turn := .processing } with
      connections := w.connections + 1 } :=
  h.give hl hnone hfin rfl rfl h.parked (fun _ hc => hc) (fun _ hc => .inl hc)
    h.workers_nodup (fun hmem => (h.workers_lt _ hmem).false) (fun j hj => (h.has_lt j _ hj).false)
    (Nat.lt_succ_self _) (Nat.le_succ _)

/-- A worker that was handed over is taken again, with its id. -/
theorem reuse (hc : w.workers.getLast? = some c) (stateId : Bytes) :
    Inv { w.setLocal i { connection := some c, stateId, turn := .processing } with
      workers := w.workers.dropLast, stateIds := w.stateIds.dropLast } := by
  have hsp : w.workers = w.workers.dropLast ++ [c] := (dropLast_append_getLast? c hc).symm
  have hmem : c ∈ w.workers := mem_of_getLast? hc
  have hnd := h.workers_nodup
  rw [hsp, nodup_append'] at hnd
  refine h.give hl hnone hfin rfl rfl ?_ (fun _ hd => mem_of_mem_dropLast hd) ?_
    hnd.1 (fun hd => hnd.2.2 hd (mem_singleton_self c)) (fun j hj => h.not_parked j c hj hmem)
    (h.workers_lt c hmem) le_rfl
  · rw [map_dropLast, h.parked, map_dropLast]
  · intro d hd
    rw [hsp] at hd
    exact (mem_append.1 hd).imp_right mem_singleton.1

end

/-- The worker of a local state returns an id, and the local state takes note of it. -/
theorem process (hc : l.connection = some c) (stateId : Bytes) (batch : β) :
    Inv { w.setLocal i { l with stateId, turn := .ready } with
      returned := w.returned ++ [{ connection := c, stateId, batch }] } := by
  have hhs : w.Has i c := ⟨l, hl, hc⟩
  have hsm (j d : ℕ) : Has (w.setLocal i { l with stateId, turn := .ready }) j d ↔ w.Has j d :=
    has_setLocal_same hl { l with stateId, turn := .ready } rfl j d
  refine ⟨?_, ?_, ?_, h.workers_nodup, fun j d hd => h.not_parked j d ((hsm j d).1 hd),
    fun j k d hj hk => h.not_shared j k d ((hsm j d).1 hj) ((hsm k d).1 hk), h.workers_lt,
    fun j d hd => h.has_lt j d ((hsm j d).1 hd), ?_, fun hfin => absurd hhs (h.finished hfin i c), ?_⟩
  · change w.workers.map (lastReply (w.returned ++ [_])) = w.stateIds.map some
    rw [← h.parked]
    refine map_congr_left fun d hd => lastReply_append_ne ?_
    rintro rfl
    exact h.not_parked i c hhs hd
  · intro j l₁ d hl₁ hrd hd
    rcases (locals_setLocal hl).1 hl₁ with ⟨-, rfl⟩ | ⟨hij, hl₁⟩
    · cases hc.symm.trans hd
      exact lastReply_append_self _ _
    · -- another local state has another worker
      refine (lastReply_append_ne ?_).trans (h.current j l₁ d hl₁ hrd hd)
      rintro rfl
      exact hij (h.not_shared i j c hhs ⟨l₁, hl₁, hd⟩)
  · intro j l₁ hl₁ htr
    rcases (locals_setLocal hl).1 hl₁ with ⟨-, rfl⟩ | ⟨-, hl₁⟩
    · cases htr
    · exact h.connecting j l₁ hl₁ htr
  · intro hfin r hr
    rcases mem_append.1 hr with hr | hr
    · exact (h.owned hfin r hr).imp_right fun ⟨j, hj⟩ => ⟨j, (hsm j _).2 hj⟩
    · cases mem_singleton.1 hr
      exact .inr ⟨i, (hsm i c).2 hhs⟩
  · intro ids hid
    exact absurd hhs (h.finished (h.combined ids hid).1 i c)

/-- The worker of a local state is handed over. -/
theorem combine (hrd : l.turn = .ready) : Inv (w.combine i l) := by
  rw [World.combine]
  rcases hc : l.connection with _ | c
  · exact h
  have hhs : w.Has i c := ⟨l, hl, hc⟩
  have hot {j d : ℕ} (hd : (w.setLocal i { l with connection := none }).Has j d) : i ≠ j ∧ w.Has j d :=
    ((World.has_setLocal hl _ j d).1 hd).resolve_left nofun
  refine ⟨?_, ?_, ?_, ?_, ?_, fun j k d hj hk => h.not_shared j k d (hot hj).2 (hot hk).2, ?_,
    fun j d hd => h.has_lt j d (hot hd).2, ?_, fun hfin => absurd hhs (h.finished hfin i c), h.combined⟩
  · change (w.workers ++ [c]).map (lastReply w.returned) = (w.stateIds ++ [l.stateId]).map some
    rw [map_append, h.parked, map_append, map_singleton, h.current i l c hl hrd hc, map_singleton]
  · intro j l₁ d hl₁ hrd₁ hd
    rcases (World.locals_setLocal hl).1 hl₁ with ⟨-, rfl⟩ | ⟨-, hl₁⟩
    · cases hd
    · exact h.current j l₁ d hl₁ hrd₁ hd
  · intro j l₁ hl₁ htr
    rcases (World.locals_setLocal hl).1 hl₁ with ⟨-, rfl⟩ | ⟨-, hl₁⟩
    · rw [hrd] at htr
      cases htr
    · exact h.connecting j l₁ hl₁ htr
  · exact nodup_append'.2 ⟨h.workers_nodup, nodup_singleton c, by
      rw [disjoint_singleton]
      exact h.not_parked i c hhs⟩
  · intro j d hd hmem
    obtain ⟨hne, hj⟩ := hot hd
    rcases mem_append.1 hmem with hmem | hmem
    · exact h.not_parked j d hj hmem
    · cases mem_singleton.1 hmem
      exact hne (h.not_shared i j c hhs hj)
  · intro d hd
    rcases mem_append.1 hd with hd | hd
    · exact h.workers_lt d hd
    · cases mem_singleton.1 hd
      exact h.has_lt i c hhs
  · intro hfin r hr
    rcases h.owned hfin r hr with hmem | ⟨j, hj⟩
    · exact .inl (mem_append_left _ hmem)
    · rcases eq_or_ne i j with rfl | hne
      · cases hc.symm.trans ((World.has_iff hl _).1 hj)
        exact .inl (mem_append_right _ (mem_singleton_self _))
      · exact .inr ⟨j, (World.has_setLocal hl _ j _).2 (.inr ⟨hne, hj⟩)⟩

end

section

variable (h : Inv w)

include h

/-- When all workers have been handed over, the ids are the last ones of the workers. -/
theorem mem_stateIds (hfin : w.finalized = false) (hst : w.Settled) (id : Bytes) :
    id ∈ w.stateIds ↔ ∃ c, lastReply w.returned c = some id := by
  have hmem : id ∈ w.stateIds ↔ ∃ c ∈ w.workers, lastReply w.returned c = some id := by
    rw [← List.mem_map, h.parked, List.mem_map]
    exact ⟨fun hid => ⟨id, hid, rfl⟩, fun ⟨_, hid, heq⟩ => some.inj heq ▸ hid⟩
  rw [hmem]
  constructor
  · rintro ⟨c, -, hc⟩
    exact ⟨c, hc⟩
  · rintro ⟨c, hc⟩
    obtain ⟨r, hr, rfl, -⟩ := exists_reply hc
    exact ⟨r.connection, (h.owned hfin r hr).resolve_right fun ⟨i, hi⟩ => hst.not_has i _ hi, hc⟩

variable {w' : World β}

/-- Only the end of the work changes. -/
theorem finish (hst : w.Settled)
    (hcm : ∀ ids, w'.combined = some ids → ∀ id, id ∈ ids ↔ ∃ c, lastReply w.returned c = some id)
    (hpr : w'.workers = w.workers ∧ w'.stateIds = w.stateIds ∨ w'.workers = [] ∧ w'.stateIds = [] := by
      exact .inl ⟨rfl, rfl⟩)
    (hcn : w.connections ≤ w'.connections := by exact le_rfl) (hwl : w'.locals = w.locals := by rfl)
    (hrt : w'.returned = w.returned := by rfl) (hfin : w'.finalized = true := by rfl) : Inv w' := by
  have hnone (i c : ℕ) : ¬ w'.Has i c := by
    rw [Has, hwl]
    exact hst.not_has i c
  have hwr {c : ℕ} (hc : c ∈ w'.workers) : c ∈ w.workers := by
    rcases hpr with ⟨hsm, -⟩ | ⟨hnil, -⟩
    · exact hsm ▸ hc
    · rw [hnil] at hc
      exact absurd hc not_mem_nil
  refine ⟨?_, ?_, ?_, ?_, fun i c hc => absurd hc (hnone i c), fun i j c hc => absurd hc (hnone i c),
    fun c hc => (h.workers_lt c (hwr hc)).trans_le hcn, fun i c hc => absurd hc (hnone i c),
    fun hfin' => absurd (hfin.symm.trans hfin') Bool.noConfusion, fun _ => hnone, fun ids hid => ⟨hfin, ?_⟩⟩
  · rcases hpr with ⟨hw, hs⟩ | ⟨hw, hs⟩
    · rw [hw, hs, hrt, h.parked]
    · rw [hw, hs]
      rfl
  · intro i l c hl _ hc
    exact absurd ⟨l, hl, hc⟩ (hnone i c)
  · intro i l hl htr
    rw [(hst.2 l (mem_of_getElem? (hwl ▸ hl))).1] at htr
    cases htr
  · rcases hpr with ⟨hw, -⟩ | ⟨hw, -⟩
    · exact hw ▸ h.workers_nodup
    · exact hw ▸ nodup_nil
  · rw [hrt]
    exact hcm ids hid

/-- The state of the init, the errors and further workers do not matter. -/
theorem other (status : InitStatus) (initWorker : Option ℕ) (error : Option SinkError) {connections : ℕ}
    (hle : w.connections ≤ connections) : Inv { w with status, initWorker, error, connections } :=
  { h with
    workers_lt := fun c hc => (h.workers_lt c hc).trans_le hle
    has_lt := fun i c hc => (h.has_lt i c hc).trans_le hle }

theorem throwing (hl : w.locals[i]? = some l) (e : SinkError) (status : InitStatus) :
    Inv { w.throwing i l e with status } :=
  (h.move hl { l with turn := .thrown } rfl Turn.noConfusion Bool.noConfusion).other status w.initWorker (some e) le_rfl

theorem initializeLocal : Inv { w with locals := w.locals ++ [{}] } := by
  have hold {j : ℕ} {l₁ : LocalState} (hl₁ : (w.locals ++ [({} : LocalState)])[j]? = some l₁) :
      w.locals[j]? = some l₁ ∨ l₁ = {} := by
    rcases Nat.lt_or_ge j w.locals.length with hlt | hge
    · exact .inl (getElem?_append_left hlt ▸ hl₁)
    · rw [getElem?_append_right hge, getElem?_singleton] at hl₁
      split_ifs at hl₁
      exact .inr (some.inj hl₁).symm
  have hhs {j c : ℕ} (hc : Has { w with locals := w.locals ++ [{}] } j c) : w.Has j c := by
    obtain ⟨l₁, hl₁, hc⟩ := hc
    rcases hold hl₁ with hl₁ | rfl
    · exact ⟨l₁, hl₁, hc⟩
    · cases hc
  have hkp {j c : ℕ} (hc : w.Has j c) : Has { w with locals := w.locals ++ [{}] } j c := by
    obtain ⟨l₁, hl₁, hc⟩ := hc
    exact ⟨l₁, (getElem?_append_left (List.getElem?_eq_some_iff.1 hl₁).1).trans hl₁, hc⟩
  refine ⟨h.parked, ?_, ?_, h.workers_nodup, fun j c hc => h.not_parked j c (hhs hc),
    fun j k c hj hk => h.not_shared j k c (hhs hj) (hhs hk), h.workers_lt,
    fun j c hc => h.has_lt j c (hhs hc), ?_, fun hfin j c hc => h.finished hfin j c (hhs hc), h.combined⟩
  · intro j l₁ c hl₁ hrd hc
    rcases hold hl₁ with hl₁ | rfl
    · exact h.current j l₁ c hl₁ hrd hc
    · cases hc
  · intro j l₁ hl₁ htr
    rcases hold hl₁ with hl₁ | rfl
    · exact h.connecting j l₁ hl₁ htr
    · cases htr
  · intro hfin r hr
    exact (h.owned hfin r hr).imp_right fun ⟨j, hj⟩ => ⟨j, hkp hj⟩

theorem beginSink {op : Operator} (hl : w.locals[i]? = some l) (hfin : w.finalized = false)
    (hw' : w.beginSink op i l = some w') : Inv w' := by
  unfold World.beginSink at hw'
  split_ifs at hw' with hsm
  · cases hw'
    exact h.move hl _ rfl Turn.noConfusion Bool.noConfusion
  have hnone : l.connection = none := not_isSome_iff_eq_none.1 hsm
  have hmv turn htr : Inv (w.setLocal i { l with turn }) := h.move hl _ rfl htr fun _ => ⟨hnone, hfin⟩
  rcases op with _ | _
  · rcases hst : w.status with _ | _ | executionId | e <;> rw [hst] at hw' <;> cases hw'
    · exact (hmv .initRunner Turn.noConfusion).other .started w.initWorker w.error le_rfl
    · exact hmv _ Turn.noConfusion
    · exact hmv _ Turn.noConfusion
    · exact hmv _ Turn.noConfusion
  · rcases hst : w.status with _ | _ | executionId | e <;> rw [hst] at hw' <;> dsimp only at hw'
    · cases hw'
    · cases hw'
    · rcases hwk : w.workers.getLast? with _ | c <;> rw [hwk] at hw'
      · cases hw'
        exact hmv _ Turn.noConfusion
      · rcases hid : w.stateIds.getLast? with _ | stateId <;> rw [hid] at hw' <;> cases hw'
        · exact hmv _ Turn.noConfusion
        · exact h.reuse hl hnone hfin hwk stateId
    · cases hw'

theorem wake (hl : w.locals[i]? = some l) (htr : l.turn = .waiting) (hw' : w.wake i l = some w') : Inv w' := by
  rw [World.wake] at hw'
  rcases hst : w.status with _ | _ | executionId | e <;> rw [hst] at hw' <;> cases hw'
  · exact h.move hl _ rfl Turn.noConfusion fun _ => h.connecting i l hl (htr ▸ rfl)
  · exact h.throwing hl (.peerInit e) w.status

theorem endInit (hl : w.locals[i]? = some l) {reply : Except Bytes Bytes}
    (hw' : w.endInit i l reply = some w') : Inv w' := by
  unfold World.endInit at hw'
  have hcn (htr : l.turn.connecting = true) := h.connect hl (h.connecting i l hl htr).1 (h.connecting i l hl htr).2
  rcases htr : l.turn with _ | _ | _ | executionId | _ | _ <;> rcases reply with e | reply <;>
    rw [htr] at hw' <;> cases hw'
  · exact h.throwing hl (.worker e) (.failed e)
  · exact (hcn (htr ▸ rfl)).other (.done reply) w.initWorker w.error le_rfl
  · exact h.throwing hl (.worker e) w.status
  · exact hcn (htr ▸ rfl)

theorem finalize (hst : w.Settled) (hfin : w.finalized = false)
    (served : Bool) (init : Except Bytes Bytes) : Inv (w.finalize op served init) := by
  have hid := h.mem_stateIds hfin hst
  have hnone ids (hcm : w.combined = some ids) id : id ∈ ids ↔ ∃ c, lastReply w.returned c = some id :=
    absurd (hfin.symm.trans (h.combined ids hcm).1) Bool.noConfusion
  unfold World.finalize
  rcases op with _ | _
  · dsimp only
    split_ifs with hsr hem
    · exact h.finish hst hnone
    · rcases init with e | executionId
      · exact h.finish hst hnone
      -- without workers there are no ids
      refine h.finish hst ?_ (.inl ⟨rfl, rfl⟩) (Nat.le_succ _)
      rintro ids ⟨⟩ id
      have hnil : w.stateIds = [] := by
        have hlen := congrArg List.length h.parked
        rw [List.isEmpty_iff.1 hem, length_map, length_map] at hlen
        exact eq_nil_of_length_eq_zero hlen.symm
      rw [← hid, hnil]
    · refine h.finish hst ?_
      rintro ids ⟨⟩
      exact hid
  · rcases hin : w.initWorker with _ | _
    · exact h.other w.status none _ le_rfl
    · refine h.finish hst ?_ (.inr ⟨rfl, rfl⟩)
      rintro ids ⟨⟩
      exact hid

end

/-- A local state where its thread is at some point is one of the local states. -/
theorem at_eq_some {turn : Turn → Bool} (h : w.at i turn = some l) : w.locals[i]? = some l ∧ turn l.turn = true :=
  filter_eq_some_iff.1 h

theorem step (h : Inv w) {op : Operator} {a : Action β} (hst : (machine op).step w a = some w') : Inv w' := by
  cases a with
  | initializeGlobal reply =>
    obtain ⟨-, hw'⟩ := ite_none_right_eq_some.1 hst
    rcases reply with e | executionId <;> cases hw'
    · exact h.other (.failed e) w.initWorker _ le_rfl
    · exact h.other (.done executionId) _ w.error (Nat.le_succ _)
  | initializeLocal =>
    cases hst
    exact h.initializeLocal
  | sink i =>
    obtain ⟨l, hl, hrs⟩ := bind_eq_some_iff.1 hst
    obtain ⟨hl, -⟩ := at_eq_some hl
    split_ifs at hrs with hfin hop
    · cases hrs
      exact h.throwing hl _ w.status
    · exact h.beginSink hl (Bool.eq_false_iff.2 hfin) hrs
  | wake i =>
    obtain ⟨l, hl, hrs⟩ := bind_eq_some_iff.1 hst
    obtain ⟨hl, htr⟩ := at_eq_some hl
    exact h.wake hl (of_decide_eq_true htr) hrs
  | endInit i reply =>
    obtain ⟨l, hl, hrs⟩ := bind_eq_some_iff.1 hst
    exact h.endInit hl hrs
  | process i batch reply =>
    obtain ⟨l, hl, hrs⟩ := bind_eq_some_iff.1 hst
    obtain ⟨hl, -⟩ := at_eq_some hl
    obtain ⟨c, hc, hw'⟩ := bind_eq_some_iff.1 hrs
    cases hw'
    rcases reply with e | stateId
    · exact h.throwing hl _ w.status
    · exact h.process hl hc stateId batch
  | combine i =>
    obtain ⟨l, hl, hw'⟩ := bind_eq_some_iff.1 hst
    obtain ⟨hl, htr⟩ := at_eq_some hl
    cases hw'
    exact h.combine hl (of_decide_eq_true htr)
  | finalize served init =>
    obtain ⟨⟨hstl, hfin⟩, hw'⟩ := ite_none_right_eq_some.1 hst
    cases hw'
    exact h.finalize op hstl hfin served init

end Inv

/-! ## Runs -/

/-- The ids that are combined are the last ones that the workers returned. -/
theorem mem_combined {op : Operator} {actions : List (Action β)} {w : World β}
    (hrun : (machine op).run {} actions = some w) {ids : List Bytes} (hid : w.combined = some ids)
    (id : Bytes) : id ∈ ids ↔ ∃ c, lastReply w.returned c = some id :=
  ((Machine.run_invariant (fun h hst => Inv.step h hst) inv_start hrun).combined ids hid).2 id

/-- All ids that were returned are combined iff each of them is the last one that some worker returned. -/
theorem combined_complete_iff {actions : List (Action β)} {w : World β}
    (hrun : (machine op).run {} actions = some w) {ids : List Bytes} (hids : w.combined = some ids) :
    (∀ r ∈ w.returned, r.stateId ∈ ids) ↔ ∀ r ∈ w.returned, ∃ c, lastReply w.returned c = some r.stateId := by
  refine forall₂_congr fun r _ => ?_
  exact mem_combined hrun hids r.stateId

/-- Two threads whose workers keep to one id each. -/
theorem combined_complete_two :
    ∃ w : World ℕ, w.combined = some [ascii "b", ascii "a"] ∧ w.returned.length = 3 ∧
      ((∀ r ∈ w.returned, r.stateId ∈ [ascii "b", ascii "a"]) ↔
        ∀ r ∈ w.returned, ∃ c, lastReply w.returned c = some r.stateId) := by
  let actions : List (Action ℕ) :=
    [.initializeLocal, .initializeLocal, .sink 0, .sink 1, .endInit 0 (.ok (ascii "x")), .wake 1,
     .endInit 1 (.ok []), .process 1 20 (.ok (ascii "b")), .process 0 10 (.ok (ascii "a")), .sink 0,
     .combine 1, .process 0 11 (.ok (ascii "a")), .combine 0, .finalize false (.ok [])]
  have hrun : ∃ w, (machine .tableBuffering).run {} actions = some w ∧
      w.combined = some [ascii "b", ascii "a"] ∧ w.returned.length = 3 := ⟨_, rfl, rfl, rfl⟩
  obtain ⟨w, hw, hid, hlen⟩ := hrun
  exact ⟨w, hid, hlen, combined_complete_iff .tableBuffering hw hid⟩

/-- A worker that returns a new id for each chunk: only the last one is combined. For `COPY` it is
    enough that a later local state takes the worker. -/
theorem returned_id_dropped :
    (∃ w, (machine .tableBuffering).run {}
      [.initializeLocal, .sink 0, .endInit 0 (.ok (ascii "x")), .process 0 10 (.ok (ascii "a")), .sink 0,
       .process 0 11 (.ok (ascii "b")), .combine 0, .finalize false (.ok [])] = some w ∧
      w.returned.map (·.stateId) = [ascii "a", ascii "b"] ∧ w.combined = some [ascii "b"]) ∧
    ∃ w, (machine .copyTo).run {}
      [.initializeGlobal (.ok (ascii "x")), .initializeLocal, .sink 0, .endInit 0 (.ok []),
       .process 0 10 (.ok (ascii "a")), .combine 0, .initializeLocal, .sink 1,
       .process 1 11 (.ok (ascii "b")), .combine 1, .finalize false (.ok [])] = some w ∧
      w.returned.map (·.stateId) = [ascii "a", ascii "b"] ∧ w.combined = some [ascii "b"] :=
  ⟨⟨_, rfl, rfl, rfl⟩, ⟨_, rfl, rfl, rfl⟩⟩

end Vgi.BufferedSink
