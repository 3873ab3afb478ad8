import Vgi.Rpc.Http
import Vgi.Transport.Location

/-!
# Unary calls on all transports

A unary call goes over HTTP, or as a request and a reply on a stream: a socket, a process, a container.
Connecting may be tried again by all of them. Two of them may also repeat the request: a worker from
the pool may turn out to be dead, and a shared container may still be starting, in which case the call
itself is how this is found out.

* `transmits_at_most_once`: whatever fails, a request for a method that requires a single attempt is
  transmitted again only after it was answered by 401 or 415, so that a server that does not carry out
  what it rejects so, carries it out at most once.
-/

namespace Vgi

inductive ContainerConnMode
  | http | tcp
  deriving DecidableEq

/-- What comes of a request on a stream: writing it, or reading a reply, fails; or there is a reply,
    which may be an error of the worker. -/
inductive StreamReply
  | failed (e : Failure)
  | replied (result : Except Failure Unit)

def StreamReply.answer : StreamReply → Answer
  | .failed _ => .nothing
  | .replied _ => .reply

/-- What is not up to this program, at each time. -/
structure Peer extends HttpPeer where
  /-- Find or start a worker, and connect to it. -/
  connect : ℕ → Except Failure Unit
  /-- What comes of a request on a stream. -/
  exchange : ℕ → StreamReply
  /-- Find or start a shared container. -/
  ensureSharedContainer : ℕ → Except Failure ContainerConnMode
  /-- A shared container has had its time to start. -/
  late : ℕ → Bool
  /-- Fetch a result that was put elsewhere. -/
  resolveExternalLocation : ℕ → Except Failure Unit

structure UnaryRpcOptions where
  workerPath : Bytes
  usePool : Bool
  /-- A bound on the rounds for a shared container: time does not stand still. -/
  rounds : ℕ
  /-- How requests are sent over HTTP. -/
  http : HttpCall
  /-- What is known about the server. -/
  caps : ServerCapabilities

namespace UnaryRpcOptions

variable (opts : UnaryRpcOptions) (peer : Peer)

/-- A request on a stream, and its reply. -/
def callOnStream : Rpc Unit := do
  match ← transmit peer.exchange StreamReply.answer with
  | .failed e => throw e
  | .replied (.error e) => throw e
  | .replied (.ok ()) => return

/-- A call of a process, from the pool or a new one. -/
def attemptUnaryRpc : Rpc Unit := do
  attempt peer.connect
  callOnStream peer

/-- A call over HTTP, to the worker itself or through Iroh, or to a container. -/
def callHttp (call : HttpCall) (method : Bytes) (caps : ServerCapabilities) : Rpc Unit := do
  let _ ← httpInvokeUnary peer.toHttpPeer call method caps

/-- From here on `request_dispatched` holds, which is reported with a failure. -/
def dispatching (call : Rpc Unit) : Rpc (Except (Bool × Failure) Unit) :=
  tryCatch (do call; return .ok ()) fun e => return .error (true, e)

/-- A call to a shared container. If it fails, this says whether the request was dispatched by then. -/
def trySharedContainer (method : Bytes) : Rpc (Except (Bool × Failure) Unit) :=
  tryCatch (do
    match ← attempt peer.ensureSharedContainer with
    | .http =>
      dispatching (callHttp peer { opts.http with isHttpi := false, cachedRetries := none } method {})
    | .tcp =>
      attempt peer.connect
      dispatching (callOnStream peer))
    fun e => return .error (false, e)

/-- Call a shared container until it answers or is late. -/
def callSharedContainer (method : Bytes) : ℕ → Rpc Unit
  | 0 => throw .io
  | rounds + 1 => do
    match ← opts.trySharedContainer peer method with
    | .ok () => return
    | .error (dispatched, e) =>
      if e ≠ .io then throw e
      -- a reply that was lost after a change must not repeat the change
      else if dispatched ∧ requiresSingleAttemptUnary method then throw e
      else if ← ask peer.late then throw e
      else callSharedContainer method rounds

def invokeUnaryRpcOnTransport (method : Bytes) : Rpc Unit :=
  if isHttpTransport opts.workerPath then
    callHttp peer { opts.http with isHttpi := false } method opts.caps
  else if isHttpiTransport opts.workerPath then
    callHttp peer { opts.http with isHttpi := true, cachedRetries := none } method opts.caps
  else if isIrohTransport opts.workerPath then
    if opts.http.irohConfig then attemptUnaryRpc peer else throw .other
  else if isContainerSharedLocation opts.workerPath then do
    attempt peer.connect
    opts.callSharedContainer peer method opts.rounds
  else if isTcpTransport opts.workerPath then attemptUnaryRpc peer
  else if isLaunchLocation opts.workerPath || isUnixLocation opts.workerPath then attemptUnaryRpc peer
  else
    tryCatch (attemptUnaryRpc peer) fun e =>
      if e ≠ .io ∨ ¬opts.usePool ∨ requiresSingleAttemptUnary method then throw e
      else attemptUnaryRpc peer

def invokePooledUnaryRpc (method : Bytes) : Rpc Unit := do
  opts.invokeUnaryRpcOnTransport peer method
  attempt peer.resolveExternalLocation

/-! ## At most once -/

open Throwing Net

section

variable {opts peer} {method : Bytes}

theorem spec_callOnStream : Spec Ready (callOnStream peer) (fun _ => AtMostOnce) fun _ => AtMostOnce := by
  refine spec_transmit.bind fun r => ?_
  rcases r with e | ⟨e | _⟩
  · exact spec_throw e fun n hn => hn.1
  · exact spec_throw e fun n hn => hn.1
  · exact spec_pure _ fun n hn => hn.1

theorem spec_attemptUnaryRpc : Spec Ready (attemptUnaryRpc peer) (fun _ => AtMostOnce) fun _ => AtMostOnce :=
  spec_attempt_ready.bind fun _ => spec_callOnStream

/-- After a call to a shared container: if the request was not dispatched, it may still be transmitted. -/
def Tried (r : Except (Bool × Failure) Unit) (n : Net) : Prop :=
  n.AtMostOnce ∧ ∀ e, r = .error (false, e) → n.Ready

variable {E : Failure → Net → Prop}

theorem spec_dispatching {c : Rpc Unit} (hc : Spec Ready c (fun _ => AtMostOnce) fun _ => AtMostOnce) :
    Spec Ready (dispatching c) Tried E := by
  refine Spec.tryCatch (hc.bind fun _ => ?_) fun e => ?_
  · exact spec_pure _ fun n hn => ⟨hn, nofun⟩
  · exact spec_pure _ fun n hn => ⟨hn, nofun⟩

theorem spec_attempt_keeps {α : Type} {f : ℕ → Except Failure α} :
    Spec Ready (attempt f) (fun _ => Ready) fun _ => Ready :=
  spec_attempt (R := fun sent => ∀ a ∈ sent, a.Rejected)

variable (hmethod : requiresSingleAttemptUnary method = true)

include hmethod

theorem spec_callHttp (call : HttpCall) (caps : ServerCapabilities) :
    Spec Ready (callHttp peer call method caps) (fun _ => AtMostOnce) fun _ => AtMostOnce :=
  (httpInvokeUnary_atMostOnce hmethod caps).bind fun _ => spec_pure _ fun _ => id

/-- If a call to a shared container fails before its request is dispatched, then it was not transmitted. -/
theorem spec_trySharedContainer : Spec Ready (opts.trySharedContainer peer method) Tried E := by
  -- the handler runs only while nothing but rejected requests was transmitted
  refine Spec.tryCatch (spec_attempt_keeps.bind fun mode => ?_) fun e => ?_
  · rcases mode with _ | _
    · exact spec_dispatching (spec_callHttp hmethod _ _)
    · exact spec_attempt_keeps.bind fun _ => spec_dispatching spec_callOnStream
  · exact spec_pure _ fun n hn => ⟨hn.atMostOnce, fun _ _ => hn⟩

theorem spec_callSharedContainer (rounds : ℕ) :
    Spec Ready (opts.callSharedContainer peer method rounds) (fun _ => AtMostOnce) fun _ => AtMostOnce := by
  -- each round starts with nothing transmitted that was not rejected
  induction rounds with
  | zero => exact spec_throw _ fun n => Ready.atMostOnce
  | succ rounds ih =>
    refine (spec_trySharedContainer hmethod).bind fun r => ?_
    rcases r with ⟨dispatched, e⟩ | _
    · dsimp only
      split_ifs with _ hds
      · exact spec_throw e fun n hn => hn.1
      · exact spec_throw e fun n hn => hn.1
      -- the request was not dispatched, so the next round may do it
      obtain rfl : dispatched = false := Bool.eq_false_iff.2 fun h => hds ⟨h, hmethod⟩
      refine Spec.pre ?_ fun n hn => hn.2 e rfl
      refine (spec_ask (R := fun sent => ∀ a ∈ sent, a.Rejected)).bind fun late => ?_
      split_ifs
      · exact spec_throw e fun n => Ready.atMostOnce
      · exact ih
    · exact spec_pure _ fun n hn => hn.1

theorem spec_invokeUnaryRpcOnTransport :
    Spec Ready (opts.invokeUnaryRpcOnTransport peer method) (fun _ => AtMostOnce) fun _ => AtMostOnce := by
  rw [invokeUnaryRpcOnTransport]
  split_ifs
  · exact spec_callHttp hmethod _ _
  · exact spec_callHttp hmethod _ _
  · exact spec_attemptUnaryRpc
  · exact spec_throw _ fun n => Ready.atMostOnce
  · exact spec_attempt_ready.bind fun _ => spec_callSharedContainer hmethod _
  · exact spec_attemptUnaryRpc
  · exact spec_attemptUnaryRpc
  · refine spec_attemptUnaryRpc.tryCatch fun e => ?_
    rw [if_pos (.inr (.inr hmethod))]
    exact spec_throw e fun _ => id

end

/-- Whatever fails in a call of a method that requires a single attempt: its request is transmitted
    again only after 401 or 415. If the server carries out (`ran`) only transmissions that it does not
    answer so, it carries out at most one. -/
theorem transmits_at_most_once (opts : UnaryRpcOptions) (peer : Peer) (method : Bytes)
    (hmethod : requiresSingleAttemptUnary method = true) :
    let sent := ((opts.invokePooledUnaryRpc peer method).exec {}).2.sent
    (∀ i a, sent[i]? = some a → i + 1 < sent.length → a = .status 401 ∨ a = .status 415) ∧
    ∀ ran : ℕ → Prop, (∀ i a, sent[i]? = some a → ran i → a ≠ .status 401 ∧ a ≠ .status 415) →
      ∀ i j, i < sent.length → j < sent.length → ran i → ran j → i = j := by
  intro sent
  have hsp : Spec Ready (opts.invokePooledUnaryRpc peer method) (fun _ => AtMostOnce)
      fun _ => AtMostOnce :=
    (spec_invokeUnaryRpcOnTransport hmethod).bind fun _ =>
      spec_attempt (R := fun sent => ∀ a ∈ sent.dropLast, a.Rejected)
  have hsn : ∀ a ∈ sent.dropLast, a.Rejected := hsp.state nofun
  have hpre i (a : Answer) (hi : sent[i]? = some a) (hlt : i + 1 < sent.length) : a.Rejected := by
    refine hsn a (List.mem_of_getElem? (i := i) ?_)
    rwa [List.getElem?_dropLast, if_pos (Nat.lt_sub_of_add_lt hlt)]
  refine ⟨hpre, fun ran hrn i j hi hj hi' hj' => ?_⟩
  -- a transmission that was carried out is the last one
  have hls i (hi : i < sent.length) (hi' : ran i) : i + 1 = sent.length := by
    by_contra hne
    have hget := List.getElem?_eq_getElem hi
    obtain ⟨h401, h415⟩ := hrn i _ hget hi'
    exact (hpre i _ hget (lt_of_le_of_ne hi hne)).elim h401 h415
  exact Nat.succ_injective ((hls i hi hi').trans (hls j hj hj').symm)

/-- A server that wants to know who asks, and then does not accept the encoding. -/
def pickyPeer : Peer where
  post n := .response {
    status := if n = 1 then 401 else if n = 3 then 415 else 200
    capabilities := some ⟨true, true, some (if n = 3 then [.gzip] else [.zstd])⟩
    challenge := true }
  again _ := true
  handleUnauthorized _ := .ok ()
  discover _ := .ok ⟨true, true, none⟩
  expired _ := false
  finish _ := .ok ()
  connect _ := .ok ()
  exchange _ := .failed .io
  ensureSharedContainer _ := .error .io
  late _ := true
  resolveExternalLocation _ := .ok ()

/-- A call over HTTP, where the HTTP library would repeat requests. -/
def httpCall : UnaryRpcOptions where
  workerPath := ascii "https://host"
  usePool := false
  rounds := 0
  http := ⟨false, false, some 3, 3, true, some true, 2000, []⟩
  caps := ⟨true, true, some [.zstd]⟩

/-- The request goes out three times, but it is taken only once. -/
theorem pickyPeer_at_most_once :
    requiresSingleAttemptUnary (ascii "catalog_table_create") = true ∧
    ((httpCall.invokePooledUnaryRpc pickyPeer (ascii "catalog_table_create")).exec {}).2.sent =
      [.status 401, .status 415, .status 200] ∧
    ∀ ran : ℕ → Prop, (∀ i a, ([.status 401, .status 415, .status 200] : List Answer)[i]? = some a →
      ran i → a ≠ .status 401 ∧ a ≠ .status 415) → ∀ i j, i < 3 → j < 3 → ran i → ran j → i = j := by
  have hmethod : requiresSingleAttemptUnary (ascii "catalog_table_create") = true := by decide +kernel
  exact ⟨hmethod, by decide +kernel,
    (transmits_at_most_once httpCall pickyPeer (ascii "catalog_table_create") hmethod).2⟩

end UnaryRpcOptions

end Vgi
