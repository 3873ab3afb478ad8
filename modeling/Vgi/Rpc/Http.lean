import Vgi.Lib.Text
import Vgi.Lib.Throwing

/-!
# Unary calls over HTTP

A unary call is one request, but it may be transmitted more than once:

* the HTTP library repeats a request if its parameters say so (`httpUtilRequest`);
* one that was encoded in a way that the server does not accept is encoded anew (`httpPostArrowIpcInternal`);
* one that was not authorized is repeated after an authentication (`httpPostArrowIpc`).

Some methods change something before they answer, so a request for them must not be carried out twice
(`requiresSingleAttemptUnary`). This is decided from the name of the method, which gets to where the request is sent in
the fields for error messages.

The state of a call is the answers to the transmissions of its request so far. What is not up to this program is a
function of time, so that all that can happen does so for one of these.

* `httpInvokeUnary_atMostOnce`: for such a method, a request is transmitted again only if all transmissions before were
  answered by 401 or 415.
-/

namespace Vgi

/-! ## Transmissions -/

/-- Exceptions, as far as they are told apart where they are caught: `IOException`, and the others. -/
inductive Failure
  | io | other
  deriving DecidableEq

/-- What came back for a transmission: nothing, an HTTP status, or a reply on a stream. -/
inductive Answer
  | nothing | status (code : ℕ) | reply
  deriving DecidableEq

/-- The server says that it has not taken the request: it does not know who asks, or cannot read it. -/
abbrev Answer.Rejected (a : Answer) : Prop := a = .status 401 ∨ a = .status 415

/-- The transmissions of the request, each with its answer, and the time. -/
structure Net where
  sent : List Answer := []
  clock : ℕ := 0

/-- Computations that send a request. -/
abbrev Rpc := Throwing Failure Net

/-- Something that is not up to this program, and is not a transmission. -/
def ask {α : Type} (f : ℕ → α) : Rpc α := fun n => (.ok (f n.clock), { n with clock := n.clock + 1 })

/-- Something that may fail. -/
def attempt {α : Type} (f : ℕ → Except Failure α) : Rpc α := do
  match ← ask f with
  | .ok a => return a
  | .error e => throw e

/-- Transmit the request. -/
def transmit {α : Type} (f : ℕ → α) (answer : α → Answer) : Rpc α := fun n =>
  (.ok (f n.clock), ⟨n.sent ++ [answer (f n.clock)], n.clock + 1⟩)

/-! ## The requests -/

def requiresSingleAttemptUnary (method : Bytes) : Bool :=
  method ∈ [ascii "catalog_query_prepare", ascii "catalog_transaction_begin",
    ascii "catalog_table_create", ascii "catalog_table_constraints_apply", ascii "catalog_index_create",
    ascii "catalog_index_drop", ascii "catalog_table_rename", ascii "catalog_table_column_rename",
    ascii "catalog_table_column_type_change", ascii "catalog_table_column_drop"]

inductive HttpEncoding
  | none | zstd | gzip
  deriving DecidableEq

/-- What a server says about itself. -/
structure ServerCapabilities where
  discovered : Bool := false
  acceptMaxResponseBytesSupport : Bool := false
  /-- The encodings it reads, if it says so. -/
  encodings : Option (List HttpEncoding) := .none
  deriving DecidableEq

namespace ServerCapabilities

/-- The encodings that are known. -/
def advertised (caps : ServerCapabilities) : Option (List HttpEncoding) :=
  if caps.discovered then caps.encodings else .none

def acceptsRequestEncoding (caps : ServerCapabilities) (enc : HttpEncoding) : Bool :=
  if enc = .none then true
  else match caps.advertised with
    | .none => enc = .zstd
    | some encodings => enc ∈ encodings

def chooseRequestEncoding (caps : ServerCapabilities) : HttpEncoding :=
  match caps.advertised with
  | .none => .zstd
  | some encodings => (encodings.find? (· ≠ .none)).getD .none

/-- What is not said again holds on. -/
def inherit (caps old : ServerCapabilities) : ServerCapabilities :=
  { caps with encodings := caps.encodings <|> old.encodings }

end ServerCapabilities

structure HttpResponse where
  status : ℕ
  /-- The response is not looked at: the query was interrupted, or it is too large. -/
  dropped : Option Failure := none
  /-- What its headers say about the server; `none` if they say nothing. -/
  capabilities : Option ServerCapabilities
  /-- There is a challenge for OAuth. -/
  challenge : Bool := false
  /-- What reading the body comes to. -/
  body : Except Failure Unit := .ok ()

def HttpResponse.success (r : HttpResponse) : Bool := 200 ≤ r.status && r.status < 300

inductive HttpReply
  | lost (failure : Failure)
  | response (r : HttpResponse)

def HttpReply.answer : HttpReply → Answer
  | .lost _ => .nothing
  | .response r => .status r.status

/-- What is not up to this program, at each time. -/
structure HttpPeer where
  /-- What comes of a transmission. -/
  post : ℕ → HttpReply
  /-- The HTTP library repeats a request, if it may. -/
  again : ℕ → Bool
  /-- What the authentication comes to. -/
  handleUnauthorized : ℕ → Except Failure Unit
  discover : ℕ → Except Failure ServerCapabilities
  /-- What is known about the server is too old. -/
  expired : ℕ → Bool
  /-- What reading the result comes to. -/
  finish : ℕ → Except Failure Unit

/-- How a request is sent. -/
structure HttpCall where
  isHttpi : Bool
  /-- ATTACH left a configuration for Iroh. -/
  irohConfig : Bool
  /-- How often the HTTP library may repeat a request, by parameters that were stored. -/
  cachedRetries : Option ℕ
  /-- The same, by the settings. -/
  settingRetries : ℕ
  /-- The HTTP library can copy parameters (`VGI_ENGINE_HAS_HTTP_PARAMS_CLONE`). -/
  clonesParams : Bool
  /-- How to authenticate, and whether the user said so. -/
  auth : Option Bool
  bodySize : ℕ
  /-- The fields for error messages. -/
  errorFields : List (Bytes × Bytes)

/-- The method a request is for must not be repeated. -/
def singleAttempt (fields : List (Bytes × Bytes)) : Bool :=
  (fields.lookup (ascii "rpc_method")).any requiresSingleAttemptUnary

section

variable (peer : HttpPeer) (call : HttpCall)

/-- How often the HTTP library may repeat a request, by the parameters for it. -/
def paramRetries (single : Bool) : ℕ :=
  call.cachedRetries.getD (if single then 0 else call.settingRetries)

/-- How often the HTTP library may repeat this request. -/
def requestRetries (single : Bool) : Rpc ℕ :=
  if call.clonesParams then return if single then 0 else paramRetries call single
  -- the parameters are shared and cannot be changed
  else if single ∧ paramRetries call single ≠ 0 then throw .other
  else return paramRetries call single

/-- The HTTP library: it repeats a request only if it may. -/
def httpUtilRequest : ℕ → Rpc HttpReply
  | 0 => transmit peer.post HttpReply.answer
  | retries + 1 => do
    let reply ← transmit peer.post HttpReply.answer
    if ← ask peer.again then httpUtilRequest retries else return reply

def sendHttp (single : Bool) : Rpc HttpReply := do
  if call.isHttpi then
    if call.irohConfig then transmit peer.post HttpReply.answer else throw .other
  else httpUtilRequest peer (← requestRetries call single)

/-- What a response says about the server. -/
def responseCapabilities (r : HttpResponse) (known : ServerCapabilities) : Rpc ServerCapabilities :=
  match r.dropped with
  | some e => throw e
  | none => match r.capabilities with
    | none => throw .io
    | some caps => if caps.acceptMaxResponseBytesSupport then return caps.inherit known else throw .io

/-- The response to be returned. -/
def readResponse (r : HttpResponse) (caps : ServerCapabilities) : Rpc (HttpResponse × ServerCapabilities) :=
  match r.body with
  | .error e => throw e
  | .ok () => if r.success then return (r, caps) else throw .io

/-- Send a request in an encoding; `again`, where it is given, sends it in another one. -/
def postEncoded (fields : List (Bytes × Bytes))
    (again : Option (HttpEncoding → ServerCapabilities → Rpc (HttpResponse × ServerCapabilities)))
    (enc : HttpEncoding) (known : ServerCapabilities) : Rpc (HttpResponse × ServerCapabilities) := do
  let single := singleAttempt fields
  -- a small body gets larger
  let enc := if call.bodySize < 1024 then .none else enc
  match ← sendHttp peer call single with
  | .lost e => throw e
  | .response r =>
    let caps ← responseCapabilities r known
    if r.status = 401 then return (r, caps)
    else match again with
      | none => readResponse r caps
      | some again =>
        -- of a method that changes something, only 415 says that nothing was done
        if (¬single ∨ r.status = 415) ∧ ¬r.success ∧ caps.discovered ∧ ¬caps.acceptsRequestEncoding enc ∧
            caps.chooseRequestEncoding ≠ enc then
          again caps.chooseRequestEncoding caps
        else readResponse r caps

/-- Send a request; if the server does not accept its encoding, once more in another one. -/
def httpPostArrowIpcInternal (fields : List (Bytes × Bytes)) :
    HttpEncoding → ServerCapabilities → Rpc (HttpResponse × ServerCapabilities) :=
  postEncoded peer call fields (some (postEncoded peer call fields none))

/-- Send a request; if it is not authorized, once more after an authentication. -/
def httpPostArrowIpc (fields : List (Bytes × Bytes)) (caps : ServerCapabilities) :
    Rpc ServerCapabilities := do
  let (r, caps) ← httpPostArrowIpcInternal peer call fields caps.chooseRequestEncoding caps
  if r.status ≠ 401 then return caps
  else match call.auth with
    | none => throw .io
    | some configured =>
      if r.challenge then
        attempt peer.handleUnauthorized
        let (r, caps) ← httpPostArrowIpcInternal peer call fields caps.chooseRequestEncoding caps
        if r.status = 401 then throw .io else return caps
      else if configured then
        -- the credential was rejected; whatever the handler makes of it, there is no new one
        attempt peer.handleUnauthorized
        throw .io
      else throw .io

/-- What is known about the server; it is asked if that is nothing, or too old. -/
def currentCapabilities (caps : ServerCapabilities) : Rpc ServerCapabilities := do
  if ¬caps.discovered ∨ (← ask peer.expired) then attempt peer.discover else return caps

/-- A unary call over HTTP. -/
def httpInvokeUnary (method : Bytes) (caps : ServerCapabilities) : Rpc ServerCapabilities := do
  let caps ← currentCapabilities peer caps
  if ¬caps.discovered ∨ ¬caps.acceptMaxResponseBytesSupport then throw .io
  else
    let caps ← httpPostArrowIpc peer call ((ascii "rpc_method", method) :: call.errorFields) caps
    attempt peer.finish
    return caps

end

/-! ## At most once -/

namespace Net

/-- The request may be transmitted: all transmissions so far were rejected. -/
def Ready (n : Net) : Prop := ∀ a ∈ n.sent, a.Rejected

/-- The request was transmitted again only after it was rejected. -/
def AtMostOnce (n : Net) : Prop := ∀ a ∈ n.sent.dropLast, a.Rejected

theorem Ready.atMostOnce {n : Net} (h : n.Ready) : n.AtMostOnce := fun a ha => h a (List.dropLast_subset _ ha)

end Net

section

open Throwing Net

variable {α : Type} {R : List Answer → Prop} {E : Failure → Net → Prop}

/-- What holds of the transmissions does so after anything that is not one. -/
theorem spec_ask {f : ℕ → α} : Spec (fun n => R n.sent) (ask f) (fun _ n => R n.sent) E := fun _ h => h

variable {f : ℕ → Except Failure α}

theorem spec_attempt : Spec (fun n => R n.sent) (attempt f) (fun _ n => R n.sent) (fun _ n => R n.sent) := by
  refine spec_ask.bind fun r => ?_
  rcases r with e | a
  · exact spec_throw e fun _ => id
  · exact spec_pure a fun _ => id

theorem spec_attempt_ready : Spec Ready (attempt f) (fun _ => Ready) fun _ => AtMostOnce :=
  (spec_attempt (R := fun sent => ∀ a ∈ sent, a.Rejected)).weaken fun _ _ => Ready.atMostOnce

/-- A request that may be transmitted may be so once more only if it is rejected. -/
theorem spec_transmit {f : ℕ → α} {answer : α → Answer} :
    Spec Ready (transmit f answer) (fun r n => n.AtMostOnce ∧ ((answer r).Rejected → n.Ready)) E := by
  intro n hn
  refine ⟨fun a ha => ?_, fun hrj a ha => ?_⟩
  · rw [List.dropLast_concat] at ha
    exact hn a ha
  · rcases List.mem_append.1 ha with ha | ha
    · exact hn a ha
    · exact List.mem_singleton.1 ha ▸ hrj

variable {peer : HttpPeer} {call : HttpCall}

/-- The HTTP library is told not to repeat the request, or it is not sent. -/
theorem spec_requestRetries {R : Net → Prop} :
    Spec R (requestRetries call true) (fun retries n => retries = 0 ∧ R n) fun _ => R := by
  rw [requestRetries]
  split
  · exact spec_pure _ fun n hn => ⟨rfl, hn⟩
  split_ifs with hrt
  · exact spec_throw _ fun _ => id
  · exact spec_pure _ fun n hn => ⟨not_not.1 fun hne => hrt ⟨rfl, hne⟩, hn⟩

theorem spec_sendHttp :
    Spec Ready (sendHttp peer call true)
      (fun reply n => n.AtMostOnce ∧ (reply.answer.Rejected → n.Ready)) fun _ => AtMostOnce := by
  rw [sendHttp]
  split_ifs with hht hir
  · exact spec_transmit
  · exact spec_throw _ fun n hn => hn.atMostOnce
  refine Spec.bind (spec_requestRetries.weaken fun _ _ => Ready.atMostOnce) fun retries => ?_
  rintro n ⟨rfl, hn⟩
  exact spec_transmit (E := fun _ => AtMostOnce) n hn

/-- After a response the request may be transmitted again if it is 401. -/
def Posted (x : HttpResponse × ServerCapabilities) (n : Net) : Prop :=
  n.AtMostOnce ∧ (x.1.status = 401 → n.Ready)

/-- A response that is read is one of success. -/
theorem spec_readResponse (r : HttpResponse) (caps : ServerCapabilities) :
    Spec AtMostOnce (readResponse r caps) Posted fun _ => AtMostOnce := by
  rw [readResponse]
  rcases r.body with e | _
  · exact spec_throw e fun _ => id
  split_ifs with hsc
  · refine spec_pure _ fun n hn => ⟨hn, fun h401 => ?_⟩
    rw [HttpResponse.success, h401] at hsc
    cases hsc
  · exact spec_throw _ fun _ => id

theorem spec_responseCapabilities {r : HttpResponse} {known : ServerCapabilities} {R : Net → Prop} :
    Spec R (responseCapabilities r known) (fun _ => R) fun _ => R := by
  rw [responseCapabilities]
  rcases r.dropped with _ | e
  · rcases r.capabilities with _ | caps
    · exact spec_throw _ fun _ => id
    · dsimp only
      split_ifs
      · exact spec_pure _ fun _ => id
      · exact spec_throw _ fun _ => id
  · exact spec_throw e fun _ => id

variable {fields : List (Bytes × Bytes)}

section

variable (hsingle : singleAttempt fields = true)

include hsingle

theorem spec_postEncoded {again : Option (HttpEncoding → ServerCapabilities → Rpc (HttpResponse × ServerCapabilities))}
    (hag : ∀ f ∈ again, ∀ enc caps, Spec Ready (f enc caps) Posted fun _ => AtMostOnce) (enc : HttpEncoding)
    (known : ServerCapabilities) :
    Spec Ready (postEncoded peer call fields again enc known) Posted fun _ => AtMostOnce := by
  rw [postEncoded, hsingle]
  generalize (if call.bodySize < 1024 then HttpEncoding.none else enc) = enc
  refine spec_sendHttp.bind fun reply => ?_
  rcases reply with e | r
  · exact spec_throw e fun n hn => hn.1
  refine Spec.bind (spec_responseCapabilities.weaken fun _ n hn => hn.1) fun caps => ?_
  split
  · rename_i h401
    exact spec_pure _ fun n hn => ⟨hn.1, fun _ => hn.2 (.inl (congrArg Answer.status h401))⟩
  rcases again with _ | f
  · exact (spec_readResponse _ _).pre fun n hn => hn.1
  split_ifs with hcd
  · -- the request is encoded anew only after 415
    have h415 : r.status = 415 := hcd.1.resolve_left (not_not.2 rfl)
    exact (hag f rfl _ _).pre fun n hn => hn.2 (.inr (congrArg Answer.status h415))
  · exact (spec_readResponse _ _).pre fun n hn => hn.1

theorem spec_httpPostArrowIpcInternal (enc : HttpEncoding) (known : ServerCapabilities) :
    Spec Ready (httpPostArrowIpcInternal peer call fields enc known) Posted fun _ => AtMostOnce := by
  refine spec_postEncoded hsingle (fun f hf enc caps => ?_) enc known
  cases hf
  exact spec_postEncoded hsingle (fun _ h => absurd h (Option.not_mem_none _)) enc caps

theorem spec_httpPostArrowIpc (caps : ServerCapabilities) :
    Spec Ready (httpPostArrowIpc peer call fields caps) (fun _ => AtMostOnce) fun _ => AtMostOnce := by
  refine (spec_httpPostArrowIpcInternal hsingle _ _).bind fun ⟨r, caps⟩ => ?_
  dsimp only
  split
  · exact spec_pure _ fun n hn => hn.1
  rename_i h401
  -- from here on, what was sent was answered by 401
  refine Spec.pre ?_ fun n hn => hn.2 (not_not.1 h401)
  rcases call.auth with _ | configured
  · exact spec_throw _ fun n => Ready.atMostOnce
  dsimp only
  by_cases hch : r.challenge
  · rw [if_pos hch]
    refine spec_attempt_ready.bind fun _ => ?_
    refine (spec_httpPostArrowIpcInternal hsingle _ _).bind fun ⟨r, caps⟩ => ?_
    split_ifs
    · exact spec_throw _ fun n hn => hn.1
    · exact spec_pure _ fun n hn => hn.1
  rw [if_neg hch]
  split_ifs
  · refine spec_attempt_ready.bind fun _ => ?_
    exact spec_throw _ fun n => Ready.atMostOnce
  · exact spec_throw _ fun n => Ready.atMostOnce

end

/-- The name of the method gets to where the request is sent. -/
theorem singleAttempt_cons {method : Bytes} (h : requiresSingleAttemptUnary method = true)
    (fields : List (Bytes × Bytes)) : singleAttempt ((ascii "rpc_method", method) :: fields) = true := by
  rw [singleAttempt, List.lookup_cons_self]
  exact h

theorem spec_currentCapabilities {caps : ServerCapabilities} :
    Spec Ready (currentCapabilities peer caps) (fun _ => Ready) fun _ => AtMostOnce := by
  refine (spec_ask (R := fun sent => ∀ a ∈ sent, a.Rejected)).bind fun expired => ?_
  split_ifs
  · exact spec_attempt_ready
  · exact spec_pure _ fun _ => id

/-- A call over HTTP transmits its request again only after it was rejected. -/
theorem httpInvokeUnary_atMostOnce {method : Bytes} (h : requiresSingleAttemptUnary method = true)
    (caps : ServerCapabilities) :
    Spec Ready (httpInvokeUnary peer call method caps) (fun _ => AtMostOnce) fun _ => AtMostOnce := by
  refine spec_currentCapabilities.bind fun caps => ?_
  split_ifs
  · exact spec_throw _ fun n => Ready.atMostOnce
  · refine (spec_httpPostArrowIpc (singleAttempt_cons h _) caps).bind fun caps => ?_
    exact (spec_attempt (R := fun sent => ∀ a ∈ sent.dropLast, a.Rejected)).bind fun _ => spec_pure caps fun _ => id

end

end Vgi
