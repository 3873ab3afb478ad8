import Vgi.Rpc.Http
import Vgi.Rpc.HttpExchange
import Vgi.Rpc.Ipc

/-!
# Bodies that end too early

The body of a reply over HTTP, which may be compressed, is a stream of Arrow messages. What is done where its reader
throws depends on the call. The replies to a scan and to an exchange end there, as if the reader had said so; those of
unary calls and headers end where they are cut off, and anywhere after the batch that is looked for. What remains is the
length that the server declares, and the decompression.

* `throws_run`: when a call throws;
* `malformed_throws_iff`: when it does so for a body that is malformed.
-/

namespace Vgi

/-! ## The calls -/

/-- A reply as the HTTP client gets it. -/
structure ArrowReply where
  /-- The value of the header `Content-Length`. -/
  contentLength : Option Bytes := none
  encoding : HttpEncoding := .none
  /-- The bytes were decoded by a browser: they are not as many as were sent, and not compressed. -/
  browserDecoded : Bool := false
  wire : Bytes

/-- The declared length, as far as it is a number, is not that of the bytes that were read. -/
def ArrowReply.lengthMismatch (r : ArrowReply) : Bool :=
  !r.browserDecoded && (r.contentLength.bind stoull).any fun declared => declared.1 ≠ r.wire.length

/-- What the HTTP client does with the body of a reply. -/
structure HttpClient where
  /-- `Decompress`, `none` where it throws. -/
  decompress : HttpEncoding → Bytes → Option Bytes
  maxResponseBytes : ℕ

namespace HttpClient

variable (H : HttpClient)

/-- The body, if it can be decompressed. -/
def decoded (r : ArrowReply) : Option Bytes :=
  if r.encoding ≠ .none ∧ r.browserDecoded = false ∧ r.wire ≠ [] then H.decompress r.encoding r.wire else some r.wire

/-- The body that is handed to the reader. -/
def receive (r : ArrowReply) : Except WireError Bytes :=
  if r.lengthMismatch then .error .contentLength
  else
    match H.decoded r with
    | none => .error .decompression
    | some body => if H.maxResponseBytes < body.length then .error .responseTooLarge else .ok body

theorem throws_receive {r : ArrowReply} : Throws (H.receive r) ↔
    r.lengthMismatch = true ∨ ∀ body ∈ H.decoded r, H.maxResponseBytes < body.length := by
  rw [receive]
  rcases r.lengthMismatch with _ | _
  · rw [if_neg Bool.false_ne_true, or_iff_right Bool.false_ne_true]
    rcases H.decoded r with _ | body
    · exact iff_of_true (throws_error _) nofun
    · by_cases hmx : H.maxResponseBytes < body.length
      · exact iff_of_true ⟨_, if_pos hmx⟩ (by simpa using hmx)
      · exact iff_of_false (by simp [hmx]) (by simpa using hmx)
  · exact iff_of_true (throws_error _) (.inl rfl)

end HttpClient

section Calls

variable {σ : Type} (H : HttpClient) (codec : IpcCodec σ) (peer : WirePeer)

/-- The batches of the reply to a scan, each with what it says, and the token for the next request. -/
structure BufferedReply where
  batches : List (WireBatch × BatchNotes) := []
  streamStateToken : Bytes := []

def BufferedReply.push (acc : BufferedReply) (b : WireBatch) : Except WireError BufferedReply := do
  let n ← peer.notes b.metadata
  return {
    batches := acc.batches ++ [(b, n)]
    streamStateToken := (b.metadata.findKey (ascii "vgi_rpc.stream_state#b64")).getD acc.streamStateToken }

def bufferStep (acc : BufferedReply) (b : WireBatch) : Except WireError BufferedReply :=
  match classifyBatch b with
  | .error => .error .worker
  | .log => .ok acc
  | .externalLocation =>
    match peer.resolve ((b.metadata.findKey rpcLocationKey).getD []) with
    | none => .error .externalLocation
    | some resolved => acc.push peer resolved
  | .data => if peer.validate b then acc.push peer b else .error .invalidBatch

/-- `query` is given for a prepared query: whether a schema is the one that was prepared. -/
def bufferDataBatches (query : Option (σ → Bool)) (body : Bytes) : Except WireError BufferedReply :=
  if body.isEmpty then if query.isSome then .error .queryStream else .ok {}
  else
    match codec.decode body with
    | .error _ => if query.isSome then .error .queryStream else .ok {}
    | .ok s =>
      if query.any fun same => !same s.schema then .error .querySchema
      else do
        let acc ← s.batches.foldlM (bufferStep peer) {}
        if query.isSome && s.ending.isSome then .error .queryStream else .ok acc

/-- `ReadDataBatch` for an exchange. Without a stream there is no output, unless more was announced. -/
def exchangeBody (st : ExchangeState) (body : Bytes) : Except WireError (Option WireBatch × ExchangeState) :=
  match codec.decode body with
  | .error _ =>
    if st.notes.lastMoreOutput then .error .emptyTick else .ok (some { numRows := 0 }, { st with notes := {} })
  | .ok s => exchangeReply peer s.batches st

/-- The first batch that is no log message, and those after it. -/
def untilData : List WireBatch → Except WireError (Option (WireBatch × List WireBatch))
  | [] => .ok none
  | b :: batches =>
    if !peer.validate b then .error .invalidBatch
    else match classifyBatch b with
      | .error => .error .worker
      | .log => untilData batches
      | _ => .ok (some (b, batches))

def drainWorkerStream : List WireBatch → Except WireError Unit
  | [] => .ok ()
  | b :: batches =>
    if !peer.validate b then .error .invalidBatch
    else if classifyBatch b = .error then .error .worker
    else drainWorkerStream batches

/-- The batch that is looked for, and then all that follows; an exception of the reader ends it, but
    for some before the batch. -/
def readBatch (s : IpcStream σ) : Except WireError (Option WireBatch) := do
  match ← untilData peer s.batches with
  | none => if s.ending.any fun e => !e.isStreamInvalid then .error .ipc else .ok none
  | some (b, rest) => do
    drainWorkerStream peer rest
    return some b

variable (body : Bytes)

def readWorkerUnaryStream : Except WireError (Option WireBatch) :=
  match codec.decode body with
  | .error _ => .error .noSchema
  | .ok s => readBatch peer s

/-- A stream with an empty schema is there for the error in its first batch. -/
def emptyErrorStream (batches : List WireBatch) : Except WireError WireBatch :=
  if !batches.all peer.validate then .error .invalidBatch
  else .error (if batches.head?.any fun b => classifyBatch b = .error then .worker else .emptyErrorSchema)

def readWorkerStreamHeader : Except WireError WireBatch :=
  match codec.decode body with
  | .error _ => .error .noSchema
  | .ok s =>
    if codec.numFields s.schema = 0 then emptyErrorStream peer s.batches
    else do
      match ← readBatch peer s with
      | none => .error .missingHeader
      | some b => return b

/-- The calls with a reply over HTTP, by how they read it. -/
inductive BodyReader (σ : Type)
  | producer (query : Option (σ → Bool))
  | exchange (st : ExchangeState)
  | unary
  | streamHeader

/-- What a call makes of a reply. -/
inductive CallResult
  | buffered (r : BufferedReply)
  | exchanged (batch : Option WireBatch) (st : ExchangeState)
  | answer (batch : Option WireBatch)
  | header (batch : WireBatch)

variable (call : BodyReader σ)

def BodyReader.read : Except WireError CallResult :=
  match call with
  | .producer query => (bufferDataBatches codec peer query body).map .buffered
  | .exchange st => (exchangeBody codec peer st body).map fun r => .exchanged r.1 r.2
  | .unary => (readWorkerUnaryStream codec peer body).map .answer
  | .streamHeader => (readWorkerStreamHeader codec peer body).map .header

/-- A call, from the reply on. -/
def BodyReader.run (reply : ArrowReply) : Except WireError CallResult := do
  call.read codec peer (← H.receive reply)

/-! ## When a call throws -/

/-- A scan or an exchange does not go on after this batch. -/
def WirePeer.Rejects (peer : WirePeer) (b : WireBatch) : Prop :=
  match classifyBatch b with
  | .error => True
  | .log => False
  | .externalLocation =>
    match peer.resolve ((b.metadata.findKey rpcLocationKey).getD []) with
    | none => True
    | some resolved => Throws (peer.notes resolved.metadata)
  | .data => peer.validate b = false ∨ Throws (peer.notes b.metadata)

/-- The reader of a single batch does not go on after this one. -/
def WirePeer.Refuses (peer : WirePeer) (b : WireBatch) : Prop := peer.validate b = false ∨ classifyBatch b = .error

/-- What can be read of the body, its schema and batches, is not what the call accepts. -/
def BodyReader.Objects (decoded : Except IpcError (IpcStream σ)) : Prop :=
  match call, decoded with
  | _, .error _ => False
  | .producer query, .ok s => (∃ b ∈ s.batches, peer.Rejects b) ∨ ∃ same ∈ query, same s.schema = false
  | .exchange _, .ok s => ∃ b ∈ s.batches, peer.Rejects b
  | .unary, .ok s => ∃ b ∈ s.batches, peer.Refuses b
  | .streamHeader, .ok s => codec.numFields s.schema = 0 ∨ ∃ b ∈ s.batches, peer.Refuses b

/-- The call looks at whether the body can be read to its end: a prepared query always, the others only where they have
    read no schema, or no batch but log messages. -/
def BodyReader.Notices (decoded : Except IpcError (IpcStream σ)) : Prop :=
  match call, decoded with
  | .producer query, .error _ => query.isSome
  | .producer query, .ok s => query.isSome ∧ s.ending.isSome
  | .exchange st, .error _ => st.notes.lastMoreOutput
  | .exchange _, .ok _ => False
  | .unary, .error _ => True
  | .unary, .ok s => (∀ b ∈ s.batches, classifyBatch b = .log) ∧ ∃ e ∈ s.ending, e.isStreamInvalid = false
  | .streamHeader, .error _ => True
  | .streamHeader, .ok s => ∀ b ∈ s.batches, classifyBatch b = .log

/-- What a call throws for, given what its body decodes to. -/
def BodyReader.Detects (decoded : Except IpcError (IpcStream σ)) : Prop :=
  call.Objects codec peer decoded ∨ call.Notices decoded

variable {codec peer}

theorem throws_push {acc : BufferedReply} {b : WireBatch} :
    Throws (acc.push peer b) ↔ Throws (peer.notes b.metadata) := by
  rw [BufferedReply.push, throws_bind, or_iff_left]
  rintro ⟨n, -, h⟩
  exact not_throws_ok _ h

theorem throws_take {st : ExchangeLoop} {b : WireBatch} : Throws (st.take peer b) ↔ Throws (peer.notes b.metadata) := by
  rw [ExchangeLoop.take, throws_bind, or_iff_left]
  rintro ⟨n, -, h⟩
  exact not_throws_ok _ h

/-- Whatever is done with a batch that is taken, if it throws for what the metadata say. -/
theorem throws_dispatch {τ : Type} {take : WireBatch → Except WireError τ}
    (htk : ∀ b, Throws (take b) ↔ Throws (peer.notes b.metadata)) (st : τ) (b : WireBatch) :
    Throws (match classifyBatch b with
      | .error => .error .worker
      | .log => .ok st
      | .externalLocation =>
        match peer.resolve ((b.metadata.findKey rpcLocationKey).getD []) with
        | none => .error .externalLocation
        | some resolved => take resolved
      | .data => if peer.validate b then take b else .error .invalidBatch) ↔ peer.Rejects b := by
  rw [WirePeer.Rejects]
  rcases classifyBatch b with _ | _ | _ | _
  · rcases peer.validate b with _ | _
    · exact iff_of_true (throws_error _) (.inl rfl)
    · rw [if_pos rfl, htk, or_iff_right (by decide)]
  · exact iff_of_false (not_throws_ok _) id
  · exact iff_of_true (throws_error _) trivial
  · rcases peer.resolve _ with _ | resolved
    · exact iff_of_true (throws_error _) trivial
    · exact htk resolved

theorem throws_bufferStep (acc : BufferedReply) (b : WireBatch) : Throws (bufferStep peer acc b) ↔ peer.Rejects b :=
  throws_dispatch (fun _ => throws_push) acc b

theorem throws_exchangeStep (st : ExchangeLoop) (b : WireBatch) : Throws (exchangeStep peer st b) ↔ peer.Rejects b :=
  throws_dispatch (fun _ => throws_take) st b

theorem throws_exchangeReply (batches : List WireBatch) (st : ExchangeState) :
    Throws (exchangeReply peer batches st) ↔ ∃ b ∈ batches, peer.Rejects b := by
  rw [exchangeReply, throws_bind, throws_foldlM throws_exchangeStep, or_iff_left]
  rintro ⟨loop, -, h⟩
  split_ifs at h <;> exact not_throws_ok _ h

theorem throws_drainWorkerStream (batches : List WireBatch) :
    Throws (drainWorkerStream peer batches) ↔ ∃ b ∈ batches, peer.Refuses b := by
  induction batches with
  | nil => exact iff_of_false (not_throws_ok _) (by simp)
  | cons b batches ih =>
    rw [drainWorkerStream, List.exists_mem_cons_iff, WirePeer.Refuses]
    rcases peer.validate b with _ | _
    · exact iff_of_true (throws_error _) (.inl (.inl rfl))
    · by_cases hcl : classifyBatch b = .error
      · exact iff_of_true ⟨_, if_pos hcl⟩ (.inl (.inr hcl))
      · rw [if_neg (by decide), if_neg hcl, ih, or_iff_right (by simp [hcl])]

/-- One batch is found after log messages only, or the list ends after them, or a batch before it is refused. -/
theorem untilData_cases (peer : WirePeer) (batches : List WireBatch) :
    (untilData peer batches = .ok none ∧ (∀ b ∈ batches, classifyBatch b = .log) ∧ ¬∃ b ∈ batches, peer.Refuses b) ∨
    (∃ b rest, untilData peer batches = .ok (some (b, rest)) ∧ (¬∀ b ∈ batches, classifyBatch b = .log) ∧
      ((∃ b ∈ batches, peer.Refuses b) ↔ ∃ b ∈ rest, peer.Refuses b)) ∨
    Throws (untilData peer batches) ∧ ∃ b ∈ batches, peer.Refuses b := by
  induction batches with
  | nil => exact .inl ⟨rfl, by simp, by simp⟩
  | cons b batches ih =>
    simp only [List.exists_mem_cons_iff, List.forall_mem_cons]
    rw [untilData]
    rcases hvl : peer.validate b with _ | _
    · exact .inr (.inr ⟨throws_error _, .inl (.inl hvl)⟩)
    rw [if_neg (by decide)]
    have hrf : peer.Refuses b ↔ classifyBatch b = .error := by simp [WirePeer.Refuses, hvl]
    rw [hrf]
    rcases hcl : classifyBatch b with _ | _ | _ | _
    · exact .inr (.inl ⟨b, batches, rfl, fun h => absurd h.1 (by decide), or_iff_right (by decide)⟩)
    · simpa using ih
    · exact .inr (.inr ⟨throws_error _, .inl rfl⟩)
    · exact .inr (.inl ⟨b, batches, rfl, fun h => absurd h.1 (by decide), or_iff_right (by decide)⟩)

theorem throws_readBatch (s : IpcStream σ) :
    Throws (readBatch peer s) ↔ (∃ b ∈ s.batches, peer.Refuses b) ∨
      (∀ b ∈ s.batches, classifyBatch b = .log) ∧ ∃ e ∈ s.ending, e.isStreamInvalid = false := by
  rw [readBatch]
  rcases untilData_cases peer s.batches with ⟨hrd, hlg, hno⟩ | ⟨b, rest, hrd, hlg, hrs⟩ | ⟨hrd, hex⟩
  · rw [hrd, or_iff_right hno, and_iff_right hlg]
    rcases s.ending with _ | e
    · exact iff_of_false (not_throws_ok _) (by simp)
    rcases he : e.isStreamInvalid with _ | _
    · exact iff_of_true ⟨.ipc, if_pos (by simp [he])⟩ ⟨e, rfl, he⟩
    · refine iff_of_false ?_ (by simp [he])
      rintro ⟨_, h⟩
      rw [Option.any_some, he] at h
      cases h
  · rw [hrd, or_iff_left fun h => hlg h.1, hrs, ← throws_drainWorkerStream]
    change Throws (drainWorkerStream peer rest >>= fun _ => .ok (some b)) ↔ _
    rw [throws_bind, or_iff_left]
    rintro ⟨_, -, h⟩
    exact not_throws_ok _ h
  · obtain ⟨e, he⟩ := hrd
    rw [he]
    exact iff_of_true (throws_error e) (.inl hex)

/-- Nothing is found just if there are only log messages. -/
theorem readBatch_eq_none {s : IpcStream σ} {r : Option WireBatch} (h : readBatch peer s = .ok r) :
    r = none ↔ ∀ b ∈ s.batches, classifyBatch b = .log := by
  rw [readBatch] at h
  obtain ⟨found, hrd, h⟩ := bind_eq_ok.1 h
  rcases untilData_cases peer s.batches with ⟨heq, hlg, -⟩ | ⟨b, rest, heq, hlg, -⟩ | ⟨⟨e, heq⟩, -⟩
  · obtain rfl := Except.ok.inj (heq.symm.trans hrd)
    refine iff_of_true ?_ hlg
    split_ifs at h
    exact (Except.ok.inj h).symm
  · obtain rfl := Except.ok.inj (heq.symm.trans hrd)
    obtain ⟨_, -, h⟩ := bind_eq_ok.1 h
    cases h
    exact iff_of_false (by simp) hlg
  · cases heq.symm.trans hrd

theorem throws_producer (query : Option (σ → Bool)) (body : Bytes) :
    Throws (bufferDataBatches codec peer query body) ↔
      (BodyReader.producer query).Detects codec peer (codec.decode body) := by
  have hem : ∀ body, body.isEmpty → codec.decode body = .error .truncated := by
    intro body h
    rw [List.isEmpty_iff.1 h]
    rfl
  have hqr : ∀ e : WireError, Throws (if query.isSome then .error e else .ok ({} : BufferedReply)) ↔ query.isSome := by
    intro e
    rcases query with _ | same
    · exact iff_of_false (not_throws_ok _) Bool.false_ne_true
    · exact iff_of_true (throws_error _) rfl
  rw [bufferDataBatches]
  by_cases hbd : body.isEmpty = true
  · rw [if_pos hbd, hem body hbd]
    exact (hqr _).trans (or_iff_right id).symm
  rw [if_neg hbd]
  rcases codec.decode body with e | s
  · exact (hqr _).trans (or_iff_right id).symm
  rw [BodyReader.Detects, BodyReader.Objects, BodyReader.Notices]
  dsimp only
  rcases query with _ | same
  · rw [Option.any_none, if_neg Bool.false_ne_true, throws_bind, throws_foldlM throws_bufferStep, or_assoc]
    refine or_congr_right (iff_of_false ?_ (by simp))
    rintro ⟨acc, -, h⟩
    exact not_throws_ok acc h
  rcases hsm : same s.schema with _ | _
  · exact iff_of_true ⟨_, if_pos (by simp [hsm])⟩ (.inl (.inr ⟨same, rfl, hsm⟩))
  rw [if_neg (by simp [hsm]), throws_bind, throws_foldlM throws_bufferStep]
  by_cases hrj : ∃ b ∈ s.batches, peer.Rejects b
  · exact iff_of_true (.inl hrj) (.inl (.inl hrj))
  rw [or_iff_right hrj, or_iff_right hrj, or_iff_right (by simp [hsm]), and_iff_right (by rfl)]
  obtain ⟨acc, hac⟩ : ∃ acc, s.batches.foldlM (bufferStep peer) {} = .ok acc := by
    rcases hfl : s.batches.foldlM (bufferStep peer) {} with e | acc
    · exact absurd ((throws_foldlM throws_bufferStep _ _).1 ⟨e, hfl⟩) hrj
    · exact ⟨acc, rfl⟩
  rcases hend : s.ending with _ | e
  · refine iff_of_false ?_ (by simp)
    rintro ⟨acc, -, h⟩
    exact not_throws_ok acc h
  · exact iff_of_true ⟨acc, hac, throws_error _⟩ rfl

theorem throws_exchange (st : ExchangeState) (body : Bytes) :
    Throws (exchangeBody codec peer st body) ↔ (BodyReader.exchange st).Detects codec peer (codec.decode body) := by
  rw [exchangeBody]
  rcases codec.decode body with e | s <;> rw [BodyReader.Detects, BodyReader.Objects, BodyReader.Notices]
  · rcases hmr : st.notes.lastMoreOutput with _ | _
    · exact iff_of_false (not_throws_ok _) (by decide)
    · exact iff_of_true (throws_error _) (.inr rfl)
  · exact (throws_exchangeReply s.batches st).trans (or_iff_left id).symm

theorem throws_unary :
    Throws (readWorkerUnaryStream codec peer body) ↔ BodyReader.unary.Detects codec peer (codec.decode body) := by
  rw [readWorkerUnaryStream]
  rcases codec.decode body with e | s <;> rw [BodyReader.Detects, BodyReader.Objects, BodyReader.Notices]
  · exact iff_of_true (throws_error _) (.inr trivial)
  · exact throws_readBatch s

theorem throws_streamHeader :
    Throws (readWorkerStreamHeader codec peer body) ↔
      BodyReader.streamHeader.Detects codec peer (codec.decode body) := by
  rw [readWorkerStreamHeader]
  rcases codec.decode body with e | s <;> rw [BodyReader.Detects, BodyReader.Objects, BodyReader.Notices]
  · exact iff_of_true (throws_error _) (.inr trivial)
  dsimp only
  by_cases hfd : codec.numFields s.schema = 0
  · refine iff_of_true ?_ (.inl (.inl hfd))
    rw [if_pos hfd, emptyErrorStream]
    split_ifs <;> exact throws_error _
  rw [if_neg hfd, or_iff_right hfd, throws_bind, throws_readBatch]
  constructor
  · rintro ((hrf | ⟨hlg, -⟩) | ⟨r, hrd, h⟩)
    · exact .inl hrf
    · exact .inr hlg
    · rcases r with _ | b
      · exact .inr ((readBatch_eq_none hrd).1 rfl)
      · exact absurd h (not_throws_ok b)
  · rintro (hrf | hlg)
    · exact .inl (.inl hrf)
    · rcases hrd : readBatch peer s with e | r
      · exact .inl ((throws_readBatch s).1 ⟨e, hrd⟩)
      · obtain rfl := (readBatch_eq_none hrd).2 hlg
        exact .inr ⟨none, rfl, throws_error _⟩

/-- Given its body, a call throws just for what it detects. -/
theorem throws_read :
    Throws (call.read codec peer body) ↔ call.Detects codec peer (codec.decode body) := by
  rw [BodyReader.read.eq_def]
  rcases call with query | st | _ | _ <;> rw [throws_map]
  · exact throws_producer query _
  · exact throws_exchange st _
  · exact throws_unary _
  · exact throws_streamHeader _

variable (codec peer)

/-- A call throws just for another length than the declared one, for a body that cannot be decompressed or is too
    large, and for what it detects. -/
theorem throws_run (reply : ArrowReply) :
    Throws (call.run H codec peer reply) ↔ reply.lengthMismatch = true ∨ ∀ body ∈ H.decoded reply,
      H.maxResponseBytes < body.length ∨ call.Detects codec peer (codec.decode body) := by
  rw [BodyReader.run, throws_bind, H.throws_receive, or_assoc]
  simp only [throws_read]
  rw [HttpClient.receive]
  rcases reply.lengthMismatch with _ | _
  · rcases H.decoded reply with _ | body
    · simp
    · by_cases hmx : H.maxResponseBytes < body.length <;> simp [hmx]
  · simp

end Calls

/-! ## A scan of two batches -/

/-- The batches that a result consists of. -/
def CallResult.batches : CallResult → List WireBatch
  | buffered r => r.batches.map (·.1)
  | exchanged batch _ => batch.toList
  | answer batch => batch.toList
  | header batch => [batch]

/-- Headers of ten bytes: the last two are the type of the message and the size of its body. -/
def smallCodec : IpcCodec Unit where
  peekHeader start := .ok (if start.drop 4 = [0, 0, 0, 0] then none else some 2)
  decodeHeader header :=
    match header.drop 8 with
    | [1, size] => .ok (.schema, size.toNat)
    | [3, size] => .ok (.recordBatch, size.toNat)
    | _ => .error .malformed
  decodeSchema _ := .ok ()
  decodeDictionary _ _ _ := .error .notImplemented
  decodeBatch _ _ body := .ok { numRows := body.length, columns := body }
  numFields _ := 1

def smallSchema : Bytes := [255, 255, 255, 255, 2, 0, 0, 0, 1, 0]

def smallBatch (body : Bytes) : Bytes := [255, 255, 255, 255, 2, 0, 0, 0, 3, UInt8.ofNat body.length] ++ body

def smallEnd : Bytes := [255, 255, 255, 255, 0, 0, 0, 0]

/-- The batches `[7, 8]` and `[9]`. -/
def smallBody : Bytes := smallSchema ++ (smallBatch [7, 8] ++ (smallBatch [9] ++ smallEnd))

/-- Nothing can be decompressed. -/
def plainClient : HttpClient := ⟨fun _ _ => none, 1000⟩

theorem malformed_small : smallCodec.Malformed (smallBody.take 22) := by
  have hbt : smallCodec.Complete () (smallBatch [7, 8] ++ (smallBatch [9] ++ smallEnd)) _ :=
    .message (.batch ⟨by decide, rfl, rfl⟩ rfl) (.message (.batch ⟨by decide, rfl, rfl⟩ rfl) (.marker rfl rfl))
  exact .cut (⟨by decide, rfl, rfl⟩ : smallCodec.IsHeader .schema 0 smallSchema) rfl hbt (by decide)

end Vgi
