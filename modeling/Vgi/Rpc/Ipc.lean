import Vgi.Lib.Fallible
import Vgi.Rpc.Batch

/-!
# Streams of Arrow messages

A stream of record batches is a sequence of messages: the schema, then batches and the dictionaries they need, then
a marker. The reader (`IpcCodec.decode`) goes from message to message. At the marker, and also where there are
no more bytes, it says that the stream has ended; it throws within a message that is cut off or cannot be decoded
(`IpcCodec.Malformed`).
-/

namespace Vgi

/-- Exceptions of the reader. -/
inductive IpcError
  /-- Less can be read than a message has. -/
  | truncated
  | malformed
  | notImplemented
  /-- Another schema, or a message of an unknown type. -/
  | unexpectedMessage
  deriving DecidableEq

/-- `IsIpcStreamInvalid`. -/
def IpcError.isStreamInvalid : IpcError → Bool
  | unexpectedMessage => false
  | _ => true

inductive MessageType
  | schema | dictionaryBatch | recordBatch | other
  deriving DecidableEq

/-- How messages are decoded. `σ` is what the decoder knows of the stream: its schema and its dictionaries. -/
structure IpcCodec (σ : Type) where
  /-- How many bytes of the header follow its first eight; `none` for the marker of the end. -/
  peekHeader : Bytes → Except IpcError (Option ℕ)
  /-- The type of the message and the size of its body. -/
  decodeHeader : Bytes → Except IpcError (MessageType × ℕ)
  decodeSchema : Bytes → Except IpcError σ
  decodeDictionary : σ → Bytes → Bytes → Except IpcError σ
  decodeBatch : σ → Bytes → Bytes → Except IpcError WireBatch
  numFields : σ → ℕ

structure IpcHeader where
  bytes : Bytes
  type : MessageType
  bodySize : ℕ

/-- What is known of a stream when it is read to its end: `ending` is the exception it ends with, if any. -/
structure IpcStream (σ : Type) where
  schema : σ
  batches : List WireBatch
  ending : Option IpcError

namespace IpcCodec

variable {σ : Type} (codec : IpcCodec σ)

/-- The header of the next message, and what follows it. -/
def readHeader (input : Bytes) : Except IpcError (Option (IpcHeader × Bytes)) :=
  let start := input.take 8
  if start.length = 0 then .ok none
  else if start = [0, 0, 0, 0] then .ok none
  else if start.length ≠ 8 then .error .truncated
  else do
    match ← codec.peekHeader start with
    | none => return none
    | some more =>
      let rest := (input.drop 8).take more
      if rest.length ≠ more then .error .truncated
      else do
        let (type, bodySize) ← codec.decodeHeader (start ++ rest)
        return some (⟨start ++ rest, type, bodySize⟩, input.drop (8 + more))

def readBody (bodySize : ℕ) (input : Bytes) : Except IpcError (Bytes × Bytes) :=
  let body := input.take bodySize
  if body.length ≠ bodySize then .error .truncated else .ok (body, input.drop bodySize)

/-- The next message: what the decoder knows after it, its batch if it is one, and what follows it. -/
def readMessage (st : σ) (input : Bytes) : Except IpcError (Option (σ × Option WireBatch × Bytes)) := do
  match ← codec.readHeader input with
  | none => return none
  | some (header, input) =>
    match header.type with
    | .dictionaryBatch => do
      let (body, input) ← readBody header.bodySize input
      let st ← codec.decodeDictionary st header.bytes body
      return some (st, none, input)
    | .recordBatch => do
      let (body, input) ← readBody header.bodySize input
      let batch ← codec.decodeBatch st header.bytes body
      return some (st, some batch, input)
    | .schema => .error .unexpectedMessage
    | .other => .error .unexpectedMessage

/-- The batches that `ReadNext` gives one after the other, and the exception at the end. Every message takes some
    bytes, so as many rounds are enough. -/
def decodeFrom : ℕ → σ → Bytes → List WireBatch × Option IpcError
  | 0, _, _ => ([], none)
  | fuel + 1, st, input =>
    match codec.readMessage st input with
    | .error e => ([], some e)
    | .ok none => ([], none)
    | .ok (some (st, batch, input)) =>
      let next := decodeFrom fuel st input
      (batch.toList ++ next.1, next.2)

/-- `VgiIpcReader::Open`, and all that is read after it. -/
def decode (input : Bytes) : Except IpcError (IpcStream σ) := do
  match ← codec.readHeader input with
  | none => .error .truncated
  | some (header, input) =>
    if header.type ≠ .schema then .error .truncated
    else do
      let schema ← codec.decodeSchema header.bytes
      let rest := codec.decodeFrom (input.length + 1) schema input
      return { schema, batches := rest.1, ending := rest.2 }

/-! ## Complete streams -/

/-- The header of a message of a type, for a body of a size. -/
structure IsHeader (type : MessageType) (bodySize : ℕ) (header : Bytes) : Prop where
  eight_le : 8 ≤ header.length
  peek : codec.peekHeader (header.take 8) = .ok (some (header.length - 8))
  decode : codec.decodeHeader header = .ok (type, bodySize)

/-- A message that takes the decoder from one state to another, maybe with a batch. -/
inductive IsMessage : σ → σ → Option WireBatch → Bytes → Prop
  | dictionary {st st' : σ} {header body : Bytes} (h : codec.IsHeader .dictionaryBatch body.length header)
    (hdecode : codec.decodeDictionary st header body = .ok st') : IsMessage st st' none (header ++ body)
  | batch {st : σ} {header body : Bytes} {b : WireBatch} (h : codec.IsHeader .recordBatch body.length header)
    (hdecode : codec.decodeBatch st header body = .ok b) : IsMessage st st (some b) (header ++ body)

/-- Messages up to the marker of the end. -/
inductive Complete : σ → Bytes → List WireBatch → Prop
  | marker {st : σ} {eos : Bytes} (hlen : eos.length = 8) (h : codec.peekHeader eos = .ok none) : Complete st eos []
  | message {st st' : σ} {batch : Option WireBatch} {msg bytes : Bytes} {batches : List WireBatch}
    (h : codec.IsMessage st st' batch msg) (hrest : Complete st' bytes batches) :
    Complete st (msg ++ bytes) (batch.toList ++ batches)

/-- A stream that is cut off somewhere after its schema, or one that cannot be read to its end, or not at all. -/
inductive Malformed : Bytes → Prop
  | cut {head bytes : Bytes} {schema : σ} {bodySize : ℕ} {batches : List WireBatch} {k : ℕ}
    (hhead : codec.IsHeader .schema bodySize head) (hschema : codec.decodeSchema head = .ok schema)
    (hbytes : codec.Complete schema bytes batches) (hk : k < bytes.length) : Malformed (head ++ bytes.take k)
  | undecoded {body : Bytes} {s : IpcStream σ} {e : IpcError} (h : codec.decode body = .ok s)
    (hending : s.ending = some e) : Malformed body
  | unopened {body : Bytes} {e : IpcError} (hbody : body ≠ []) (h : codec.decode body = .error e) : Malformed body

end IpcCodec

end Vgi
