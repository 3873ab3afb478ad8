import Vgi.Exchange.Key

/-!
# Results of buffered table functions

A buffered table function takes its whole input before it returns anything, and its result is stored under
the static key of the call with a digest of the input (`BufferedCall.cacheKey`). A later call with that key
replays the result, and the worker is told nothing.

The init request that the worker would be sent (`BufferedFunction.initRequest`) has more in it than the key:
above all what the optimizer pushed into the function (`LogicalGet.rewriteBuffered`), and the columns of the
input. Neither does the digest tell columns: it adds up hashes of the values, over no rows it is the same for
all columns.

* `InputDigest.ofThreads_ne_iff`: the second lane of the digest tells no inputs apart that the first one does not;
* `served_iff`: which executions have one key;
* `served_requests_iff`: when a call that is served another one's result would have asked for the same;
* `served_shape_iff`: when the result has the columns that the call is bound to;
* `reordered_unserved_iff`: when a function that asks for the order of its input is not served the result of
  another order.
-/

namespace Vgi

/-! ## What is told to the worker -/

/-- A column of a schema. -/
structure Column (Typ : Type) where
  name : Bytes
  typ : Typ
  deriving DecidableEq

/-- The bind data of a table function with an input. -/
structure BufferedBind (V Typ : Type) where
  attach : ExchangeAttach
  attachOpaqueData : Bytes := []
  transactionOpaqueData : Bytes := []
  functionName : Bytes
  schemaName : Bytes := []
  /-- The batch of the arguments, serialised. -/
  arguments : Option Bytes := none
  argumentNames : Option (List (Option Bytes)) := none
  settings : StringMap V := ⟨[], StringMap.sorted_nil⟩
  /-- The secrets in the bind request, serialised. -/
  secrets : Bytes := []
  resolvedSecretsProvided : Bool := false
  secretDependent : Bool := false
  secretScope : Bytes := []
  inputSchema : List (Column Typ)
  /-- What the worker answered when the call was bound. -/
  outputSchema : List (Column Typ)
  opaqueData : Bytes := []
  sinkOrderDependent : Bool := false
  requiresInputBatchIndex : Bool := false
  projectionPushdown : Bool := false

inductive InitPhase
  | tableBuffering
  | tableBufferingFinalize
  deriving DecidableEq

/-- The bind request, which is part of every init request. -/
structure BindCall (V Typ : Type) where
  functionName : Bytes
  arguments : Option Bytes
  inputSchema : List (Column Typ)
  settings : StringMap V
  secrets : Bytes
  attachOpaqueData : Bytes
  transactionOpaqueData : Bytes
  resolvedSecretsProvided : Bool
  schemaName : Bytes
  argumentNames : Option (List (Option Bytes))

structure InitRequest (V Typ : Type) where
  bindCall : BindCall V Typ
  outputSchema : List (Column Typ)
  bindOpaqueData : Option Bytes
  projectionIds : Option (List ℤ)
  pushdownFilters : Option Bytes
  joinKeys : Option (List Bytes)
  phase : InitPhase
  finalizeStateId : Option Bytes
  executionId : Option Bytes

/-- `BytesOrNull`, also of lists that are no bytes. -/
def orNull {α : Type*} : List α → Option (List α)
  | [] => none
  | a :: l => some (a :: l)

theorem orNull_inj {α : Type*} {l l' : List α} (h : orNull l = orNull l') : l = l' := by
  rcases l with _ | ⟨a, l⟩
  · rcases l' with _ | ⟨b, l'⟩
    · rfl
    · exact absurd h (Option.some_ne_none _).symm
  · rcases l' with _ | ⟨b, l'⟩
    · exact absurd h (Option.some_ne_none _)
    · exact Option.some.inj h

variable {V Typ F Cell : Type}

/-- The operator. Nothing is projected unless the worker takes projections. -/
structure BufferedFunction (V Typ : Type) where
  bind : BufferedBind V Typ
  projectionIds : List ℤ
  pushdownFilters : Option Bytes
  joinKeysBuffers : List Bytes
  unprojected : bind.projectionPushdown = false → projectionIds = []

/-- A scan of a table function in the plan; `none` is a virtual column. -/
structure LogicalGet (V Typ F : Type) where
  bind : BufferedBind V Typ
  names : List Bytes
  columnIds : List (Option ℕ)
  projectionIds : List ℕ := []
  tableFilters : List F := []

namespace LogicalGet

/-- A column of the worker, or the row id. -/
def workerColumn : Option ℕ → ℤ
  | none => -1
  | some i => i

/-- The columns the parent wants, if the worker takes projections. -/
def projection (get : LogicalGet V Typ F) : List ℤ :=
  if get.bind.projectionPushdown && !get.columnIds.isEmpty then
    if get.projectionIds.isEmpty then get.columnIds.map workerColumn
    else get.projectionIds.map fun i => workerColumn (get.columnIds.getD i none)
  else []

/-- The scan becomes the operator, with the filters that were pushed into it; `serialize` gives their bytes and
    the buffers of join keys, or throws. -/
def rewriteBuffered (serialize : List (Option ℕ) → List Bytes → List F → Except Bytes (Option Bytes × List Bytes))
    (get : LogicalGet V Typ F) : Except Bytes (BufferedFunction V Typ) := do
  let (filters, joinKeys) ←
    if get.tableFilters.isEmpty then .ok (none, [])
    else serialize get.columnIds get.names get.tableFilters
  return {
    bind := get.bind
    projectionIds := get.projection
    pushdownFilters := filters
    joinKeysBuffers := joinKeys
    unprojected := fun h => by rw [projection, h]; rfl }

end LogicalGet

namespace BufferedFunction

variable (f : BufferedFunction V Typ)

def bindCall : BindCall V Typ where
  functionName := f.bind.functionName
  arguments := f.bind.arguments
  inputSchema := f.bind.inputSchema
  settings := f.bind.settings
  secrets := f.bind.secrets
  attachOpaqueData := f.bind.attachOpaqueData
  transactionOpaqueData := f.bind.transactionOpaqueData
  resolvedSecretsProvided := f.bind.resolvedSecretsProvided
  schemaName := f.bind.schemaName
  argumentNames := f.bind.argumentNames

def initRequest (phase : InitPhase) (executionId : Bytes)
    (finalizeStateId : Option Bytes) : InitRequest V Typ where
  bindCall := f.bindCall
  outputSchema := f.bind.outputSchema
  bindOpaqueData := orNull f.bind.opaqueData
  projectionIds := orNull f.projectionIds
  pushdownFilters := f.pushdownFilters.bind orNull
  joinKeys := orNull f.joinKeysBuffers
  phase := phase
  finalizeStateId := finalizeStateId
  executionId := orNull executionId

/-- The same requests, in every phase, apart from the ids of the execution. -/
def SameRequests (f f' : BufferedFunction V Typ) : Prop :=
  ∀ phase executionId finalizeStateId,
    f.initRequest phase executionId finalizeStateId = f'.initRequest phase executionId finalizeStateId

/-- What is in a request and not in the key, or only as a text or a digest of it. -/
structure ToldAlike (f f' : BufferedFunction V Typ) : Prop where
  pushdownFilters : f.pushdownFilters.bind orNull = f'.pushdownFilters.bind orNull
  joinKeysBuffers : f.joinKeysBuffers = f'.joinKeysBuffers
  inputSchema : f.bind.inputSchema = f'.bind.inputSchema
  outputSchema : f.bind.outputSchema = f'.bind.outputSchema
  opaqueData : f.bind.opaqueData = f'.bind.opaqueData
  arguments : f.bind.arguments = f'.bind.arguments
  argumentNames : f.bind.argumentNames = f'.bind.argumentNames
  settings : f.bind.settings = f'.bind.settings
  secrets : f.bind.secrets = f'.bind.secrets
  resolvedSecretsProvided : f.bind.resolvedSecretsProvided = f'.bind.resolvedSecretsProvided
  attachOpaqueData : f.bind.attachOpaqueData = f'.bind.attachOpaqueData
  transactionOpaqueData : f.bind.transactionOpaqueData = f'.bind.transactionOpaqueData

variable {f f' : BufferedFunction V Typ}

theorem SameRequests.toldAlike (h : f.SameRequests f') : f.ToldAlike f' := by
  have hreq := h .tableBuffering [] none
  simp only [initRequest, bindCall, InitRequest.mk.injEq, BindCall.mk.injEq, and_true] at hreq
  obtain ⟨⟨-, har, hin, hset, hsc, hat, htx, hrs, -, hnm⟩, hot, hop, -, hfl, hjn⟩ := hreq
  exact ⟨hfl, orNull_inj hjn, hin, hot, orNull_inj hop, har, hnm, hset, hsc, hrs, hat, htx⟩

theorem ToldAlike.sameRequests (h : f.ToldAlike f') (hfn : f.bind.functionName = f'.bind.functionName)
    (hsc : f.bind.schemaName = f'.bind.schemaName) (hpr : f.projectionIds = f'.projectionIds) :
    f.SameRequests f' := by
  intro phase executionId finalizeStateId
  simp only [initRequest, bindCall, InitRequest.mk.injEq, BindCall.mk.injEq, and_true]
  exact ⟨⟨hfn, h.arguments, h.inputSchema, h.settings, h.secrets, h.attachOpaqueData, h.transactionOpaqueData,
    h.resolvedSecretsProvided, hsc, h.argumentNames⟩, h.outputSchema, congrArg _ h.opaqueData,
    congrArg _ hpr, h.pushdownFilters, congrArg _ h.joinKeysBuffers⟩

/-- The types that a batch is expected to have; `none` for a column that the worker does not have. -/
def expected : List (Option Typ) :=
  if f.projectionIds.isEmpty then f.bind.outputSchema.map fun col => some col.typ
  else f.projectionIds.map fun id => if 0 ≤ id then (f.bind.outputSchema[id.toNat]?).map (·.typ) else none

/-- The guard of batches on the wire, by the types of their columns; it is not run on what is replayed. -/
def accepts [DecidableEq Typ] (batch : List Typ) : Bool :=
  batch.length = f.expected.length && (List.zipWith (fun typ expect => expect.all (· = typ)) batch f.expected).all id

end BufferedFunction

/-! ## The key -/

/-- The sums over the rows: of their hashes, of their hashes mixed, and their number. -/
structure InputDigest where
  sumLo : UInt64 := 0
  sumHi : UInt64 := 0
  rowCount : UInt64 := 0
  deriving DecidableEq

/-- What the threads of a sink take: each some chunks of rows. -/
abbrev SinkInput (Cell : Type) := List (List (List (List Cell)))

namespace InputDigest

def addRow (d : InputDigest) (h : UInt64) : InputDigest :=
  ⟨d.sumLo + h, d.sumHi + (h * 0x9E3779B97F4A7C15 + 0x165667B19E3779F9), d.rowCount + 1⟩

def add (d d' : InputDigest) : InputDigest :=
  ⟨d.sumLo + d'.sumLo, d.sumHi + d'.sumHi, d.rowCount + d'.rowCount⟩

/-- `AccumulateInputDigest`, over the rows of a chunk with that many columns. -/
def accumulate (rowHash : List Cell → UInt64) (columnCount : ℕ) (d : InputDigest) (chunk : List (List Cell)) :
    InputDigest :=
  if columnCount = 0 then d else chunk.foldl (fun d row => d.addRow (rowHash row)) d

/-- The digests of the threads, each over the chunks that it took, added up. -/
def ofThreads (rowHash : List Cell → UInt64) (columnCount : ℕ) (input : SinkInput Cell) : InputDigest :=
  input.foldl (fun d chunks => d.add (chunks.foldl (accumulate rowHash columnCount) {})) {}

/-- Eight bytes, the lowest first. -/
def bytes (v : UInt64) : Bytes := (List.range 8).map fun i => (v.toNat / 2 ^ (8 * i)).toUInt8

def finalize (sha256Hex : Bytes → Bytes) (d : InputDigest) : Bytes :=
  sha256Hex (bytes d.sumLo ++ bytes d.sumHi ++ bytes d.rowCount)

/-- The digest of rows with these hashes: the second lane is made of the first one and the number of rows. -/
def ofHashes (hs : List UInt64) : InputDigest :=
  ⟨hs.sum, hs.sum * 0x9E3779B97F4A7C15 + UInt64.ofNat hs.length * 0x165667B19E3779F9, UInt64.ofNat hs.length⟩

theorem ofHashes_append (hs hs' : List UInt64) : ofHashes (hs ++ hs') = (ofHashes hs).add (ofHashes hs') := by
  simp only [ofHashes, add, List.sum_append, List.length_append, UInt64.ofNat_add, mk.injEq, true_and, and_true]
  grind

theorem add_ofHashes_nil (d : InputDigest) : d.add (ofHashes []) = d := by
  simp [ofHashes, add]

theorem empty_add (d : InputDigest) : ({} : InputDigest).add d = d := by
  simp [add]

theorem add_assoc (d₁ d₂ d₃ : InputDigest) : (d₁.add d₂).add d₃ = d₁.add (d₂.add d₃) := by
  simp only [add, UInt64.add_assoc]

/-- A fold that adds a digest for each element. -/
theorem foldl_ofHashes {α : Type} {f : InputDigest → α → InputDigest} {g : α → List UInt64}
    (h : ∀ d x, f d x = d.add (ofHashes (g x))) (xs : List α) (d : InputDigest) :
    xs.foldl f d = d.add (ofHashes (xs.flatMap g)) := by
  induction xs generalizing d with
  | nil => exact (add_ofHashes_nil d).symm
  | cons x xs ih => rw [List.foldl_cons, ih, h, List.flatMap_cons, ofHashes_append, add_assoc]

variable (rowHash : List Cell → UInt64) (columnCount : ℕ)

/-- The hashes of the rows, over the threads and their chunks. -/
def rowHashes (input : SinkInput Cell) : List UInt64 :=
  input.flatMap fun chunks => chunks.flatMap fun chunk => if columnCount = 0 then [] else chunk.map rowHash

theorem accumulate_eq (d : InputDigest) (chunk : List (List Cell)) :
    d.accumulate rowHash columnCount chunk = d.add (ofHashes (if columnCount = 0 then [] else chunk.map rowHash)) := by
  rw [accumulate]
  split_ifs
  · exact (add_ofHashes_nil d).symm
  · rw [List.map_eq_flatMap]
    refine foldl_ofHashes (fun d row => ?_) chunk d
    simp [addRow, add, ofHashes]

theorem ofThreads_eq (input : SinkInput Cell) :
    ofThreads rowHash columnCount input = ofHashes (rowHashes rowHash columnCount input) := by
  have hth : ∀ (d : InputDigest) chunks, d.add (chunks.foldl (accumulate rowHash columnCount) {}) =
      d.add (ofHashes (rowHashes rowHash columnCount [chunks])) := fun d chunks => by
    rw [foldl_ofHashes (accumulate_eq rowHash columnCount), empty_add, rowHashes, List.flatMap_singleton]
  rw [ofThreads, foldl_ofHashes hth, empty_add]
  simp only [rowHashes, List.flatMap_singleton]

/-- Two inputs have different digests iff the sums of the hashes of their rows differ, or the numbers of rows. -/
theorem ofThreads_ne_iff (input input' : SinkInput Cell) :
    ofThreads rowHash columnCount input ≠ ofThreads rowHash columnCount input' ↔
      (rowHashes rowHash columnCount input).sum ≠ (rowHashes rowHash columnCount input').sum ∨
      UInt64.ofNat (rowHashes rowHash columnCount input).length ≠
        UInt64.ofNat (rowHashes rowHash columnCount input').length := by
  rw [ofThreads_eq, ofThreads_eq, ← not_and_or, not_iff_not]
  constructor
  · intro h
    exact ⟨congrArg sumLo h, congrArg rowCount h⟩
  · rintro ⟨hsum, hlen⟩
    rw [ofHashes, ofHashes, hsum, hlen]

/-- The order of the rows, and how they are cut, are not in the digest. -/
theorem ofThreads_perm {input input' : SinkInput Cell}
    (h : input.flatten.flatten.Perm input'.flatten.flatten) :
    ofThreads rowHash columnCount input = ofThreads rowHash columnCount input' := by
  have hrw : ∀ input : SinkInput Cell, rowHashes rowHash columnCount input =
      if columnCount = 0 then [] else input.flatten.flatten.map rowHash := by
    intro input
    split_ifs with hcn <;> simp [rowHashes, hcn, List.flatten_flatten, List.map_flatten, List.flatMap_def,
      Function.comp_def]
  have hpr : (rowHashes rowHash columnCount input).Perm (rowHashes rowHash columnCount input') := by
    rw [hrw, hrw]
    split_ifs
    exacts [.nil, h.map rowHash]
  rw [ofThreads_eq, ofThreads_eq, ofHashes, ofHashes, hpr.sum_eq, hpr.length_eq]

/-- No inputs with as many rows and the same first lane differ in the second one. -/
theorem lanes_dependent : ¬∃ (Cell : Type) (rowHash : List Cell → UInt64) (columnCount : ℕ)
    (input input' : SinkInput Cell),
    (ofThreads rowHash columnCount input).rowCount = (ofThreads rowHash columnCount input').rowCount ∧
      (ofThreads rowHash columnCount input).sumLo = (ofThreads rowHash columnCount input').sumLo ∧
      (ofThreads rowHash columnCount input).sumHi ≠ (ofThreads rowHash columnCount input').sumHi := by
  rintro ⟨Cell, rowHash, columnCount, input, input', hcn, hlo, hhi⟩
  rw [ofThreads_eq, ofThreads_eq] at hcn hlo hhi
  exact hhi (congrArg₂ (fun s n => s * 0x9E3779B97F4A7C15 + n * 0x165667B19E3779F9) hlo hcn)

end InputDigest

/-- What keys are built with: the text of a setting, SHA-256, and the hash of a row, a function of its values. -/
structure DigestContext (V Cell : Type) where
  toStr : V → Bytes
  sha256Hex : Bytes → Bytes
  rowHash : List Cell → UInt64

/-- An operator in a query. -/
structure BufferedCall (V Typ : Type) where
  operator : BufferedFunction V Typ
  resultCacheSetting : Option Bool := none
  catalog : Option CatalogRef := none

namespace BufferedCall

variable (ctx : DigestContext V Cell) (x : BufferedCall V Typ)

def serializeArgumentsForKey (sha256Hex : Bytes → Bytes) : Option Bytes → Bytes
  | none => []
  | some batch => sha256Hex batch

def exchangeCall : ExchangeCall V where
  resultCacheSetting := x.resultCacheSetting
  attach := x.operator.bind.attach
  catalog := x.catalog
  functionName := x.operator.bind.functionName
  schemaName := x.operator.bind.schemaName
  canonicalArguments := serializeArgumentsForKey ctx.sha256Hex x.operator.bind.arguments
  settings := x.operator.bind.settings
  projectionIds := if x.operator.bind.projectionPushdown then x.operator.projectionIds else []
  secretDependent := x.operator.bind.secretDependent
  secretScope := x.operator.bind.secretScope
  operatorKind := ascii "buffered"

/-- The key with the digest of the whole input; `none` if the result is not cached. -/
def cacheKey (input : SinkInput Cell) : Option ResultCacheKey :=
  if x.operator.bind.sinkOrderDependent then none
  else
    match (x.exchangeCall ctx).staticKey ctx.toStr with
    | .error _ => none
    | .ok (key, _) =>
      let digest := InputDigest.ofThreads ctx.rowHash x.operator.bind.inputSchema.length input
      some { key with inputHash := digest.finalize ctx.sha256Hex }

variable {ctx x}

theorem projectionIds_exchangeCall : (x.exchangeCall ctx).projectionIds = x.operator.projectionIds := by
  rw [exchangeCall]
  by_cases hps : x.operator.bind.projectionPushdown = true
  · exact if_pos hps
  · exact (if_neg hps).trans (x.operator.unprojected (Bool.not_eq_true _ ▸ hps)).symm

/-- The result is cached. -/
def Cached (ctx : DigestContext V Cell) (x : BufferedCall V Typ) : Prop :=
  x.operator.bind.sinkOrderDependent = false ∧ ∃ keyed, (x.exchangeCall ctx).staticKey ctx.toStr = .ok keyed

variable {input : SinkInput Cell} {key : ResultCacheKey}

theorem cacheKey_eq_some :
    x.cacheKey ctx input = some key ↔ x.operator.bind.sinkOrderDependent = false ∧
      ∃ static label, (x.exchangeCall ctx).staticKey ctx.toStr = .ok (static, label) ∧
        key = { static with
          inputHash := (InputDigest.ofThreads ctx.rowHash x.operator.bind.inputSchema.length input).finalize
            ctx.sha256Hex } := by
  rw [cacheKey]
  constructor
  · intro h
    split_ifs at h with hor
    refine ⟨Bool.not_eq_true _ ▸ hor, ?_⟩
    split at h
    · cases h
    · exact ⟨_, _, ‹_›, (Option.some.inj h).symm⟩
  · rintro ⟨hor, static, label, hst, rfl⟩
    rw [if_neg (by simp [hor]), hst]

/-- The fields of two binds that their keys are built from. Arguments are told by their digests, maps by their
    texts. -/
structure BindsAlike (ctx : DigestContext V Cell) (b b' : BufferedBind V Typ) : Prop where
  workerPath : b.attach.workerPath = b'.attach.workerPath
  dataVersionSpec : b.attach.dataVersionSpec = b'.attach.dataVersionSpec
  implementationVersion : b.attach.implementationVersion = b'.attach.implementationVersion
  attachOptions : b.attach.attachOptions = b'.attach.attachOptions ∨
    MapsConfused b.attach.attachOptions b'.attach.attachOptions
  functionName : b.functionName = b'.functionName
  schemaName : b.schemaName = b'.schemaName
  arguments : serializeArgumentsForKey ctx.sha256Hex b.arguments = serializeArgumentsForKey ctx.sha256Hex b'.arguments
  settings : b.settings.mapValues ctx.toStr = b'.settings.mapValues ctx.toStr ∨
    MapsConfused (b.settings.mapValues ctx.toStr) (b'.settings.mapValues ctx.toStr)
  secretScope : (if b.secretDependent then b.secretScope else []) = if b'.secretDependent then b'.secretScope else []

/-- Two executions whose results are cached, with all that their keys have alike: the calls and the digests of what
    they are given. -/
structure KeyedAlike (ctx : DigestContext V Cell) (x y : BufferedCall V Typ)
    (input input' : SinkInput Cell) : Prop where
  unordered : x.operator.bind.sinkOrderDependent = false ∧ y.operator.bind.sinkOrderDependent = false
  eligible : (x.exchangeCall ctx).Eligible ∧ (y.exchangeCall ctx).Eligible
  scope : (x.exchangeCall ctx).scope = (y.exchangeCall ctx).scope
  version : (x.exchangeCall ctx).version = (y.exchangeCall ctx).version
  bind : BindsAlike ctx x.operator.bind y.operator.bind
  projectionIds : x.operator.projectionIds = y.operator.projectionIds
  digest : (InputDigest.ofThreads ctx.rowHash x.operator.bind.inputSchema.length input).finalize ctx.sha256Hex =
    (InputDigest.ofThreads ctx.rowHash y.operator.bind.inputSchema.length input').finalize ctx.sha256Hex

variable {y : BufferedCall V Typ} {input' : SinkInput Cell}

theorem buildKey_eq_iff {scope scope' hash hash' : Bytes} {version version' : ℤ} :
    { (x.exchangeCall ctx).buildKey ctx.toStr scope version with inputHash := hash } =
        { (y.exchangeCall ctx).buildKey ctx.toStr scope' version' with inputHash := hash' } ↔
      (scope = scope' ∧ version = version') ∧ BindsAlike ctx x.operator.bind y.operator.bind ∧
        x.operator.projectionIds = y.operator.projectionIds ∧ hash = hash' := by
  simp only [ExchangeCall.buildKey, ResultCacheKey.mk.injEq, true_and, projectionIds_exchangeCall]
  constructor
  · rintro ⟨hscp, hpt, hfn, hsc, har, hset, hop, hpr, hdt, him, hver, hsh, -, hsec⟩
    exact ⟨⟨hscp, hver⟩, ⟨hpt, hdt, him, joinOptions_eq_iff.1 hop, hfn, hsc, har, joinOptions_eq_iff.1 hset, hsec⟩,
      serializeProjectionForKey_inj hpr, hsh⟩
  · rintro ⟨⟨rfl, rfl⟩, h, hpr, rfl⟩
    exact ⟨rfl, h.workerPath, h.functionName, h.schemaName, h.arguments, joinOptions_eq_iff.2 h.settings,
      joinOptions_eq_iff.2 h.attachOptions, congrArg _ hpr, h.dataVersionSpec, h.implementationVersion, rfl, rfl, rfl,
      h.secretScope⟩

/-- The result of the one execution is found for the other exactly if they are keyed alike. -/
theorem served_iff : (∃ key, x.cacheKey ctx input = some key ∧ y.cacheKey ctx input' = some key) ↔
    KeyedAlike ctx x y input input' := by
  constructor
  · rintro ⟨key, hx, hy⟩
    obtain ⟨hor, static, label, hst, rfl⟩ := cacheKey_eq_some.1 hx
    obtain ⟨hor', static', label', hst', hkey⟩ := cacheKey_eq_some.1 hy
    obtain ⟨hel, rfl⟩ := ExchangeCall.exists_staticKey_iff.1 ⟨label, hst⟩
    obtain ⟨hel', rfl⟩ := ExchangeCall.exists_staticKey_iff.1 ⟨label', hst'⟩
    obtain ⟨⟨hscp, hver⟩, hbd, hpr, hdg⟩ := buildKey_eq_iff.1 hkey
    exact ⟨⟨hor, hor'⟩, ⟨hel, hel'⟩, hscp, hver, hbd, hpr, hdg⟩
  · rintro ⟨⟨hor, hor'⟩, ⟨hel, hel'⟩, hscp, hver, hbd, hpr, hdg⟩
    obtain ⟨label, hst⟩ := ExchangeCall.exists_staticKey_iff.2 ⟨hel, rfl⟩
    obtain ⟨label', hst'⟩ := ExchangeCall.exists_staticKey_iff.2 ⟨hel', rfl⟩
    exact ⟨_, cacheKey_eq_some.2 ⟨hor, _, _, hst, rfl⟩,
      cacheKey_eq_some.2 ⟨hor', _, _, hst', buildKey_eq_iff.2 ⟨⟨hscp, hver⟩, hbd, hpr, hdg⟩⟩⟩

/-! ## A call that is served the result of another one -/

/-- If the second execution is served the result of the first, it would have sent the same requests: unless both are
    keyed alike, and differ in what only the worker is told. -/
theorem served_requests_iff (x y : BufferedCall V Typ) (input input' : SinkInput Cell) :
    (∀ key, x.cacheKey ctx input = some key → y.cacheKey ctx input' = some key →
      x.operator.SameRequests y.operator) ↔
      (KeyedAlike ctx x y input input' → x.operator.ToldAlike y.operator) := by
  constructor
  · intro h hal
    obtain ⟨key, hx, hy⟩ := served_iff.2 hal
    exact (h key hx hy).toldAlike
  · intro h key hx hy
    have hal := served_iff.1 ⟨key, hx, hy⟩
    exact (h hal).sameRequests hal.bind.functionName hal.bind.schemaName hal.projectionIds

theorem cacheKey_perm {input' : SinkInput Cell}
    (h : input.flatten.flatten.Perm input'.flatten.flatten) : x.cacheKey ctx input = x.cacheKey ctx input' := by
  rw [cacheKey, cacheKey, InputDigest.ofThreads_perm _ _ h]

/-- The function asks for the order of its input. -/
def AsksOrder (x : BufferedCall V Typ) : Prop :=
  x.operator.bind.sinkOrderDependent = true ∨ x.operator.bind.requiresInputBatchIndex = true

/-- When the rows come in another order, or are cut in another way. -/
theorem reordered_unserved_iff (x : BufferedCall V Typ) (input input' : SinkInput Cell) :
    (x.AsksOrder → input.flatten.flatten.Perm input'.flatten.flatten →
      ¬∃ key, x.cacheKey ctx input = some key ∧ x.cacheKey ctx input' = some key) ↔
    (x.operator.bind.requiresInputBatchIndex = true → input.flatten.flatten.Perm input'.flatten.flatten →
      ¬x.Cached ctx) := by
  constructor
  · rintro h hidx hpr ⟨hor, ⟨static, label⟩, hst⟩
    have hx : x.cacheKey ctx input = some _ := cacheKey_eq_some.2 ⟨hor, _, _, hst, rfl⟩
    exact h (.inr hidx) hpr ⟨_, hx, cacheKey_perm hpr ▸ hx⟩
  · rintro h has hpr ⟨key, hx, -⟩
    -- of the two flags, the other one is looked at
    obtain ⟨hor, static, label, hst, -⟩ := cacheKey_eq_some.1 hx
    have hidx := has.resolve_left (Bool.eq_false_iff.1 hor)
    exact h hidx hpr ⟨hor, _, hst⟩

end BufferedCall

inductive SmallColumnType
  | integer
  | bigint
  deriving DecidableEq

/-- A sum over a column, with the type of the column. -/
def sumBind (typ : SmallColumnType) : BufferedBind Bytes SmallColumnType where
  attach := { workerPath := ascii "w", identityFingerprint := ascii "anonymous" }
  functionName := ascii "sum_all"
  inputSchema := [⟨ascii "a", typ⟩]
  outputSchema := [⟨ascii "total", typ⟩]

/-- `FROM sum_all(…) WHERE …`. -/
def sumWhere (condition : String) : LogicalGet Bytes SmallColumnType Bytes where
  bind := sumBind .integer
  names := [ascii "total"]
  columnIds := [some 0]
  tableFilters := [ascii condition]

/-- Filters that are written one after the other. -/
def plainFilters (_ : List (Option ℕ)) (_ : List Bytes) (filters : List Bytes) :
    Except Bytes (Option Bytes × List Bytes) := .ok (some filters.flatten, [])

def sumFunction (typ : SmallColumnType) (filters : Option Bytes) : BufferedFunction Bytes SmallColumnType :=
  ⟨sumBind typ, [], filters, [], fun _ => rfl⟩

/-- The static key has nothing of the filters and of the types. -/
theorem cacheKey_sumFunction (ctx : DigestContext Bytes Cell) (typ typ' : SmallColumnType)
    (filters filters' : Option Bytes) (input : SinkInput Cell) :
    ∃ key, BufferedCall.cacheKey ctx { operator := sumFunction typ filters } input = some key ∧
      BufferedCall.cacheKey ctx { operator := sumFunction typ' filters' } input = some key :=
  ⟨_, rfl, rfl⟩

/-- A function that is sent the rows with their place is served the result of another order. -/
theorem batch_index_ignored : ∃ x : BufferedCall Bytes SmallColumnType,
    x.operator.bind.requiresInputBatchIndex = true ∧ ∀ ctx : DigestContext Bytes ℤ,
      ∃ key, x.cacheKey ctx [[[[1], [2]]]] = some key ∧ x.cacheKey ctx [[[[2]], [[1]]]] = some key := by
  refine ⟨{ operator := ⟨{ sumBind .integer with requiresInputBatchIndex := true }, [], none, [], fun _ => rfl⟩ }, rfl,
    fun ctx => ⟨_, rfl, BufferedCall.cacheKey_perm ?_⟩⟩
  decide

/-- A query with one filter is served the rows of another one. -/
theorem filters_ignored :
    ∃ f f' : BufferedFunction Bytes SmallColumnType,
      (sumWhere "total=1").rewriteBuffered plainFilters = .ok f ∧
      (sumWhere "total=2").rewriteBuffered plainFilters = .ok f' ∧
      (∀ ctx (input : SinkInput ℤ), ∃ key,
        BufferedCall.cacheKey ctx { operator := f } input = some key ∧
        BufferedCall.cacheKey ctx { operator := f' } input = some key) ∧ ¬f.SameRequests f' := by
  refine ⟨sumFunction .integer (some (ascii "total=1")), sumFunction .integer (some (ascii "total=2")), rfl, rfl,
    fun ctx input => cacheKey_sumFunction ctx _ _ _ _ input, fun h => ?_⟩
  exact absurd h.toldAlike.pushdownFilters (by decide)

namespace BufferedCall

variable {ctx : DigestContext V Cell}

theorem accepts_congr [DecidableEq Typ] {f f' : BufferedFunction V Typ}
    (hot : f.bind.outputSchema = f'.bind.outputSchema) (hpr : f.projectionIds = f'.projectionIds)
    (batch : List Typ) : f.accepts batch = f'.accepts batch := by
  rw [BufferedFunction.accepts, BufferedFunction.accepts, BufferedFunction.expected, BufferedFunction.expected, hot,
    hpr]

/-- If the second execution is served the result of the first, both have the same columns in and out, and every
    batch that the guard let pass into the result has the columns of the second. -/
theorem served_shape_iff [DecidableEq Typ] (x y : BufferedCall V Typ) (input input' : SinkInput Cell) :
    (∀ key, x.cacheKey ctx input = some key → y.cacheKey ctx input' = some key →
      (x.operator.bind.inputSchema = y.operator.bind.inputSchema ∧
        x.operator.bind.outputSchema = y.operator.bind.outputSchema) ∧
      ∀ batch, x.operator.accepts batch → y.operator.accepts batch) ↔
      (KeyedAlike ctx x y input input' → x.operator.bind.inputSchema = y.operator.bind.inputSchema ∧
        x.operator.bind.outputSchema = y.operator.bind.outputSchema) := by
  constructor
  · intro h hal
    obtain ⟨key, hx, hy⟩ := served_iff.2 hal
    exact (h key hx hy).1
  · intro h key hx hy
    have hal := served_iff.1 ⟨key, hx, hy⟩
    obtain ⟨hin, hot⟩ := h hal
    exact ⟨⟨hin, hot⟩, fun batch hbt => accepts_congr hot hal.projectionIds batch ▸ hbt⟩

end BufferedCall

/-- The same values in columns of another type: a batch of 32-bit integers is replayed to a scan that is bound to
    64-bit ones. -/
theorem types_ignored :
    (∀ ctx (input : SinkInput ℤ), ∃ key,
      BufferedCall.cacheKey ctx { operator := sumFunction .integer none } input = some key ∧
      BufferedCall.cacheKey ctx { operator := sumFunction .bigint none } input = some key) ∧
    (sumFunction .integer none).bind.inputSchema ≠ (sumFunction .bigint none).bind.inputSchema ∧
    (sumFunction .integer none).accepts [.integer] = true ∧ (sumFunction .bigint none).accepts [.integer] = false :=
  ⟨fun ctx input => cacheKey_sumFunction ctx _ _ _ _ input, by decide, by decide, by decide⟩

end Vgi
