import Vgi.Lib.Fallible
import Vgi.Lib.Frame
import Vgi.Rpc.Batch

/-!
# The reply to an exchange over HTTP

The body of a reply is a stream of batches: log messages, the batch with the output, and after it batches
without rows that carry the token for the next request. All of them but the log messages go through one loop
(`exchangeStep`), which notes what their metadata say in members of the connection. Of most of these a batch that
says nothing leaves what an earlier one said; not so of the rows that the output was made from.

* `accurate_iff`: when what is noted is what came with the output.
-/

namespace Vgi

open List BatchNotes

/-- The members of a connection that say something about the last reply. -/
structure ReplyNotes where
  lastBatchIndex : ℕ := invalidIndex
  lastPartitionValuesBytes : Bytes := []
  lastParentRowBytes : Bytes := []
  lastCacheControl : CacheControl := {}
  lastMoreOutput : Bool := false
  deriving DecidableEq

attribute [ext] ReplyNotes

/-- Note what a batch says. -/
def ReplyNotes.absorb (r : ReplyNotes) (n : BatchNotes) : ReplyNotes where
  lastBatchIndex := if n.batchIndex ≠ invalidIndex then n.batchIndex else r.lastBatchIndex
  lastPartitionValuesBytes := if n.partitionValues ≠ [] then n.partitionValues else r.lastPartitionValuesBytes
  lastParentRowBytes := n.parentRow
  lastCacheControl := if n.cacheControl.present then n.cacheControl else r.lastCacheControl
  lastMoreOutput := n.moreOutput || r.lastMoreOutput

/-- Where the loop stands. -/
structure ExchangeLoop where
  notes : ReplyNotes := {}
  newStateToken : Bytes := []
  outputBatch : Option WireBatch := none
  deriving DecidableEq

section Loop

variable (peer : WirePeer)

/-- Take a batch that is no log message. -/
def ExchangeLoop.take (st : ExchangeLoop) (b : WireBatch) : Except WireError ExchangeLoop := do
  let n ← peer.notes b.metadata
  return {
    notes := st.notes.absorb n
    newStateToken := n.streamState
    outputBatch := st.outputBatch.or (some b) }

def exchangeStep (st : ExchangeLoop) (b : WireBatch) : Except WireError ExchangeLoop :=
  match classifyBatch b with
  | .error => .error .worker
  | .log => .ok st
  | .externalLocation =>
    match peer.resolve ((b.metadata.findKey rpcLocationKey).getD []) with
    | none => .error .externalLocation
    | some resolved => st.take peer resolved
  | .data => if peer.validate b then st.take peer b else .error .invalidBatch

/-- What a connection knows after a reply. -/
structure ExchangeState where
  notes : ReplyNotes := {}
  streamStateToken : Bytes := []
  dataFinished : Bool := false
  deriving DecidableEq

/-- The end of `ReadDataBatch`, for the batches of a reply. -/
def exchangeReply (batches : List WireBatch) (st : ExchangeState) :
    Except WireError (Option WireBatch × ExchangeState) := do
  let loop ← batches.foldlM (exchangeStep peer) {}
  if loop.newStateToken ≠ [] then
    return (loop.outputBatch, { st with notes := loop.notes, streamStateToken := loop.newStateToken })
  else
    return (loop.outputBatch, { notes := loop.notes, streamStateToken := [], dataFinished := true })

end Loop

/-! ## The rows that the output was made from -/

inductive ParentRowError
  | noProvenance | tooManyRows | length | outOfRange
  deriving DecidableEq

/-- For each row of the output, the row of the input it was made from. Without a word about it, each is from the one
    in its place. -/
def decodeParentRow (raw : Bytes) (outputRows inputRows : ℕ) : Except ParentRowError (List ℕ) :=
  if raw.isEmpty then
    if outputRows ≠ inputRows then .error .noProvenance else .ok (List.range outputRows)
  else if (2 ^ 64 - 1) / 4 < outputRows then .error .tooManyRows
  else if raw.length ≠ outputRows * 4 then .error .length
  else
    let result := (List.range outputRows).map fun i => getLE (slice raw (4 * i) 4)
    -- the numbers are signed
    if result.all fun v => v < 2 ^ 31 && v < inputRows then .ok result else .error .outOfRange

/-! ## What is kept -/

variable {β : Type*}

/-- The last one of those that say something, or what was before. -/
theorem foldl_if_eq {α : Type*} (p : α → Bool) (g : α → β) (l : List α) (b : β) :
    l.foldl (fun b x => if p x then g x else b) b = ((l.filter p).getLast?.map g).getD b := by
  induction l using List.reverseRecOn generalizing b with
  | nil => rfl
  | append_singleton l x ih =>
    rw [foldl_append, ih, filter_append, filter_singleton]
    rcases hx : p x with _ | _ <;> simp [hx]

theorem getD_map_eq_iff {α : Type*} {o : Option α} {g : α → β} {b : β} : (o.map g).getD b = b ↔ ∀ x ∈ o, g x = b := by
  rcases o with _ | x
  · simp
  · simp [eq_comm]

/-- What is noted of a batch alone. -/
def BatchNotes.reply (n : BatchNotes) : ReplyNotes where
  lastBatchIndex := n.batchIndex
  lastPartitionValuesBytes := n.partitionValues
  lastParentRowBytes := n.parentRow
  lastCacheControl := n.cacheControl
  lastMoreOutput := n.moreOutput

variable {n : BatchNotes}

theorem absorb_empty (h : n.cacheControl.present = false → n.cacheControl = {}) :
    ({} : ReplyNotes).absorb n = n.reply := by
  have hcc : (if n.cacheControl.present then n.cacheControl else {}) = n.cacheControl := by
    rcases hp : n.cacheControl.present with _ | _
    · exact (h hp).symm
    · rfl
  rw [ReplyNotes.absorb, reply]
  simp only [hcc, Bool.or_false, ReplyNotes.mk.injEq, and_true]
  exact ⟨by simp [eq_comm], by simp [eq_comm]⟩

/-- The batches after the output say nothing else: the last one has the rows that the output was made from, and
    whatever else one of them has is as in the output. -/
structure Undisturbed (n : BatchNotes) (after : List BatchNotes) : Prop where
  parentRow : ∀ m ∈ after.getLast?, m.parentRow = n.parentRow
  batchIndex : ∀ m ∈ (after.filter fun m => m.batchIndex ≠ invalidIndex).getLast?, m.batchIndex = n.batchIndex
  partitionValues : ∀ m ∈ (after.filter fun m => m.partitionValues ≠ []).getLast?,
    m.partitionValues = n.partitionValues
  cacheControl : ∀ m ∈ (after.filter fun m => m.cacheControl.present).getLast?, m.cacheControl = n.cacheControl
  moreOutput : n.moreOutput = true ∨ ∀ m ∈ after, m.moreOutput = false

/-- A member that batches with `p` set to `g`. -/
theorem foldl_absorb {π : ReplyNotes → β} {p : BatchNotes → Bool} {g : BatchNotes → β}
    (h : ∀ r m, π (r.absorb m) = if p m then g m else π r) (after : List BatchNotes) (r : ReplyNotes) :
    π (after.foldl ReplyNotes.absorb r) = ((after.filter p).getLast?.map g).getD (π r) := by
  rw [← foldl_if_eq]
  induction after generalizing r with
  | nil => rfl
  | cons m after ih => rw [foldl_cons, ih, foldl_cons, h]

theorem foldl_absorb_eq_iff (n : BatchNotes) (after : List BatchNotes) :
    after.foldl ReplyNotes.absorb n.reply = n.reply ↔ Undisturbed n after := by
  have hidx := foldl_absorb (π := ReplyNotes.lastBatchIndex) (p := fun m => m.batchIndex ≠ invalidIndex)
    (g := batchIndex) (fun r m => by simp [ReplyNotes.absorb]) after n.reply
  have hpr := foldl_absorb (π := ReplyNotes.lastPartitionValuesBytes) (p := fun m => m.partitionValues ≠ [])
    (g := partitionValues) (fun r m => by simp [ReplyNotes.absorb]) after n.reply
  have hpar := foldl_absorb (π := ReplyNotes.lastParentRowBytes) (p := fun _ => true) (fun r m => rfl) after n.reply
  have hcc := foldl_absorb (π := ReplyNotes.lastCacheControl) (fun r m => rfl) after n.reply
  have hmr := foldl_absorb (π := ReplyNotes.lastMoreOutput) (p := moreOutput)
    (g := fun _ => true) (fun r m => by cases hm : m.moreOutput <;> simp [ReplyNotes.absorb, hm]) after n.reply
  rw [filter_true] at hpar
  have hmrf : (∀ m ∈ (after.filter moreOutput).getLast?, true = n.moreOutput) ↔
      (n.moreOutput = true ∨ ∀ m ∈ after, m.moreOutput = false) := by
    constructor
    · intro h
      by_cases hn : n.moreOutput = true
      · exact .inl hn
      refine .inr fun m hm => ?_
      by_contra hmr
      have hmem : m ∈ after.filter moreOutput := mem_filter.2 ⟨hm, Bool.eq_true_of_not_eq_false hmr⟩
      exact hn (h _ (List.getLast?_eq_getLast_of_ne_nil (ne_nil_of_mem hmem))).symm
    · rintro (hn | hno) m hm
      · exact hn.symm
      · have hmem := mem_filter.1 (mem_of_mem_getLast? hm)
        rw [hno m hmem.1] at hmem
        cases hmem.2
  rw [ReplyNotes.ext_iff, hidx, hpr, hpar, hcc, hmr, getD_map_eq_iff, getD_map_eq_iff, getD_map_eq_iff,
    getD_map_eq_iff, getD_map_eq_iff]
  constructor
  · rintro ⟨h₁, h₂, h₃, h₄, h₅⟩
    exact ⟨h₃, h₁, h₂, h₄, hmrf.1 h₅⟩
  · rintro ⟨h₁, h₂, h₃, h₄, h₅⟩
    exact ⟨h₂, h₃, h₁, h₄, hmrf.2 h₅⟩

/-! ## Replies -/

section Reply

variable {peer : WirePeer}

/-- What a batch says, if it is one that is taken. -/
def WirePeer.noted (peer : WirePeer) (b : WireBatch) : Option BatchNotes :=
  if classifyBatch b = .data then (peer.notes b.metadata).toOption else none

/-- A batch of data that is accepted and says `n`. -/
structure WirePeer.Says (peer : WirePeer) (b : WireBatch) (n : BatchNotes) : Prop where
  data : classifyBatch b = .data
  valid : peer.validate b = true
  notes : peer.notes b.metadata = .ok n

/-- A batch without rows that carries a token for the next request. -/
def WirePeer.Continues (peer : WirePeer) (b : WireBatch) : Prop :=
  b.numRows = 0 ∧ ∃ n, peer.Says b n ∧ n.streamState ≠ []

variable {b : WireBatch}

theorem exchangeStep_log (h : classifyBatch b = .log) (st : ExchangeLoop) : exchangeStep peer st b = .ok st := by
  rw [exchangeStep, h]

theorem WirePeer.Says.step (h : peer.Says b n) (st : ExchangeLoop) :
    exchangeStep peer st b = .ok {
      notes := st.notes.absorb n, newStateToken := n.streamState, outputBatch := st.outputBatch.or (some b) } := by
  rw [exchangeStep, h.data]
  rw [if_pos h.valid, ExchangeLoop.take, h.notes]
  rfl

theorem WirePeer.Says.noted (h : peer.Says b n) : peer.noted b = some n := by
  rw [WirePeer.noted, if_pos h.data, h.notes]
  rfl

theorem noted_log (h : classifyBatch b = .log) : peer.noted b = none := by
  rw [WirePeer.noted, h]
  rfl

theorem foldlM_logs {before : List WireBatch} (h : ∀ b ∈ before, classifyBatch b = .log) (st : ExchangeLoop) :
    before.foldlM (exchangeStep peer) st = .ok st := by
  induction before with
  | nil => rfl
  | cons b before ih =>
    rw [foldlM_cons, exchangeStep_log (h b mem_cons_self)]
    exact ih fun b' hb' => h b' (mem_cons_of_mem b hb')

/-- What comes after the output is noted, and the output stays. -/
theorem foldlM_after {after : List WireBatch} (h : ∀ b ∈ after, classifyBatch b = .log ∨ peer.Continues b)
    {st : ExchangeLoop} {data : WireBatch} (hst : st.outputBatch = some data) :
    after.foldlM (exchangeStep peer) st = .ok {
      notes := (after.filterMap peer.noted).foldl ReplyNotes.absorb st.notes
      newStateToken := ((after.filterMap peer.noted).getLast?.map (·.streamState)).getD st.newStateToken
      outputBatch := some data } := by
  induction after generalizing st with
  | nil =>
    rw [← hst]
    rfl
  | cons b after ih =>
    have hrs := fun b' hb' => h b' (mem_cons_of_mem b hb')
    rw [foldlM_cons]
    rcases h b mem_cons_self with hlog | ⟨-, n, hnt, -⟩
    · rw [exchangeStep_log hlog, filterMap_cons_none (noted_log hlog)]
      exact ih hrs hst
    rw [hnt.step, filterMap_cons_some hnt.noted, foldl_cons]
    refine (ih hrs (by rw [hst]; rfl)).trans ?_
    congr 2
    rw [List.getLast?_cons]
    rcases (after.filterMap peer.noted).getLast? with _ | m <;> rfl

/-- The token for the next request is that of the last batch which continues, or that of the output. -/
def tokenOf (n : BatchNotes) (after : List BatchNotes) : Bytes :=
  (after.getLast?.map (·.streamState)).getD n.streamState

/-- For a reply of log messages, the output, and then log messages and batches that continue, in any order: the
    output is returned, with the token for the next request, and what is noted is what it came with just if the
    batches after it do not disturb it. -/
theorem accurate_iff (peer : WirePeer) (st : ExchangeState) {before after : List WireBatch} {data : WireBatch}
    {n : BatchNotes} (hbefore : ∀ b ∈ before, classifyBatch b = .log) (hdata : peer.Says data n)
    (hafter : ∀ b ∈ after, classifyBatch b = .log ∨ peer.Continues b) :
    ∃ st', exchangeReply peer (before ++ data :: after) st = .ok (some data, st') ∧
      st'.streamStateToken = tokenOf n (after.filterMap peer.noted) ∧
      (st'.notes = n.reply ↔ Undisturbed n (after.filterMap peer.noted)) := by
  have hlp : (before ++ data :: after).foldlM (exchangeStep peer) {} = .ok {
      notes := (after.filterMap peer.noted).foldl ReplyNotes.absorb n.reply
      newStateToken := tokenOf n (after.filterMap peer.noted)
      outputBatch := some data } := by
    rw [List.foldlM_append, foldlM_logs hbefore]
    change (data :: after).foldlM (exchangeStep peer) {} = _
    rw [foldlM_cons, hdata.step, absorb_empty (WirePeer.notes_cacheControl hdata.notes)]
    exact foldlM_after hafter rfl
  rw [exchangeReply, hlp]
  by_cases htok : tokenOf n (after.filterMap peer.noted) ≠ []
  · exact ⟨_, bind_eq_ok.2 ⟨_, rfl, if_pos htok⟩, rfl, foldl_absorb_eq_iff n _⟩
  · exact ⟨_, bind_eq_ok.2 ⟨_, rfl, if_neg htok⟩, (not_not.1 htok).symm, foldl_absorb_eq_iff n _⟩

end Reply

/-! ## A reply to a LATERAL join -/

/-- Everything is accepted, and texts are not encoded. -/
def plainPeer : WirePeer where
  fromBase64 := some
  validate _ := true
  resolve _ := none

/-- Two rows of output, the first one made from the second row of the input. -/
def swappedRows : WireBatch where
  numRows := 2
  metadata := [(parentRowKey, putLE 4 1 ++ putLE 4 0)]

def nextToken : WireBatch where
  numRows := 0
  metadata := [(ascii "vgi_rpc.stream_state#b64", ascii "t")]

def logLine : WireBatch where
  numRows := 0
  metadata := [(ascii "vgi_rpc.log_level", ascii "INFO")]

/-- With only a log message after it the output keeps its rows. -/
theorem rows_kept : ∃ st', exchangeReply plainPeer [logLine, swappedRows, logLine] {} = .ok (some swappedRows, st') ∧
    st'.notes.lastParentRowBytes = putLE 4 1 ++ putLE 4 0 := by
  have hnt : plainPeer.Says swappedRows ⟨invalidIndex, [], putLE 4 1 ++ putLE 4 0, {}, false, []⟩ :=
    ⟨by decide, rfl, by decide +kernel⟩
  have hpre : ∀ b ∈ [logLine], classifyBatch b = .log := by decide
  have haf : ∀ b ∈ [logLine], classifyBatch b = .log ∨ plainPeer.Continues b := fun b hb => .inl (hpre b hb)
  have hno : [logLine].filterMap plainPeer.noted = [] := by decide
  obtain ⟨st', hrun, -, hnts⟩ := accurate_iff plainPeer {} hpre hnt haf
  refine ⟨st', hrun, ?_⟩
  rw [hno] at hnts
  rw [hnts.2 ((foldl_absorb_eq_iff _ []).1 rfl)]
  rfl

/-- With a token after it the rows of the output are lost, and each is taken for the one in its place. -/
theorem rows_lost :
    (exchangeReply plainPeer [swappedRows, nextToken] {}).map (fun r => (r.1, r.2.notes.lastParentRowBytes)) =
      .ok (some swappedRows, []) ∧
    decodeParentRow (putLE 4 1 ++ putLE 4 0) 2 2 = .ok [1, 0] ∧ decodeParentRow [] 2 2 = .ok [0, 1] := by
  decide +kernel

end Vgi
