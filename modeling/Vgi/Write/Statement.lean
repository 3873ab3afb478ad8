import Vgi.Lib.Fallible
import Vgi.Lib.Text

/-!
# Write statements

`INSERT`, `UPDATE` and `DELETE` write the batches of their input to a function of the worker, and read one batch after
each of them: the number of rows that were changed, or the rows themselves (`RETURNING`). Afterwards they read what is
left, or what a finalize phase of the function sends. This is what `vgi_physical_write.cpp` does. The batches are those
that the threads write under `write_lock`, in this order.

No batch at all (the stream of the replies has ended, or was cut short) is taken for a batch without rows. So a
statement may succeed although the worker has not answered (`insert_unanswered`).

* `statement_eq_ok_iff`: when a statement succeeds, and what it reports;
* `faithful_iff`: when a statement that succeeds was answered, and reports what the worker has sent.
-/

namespace Vgi.Write

open List

/-! ## The statement -/

/-- A field of an Arrow schema. The types are those that `SameDataType` compares. -/
structure Field where
  name : Bytes
  type : Bytes
  nullable : Bool := true
  deriving DecidableEq

/-- A cell is `NULL` or a value, which is a number in a count. -/
abbrev Row := List (Option ℤ)

structure Batch where
  fields : List Field
  rows : List Row
  deriving DecidableEq

inductive Operation
  | insert
  | update
  | delete
  deriving DecidableEq

inductive WriteError
  /-- A batch cannot be written or read. -/
  | connection
  /-- `ValidateReturningSchema`. -/
  | returning (op : Operation)
  /-- `ReadCountFromBatch`. -/
  | countSchema
  | countColumn
  | nullCount
  | negativeCount
  /-- The count is not a `BIGINT`. -/
  | countRange
  deriving DecidableEq

/-- A batch, or an exception. -/
abbrev Reply := Except Unit Batch

/-- What `ReadDataBatch` gives, one after the other: a batch or an exception. After the last one there is no batch, for
    ever. The finalize phase is a stream of its own. -/
structure Connection where
  replies : List Reply
  finalize : Except Unit (List Reply) := .ok []

/-- `VgiWriteGlobalState`. -/
structure GlobalState where
  connection : Connection
  returnChunk : Bool := false
  expectedReturningSchema : List Field := []
  hasFinalize : Bool := false
  changedCount : ℕ := 0
  returnCollection : List Row := []

open GlobalState

/-- What a statement reports. -/
inductive Output
  | count (n : ℕ)
  | rows (rows : List Row)
  deriving DecidableEq

def countField : Field := { name := ascii "count", type := ascii "l", nullable := false }

/-- The sum of two `idx_t`. -/
def addCount (a b : ℕ) : ℕ := (a + b) % 2 ^ 64

def addRow (total : ℕ) (row : Row) : Except WriteError ℕ :=
  match row.head? with
  | none => .error .countColumn
  | some none => .error .nullCount
  | some (some v) => if v < 0 then .error .negativeCount else .ok (addCount total v.toNat)

def readCountFromBatch (b : Batch) : Except WriteError ℕ :=
  if b.rows = [] then .ok 0
  else if b.fields ≠ [countField] then .error .countSchema
  else b.rows.foldlM addRow 0

/-- The fields have the same names and types. -/
def sameFields (expected actual : List Field) : Bool :=
  expected.length = actual.length && (expected.zip actual).all fun p => p.1.name = p.2.name && p.1.type = p.2.type

variable (op : Operation)

def validateReturningSchema (expected actual : List Field) : Except WriteError Unit :=
  if sameFields expected actual then .ok () else .error (.returning op)

def readDataBatch (c : Connection) : Except WriteError (Option Batch × Connection) :=
  match c.replies with
  | [] => .ok (none, c)
  | .error _ :: _ => .error .connection
  | .ok b :: replies => .ok (some b, { c with replies })

/-- What a sink does with a response that has rows. -/
def GlobalState.absorb (g : GlobalState) (b : Batch) : Except WriteError GlobalState :=
  if g.returnChunk then do
    validateReturningSchema op g.expectedReturningSchema b.fields
    return { g with
      returnCollection := g.returnCollection ++ b.rows
      changedCount := addCount g.changedCount b.rows.length }
  else do
    let n ← readCountFromBatch b
    return { g with changedCount := addCount g.changedCount n }

/-- No response is like one without rows. -/
def GlobalState.respond (g : GlobalState) : Option Batch → Except WriteError GlobalState
  | none => .ok g
  | some b => if b.rows = [] then .ok g else g.absorb op b

/-- `Sink`: the batch is written, and one is read. -/
def sink (g : GlobalState) (batch : Reply) : Except WriteError GlobalState :=
  match batch with
  | .error _ => .error .connection
  | .ok _ => do
    let response ← readDataBatch g.connection
    respond op { g with connection := response.2 } response.1

/-- The loop of `FinalizeWriteConnection`. -/
def drain (total : ℕ) : List Reply → Except WriteError ℕ
  | [] => .ok total
  | .error _ :: _ => .error .connection
  | .ok b :: replies =>
    if b.rows = [] then drain total replies
    else do
      let n ← readCountFromBatch b
      drain (addCount total n) replies

variable (g : GlobalState)

/-- What `FinalizeWriteConnection` reads: with a finalize phase, what is left of the replies is thrown away before. -/
def GlobalState.remaining : Except WriteError (List Reply) :=
  if g.hasFinalize then g.connection.finalize.mapError fun _ => .connection else .ok g.connection.replies

/-- `FinalizeWriteConnection`. -/
def finalizeWriteConnection : Except WriteError ℕ := do
  let replies ← g.remaining
  drain 0 replies

/-- `Finalize`. -/
def finalize : Except WriteError GlobalState := do
  let n ← finalizeWriteConnection g
  return { g with changedCount := addCount g.changedCount n }

/-- `WriteGetDataInternal`. -/
def getData : Except WriteError Output :=
  if g.returnChunk then .ok (.rows g.returnCollection)
  else if g.changedCount < 2 ^ 63 then .ok (.count g.changedCount) else .error .countRange

def statement (g : GlobalState) (input : List Reply) : Except WriteError Output := do
  let g ← input.foldlM (sink op) g
  let g ← finalize g
  getData g

/-! ## What the worker has sent -/

/-- The batches of a stream. -/
def batches (replies : List Reply) : List Batch := replies.filterMap Except.toOption

def Batch.count (b : Batch) : ℕ := (b.rows.map fun row => (row.head?.join.getD 0).toNat).sum

def counts (bs : List Batch) : ℕ := (bs.map Batch.count).sum

def rowsOf (bs : List Batch) : List Row := bs.flatMap Batch.rows

/-- The batch has no rows, or is a count. -/
structure IsCount (b : Batch) : Prop where
  fields : b.rows ≠ [] → b.fields = [countField]
  rows : ∀ row ∈ b.rows, ∃ v, row.head? = some (some v) ∧ 0 ≤ v

/-- A batch that a sink accepts. -/
def GlobalState.Takes (b : Batch) : Prop :=
  if g.returnChunk then b.rows ≠ [] → sameFields g.expectedReturningSchema b.fields = true else IsCount b

/-- The stream is read without an exception, and its batches are like this. -/
def Reads (p : Batch → Prop) (replies : List Reply) : Prop := ∀ r ∈ replies, ∃ b, r = .ok b ∧ p b

/-- The streams of a connection that are read by a statement with so many batches. -/
def GlobalState.finalReplies (n : ℕ) : Except Unit (List Reply) :=
  if g.hasFinalize then g.connection.finalize else .ok (g.connection.replies.drop n)

variable {b : Batch} {p : Batch → Prop} {replies : List Reply}

theorem reads_cons : Reads p (.ok b :: replies) ↔ p b ∧ Reads p replies := by
  refine ⟨fun h => ⟨?_, fun r hr => h r (mem_cons_of_mem _ hr)⟩, fun h r hr => ?_⟩
  · obtain ⟨b', hb', hp⟩ := h _ mem_cons_self
    cases hb'
    exact hp
  · rcases mem_cons.1 hr with rfl | hr
    exacts [⟨b, rfl, h.1⟩, h.2 r hr]

theorem not_reads_error {e : Unit} : ¬Reads p (.error e :: replies) := fun h => by
  obtain ⟨b, hb, -⟩ := h _ mem_cons_self
  cases hb

theorem reads_nil : Reads p [] := fun _ hr => absurd hr not_mem_nil

@[simp]
theorem batches_ok : batches (.ok b :: replies) = b :: batches replies := rfl

theorem batches_append (l₁ l₂ : List Reply) : batches (l₁ ++ l₂) = batches l₁ ++ batches l₂ :=
  filterMap_append

theorem length_batches_le (replies : List Reply) : (batches replies).length ≤ replies.length :=
  length_filterMap_le ..

theorem length_batches (h : Reads p replies) : (batches replies).length = replies.length := by
  induction replies with
  | nil => rfl
  | cons r replies ih =>
    obtain ⟨b, rfl, -⟩ := h r mem_cons_self
    rw [batches_ok, length_cons, length_cons, ih fun r hr => h r (mem_cons_of_mem _ hr)]

variable {bs : List Batch}

@[simp]
theorem counts_cons : counts (b :: bs) = b.count + counts bs := rfl

@[simp]
theorem counts_append {bs' : List Batch} : counts (bs ++ bs') = counts bs + counts bs' := by
  rw [counts, map_append, sum_append]
  rfl

@[simp]
theorem rowsOf_append {bs' : List Batch} : rowsOf (bs ++ bs') = rowsOf bs ++ rowsOf bs' := flatMap_append

theorem count_of_rows_eq_nil (h : b.rows = []) : b.count = 0 := by
  rw [Batch.count, h]
  rfl

/-! ## What a statement reads -/

theorem addCount_assoc (a b c : ℕ) : addCount (addCount a b) c = addCount a (b + c) := by
  rw [addCount, addCount, addCount, Nat.mod_add_mod, add_assoc]

theorem addCount_mod (a b : ℕ) : addCount a (b % 2 ^ 64) = addCount a b := by
  rw [addCount, addCount, Nat.add_mod_mod]

variable {n : ℕ}

/-- The rows of a count are added up. -/
theorem foldlM_addRow {rows : List Row} {total : ℕ} (htl : total < 2 ^ 64) :
    rows.foldlM addRow total = .ok n ↔ (∀ row ∈ rows, ∃ v, row.head? = some (some v) ∧ 0 ≤ v) ∧
      n = addCount total (rows.map fun row => (row.head?.join.getD 0).toNat).sum := by
  induction rows generalizing total with
  | nil =>
    have hmod : addCount total 0 = total := Nat.mod_eq_of_lt htl
    simp only [foldlM_nil, map_nil, sum_nil, hmod]
    exact ok_eq_ok_iff nofun
  | cons row rows ih =>
    rw [foldlM_cons, bind_eq_ok]
    have hmod : ∀ v, addCount total v < 2 ^ 64 := fun v => Nat.mod_lt _ (by norm_num)
    have hrow : ∀ t, addRow total row = .ok t ↔
        ∃ v, row.head? = some (some v) ∧ 0 ≤ v ∧ t = addCount total v.toNat := by
      intro t
      rw [addRow]
      rcases row.head? with _ | _ | v <;> dsimp only
      · exact ⟨fun h => (by cases h), fun ⟨_, h, _⟩ => by cases h⟩
      · exact ⟨fun h => (by cases h), fun ⟨_, h, _⟩ => by cases h⟩
      split_ifs with hv
      · refine ⟨fun h => (by cases h), fun h => ?_⟩
        obtain ⟨w, hw, hw', -⟩ := h
        obtain rfl := Option.some.inj (Option.some.inj hw)
        exact absurd hv (not_lt.2 hw')
      · refine ⟨fun h => ⟨v, rfl, not_lt.1 hv, (Except.ok.inj h).symm⟩, fun h => ?_⟩
        obtain ⟨w, hw, -, rfl⟩ := h
        obtain rfl := Option.some.inj (Option.some.inj hw)
        rfl
    simp only [map_cons, sum_cons, forall_mem_cons]
    constructor
    · rintro ⟨t, ht, hrs⟩
      obtain ⟨v, hv, hv', rfl⟩ := (hrow t).1 ht
      obtain ⟨hrw, hn⟩ := (ih (hmod _)).1 hrs
      refine ⟨⟨⟨v, hv, hv'⟩, hrw⟩, ?_⟩
      rw [hn, addCount_assoc, hv]
      rfl
    · rintro ⟨⟨⟨v, hv, hv'⟩, hrw⟩, hn⟩
      refine ⟨_, (hrow _).2 ⟨v, hv, hv', rfl⟩, (ih (hmod _)).2 ⟨hrw, ?_⟩⟩
      rw [hn, addCount_assoc, hv]
      rfl

theorem readCountFromBatch_eq_ok_iff : readCountFromBatch b = .ok n ↔ IsCount b ∧ n = b.count % 2 ^ 64 := by
  rw [readCountFromBatch]
  split_ifs with hrw hfd
  · have hcn : IsCount b := ⟨fun h => absurd hrw h, fun row hr => absurd (hrw ▸ hr) not_mem_nil⟩
    rw [count_of_rows_eq_nil hrw]
    exact ok_eq_ok_iff hcn
  · exact ⟨fun h => (by cases h), fun h => absurd (h.1.fields hrw) hfd⟩
  · rw [foldlM_addRow (by norm_num), addCount, Nat.zero_add]
    exact ⟨fun h => ⟨⟨fun _ => not_not.1 hfd, h.1⟩, h.2⟩, fun h => ⟨h.1.rows, h.2⟩⟩

/-- What is left is read to its end. -/
theorem drain_eq_ok_iff {total : ℕ} (htl : total < 2 ^ 64) :
    drain total replies = .ok n ↔ Reads IsCount replies ∧ n = addCount total (counts (batches replies)) := by
  induction replies generalizing total with
  | nil =>
    have hmod : addCount total 0 = total := Nat.mod_eq_of_lt htl
    rw [drain]
    change _ ↔ _ ∧ n = addCount total 0
    rw [hmod]
    exact ok_eq_ok_iff reads_nil
  | cons r replies ih =>
    rcases r with e | b
    · rw [drain]
      exact ⟨fun h => (by cases h), fun h => absurd h.1 not_reads_error⟩
    rw [drain, reads_cons, batches_ok, counts_cons]
    split_ifs with hrw
    · have hcn : IsCount b := ⟨fun h => absurd hrw h, fun row hr => absurd (hrw ▸ hr) not_mem_nil⟩
      rw [ih htl, count_of_rows_eq_nil hrw, Nat.zero_add]
      exact ⟨fun h => ⟨⟨hcn, h.1⟩, h.2⟩, fun h => ⟨h.1.2, h.2⟩⟩
    · rw [bind_eq_ok]
      have hmod : ∀ v, addCount total v < 2 ^ 64 := fun v => Nat.mod_lt _ (by norm_num)
      constructor
      · rintro ⟨m, hm, hrs⟩
        obtain ⟨hcn, rfl⟩ := readCountFromBatch_eq_ok_iff.1 hm
        obtain ⟨hrd, hn⟩ := (ih (hmod _)).1 hrs
        rw [addCount_mod, addCount_assoc] at hn
        exact ⟨⟨hcn, hrd⟩, hn⟩
      · rintro ⟨⟨hcn, hrd⟩, hn⟩
        refine ⟨_, readCountFromBatch_eq_ok_iff.2 ⟨hcn, rfl⟩, (ih (hmod _)).2 ⟨hrd, ?_⟩⟩
        rw [addCount_mod, addCount_assoc]
        exact hn

/-- What a batch adds to the count. -/
def GlobalState.amount (b : Batch) : ℕ := if g.returnChunk then b.rows.length else b.count

/-- The state after these batches were read, and so many of the replies are gone. -/
def GlobalState.after (n : ℕ) (bs : List Batch) : GlobalState :=
  { g with
    connection := { g.connection with replies := g.connection.replies.drop n }
    changedCount := addCount g.changedCount (bs.map g.amount).sum
    returnCollection := g.returnCollection ++ if g.returnChunk then rowsOf bs else [] }

variable {g : GlobalState}

theorem takes_of_rows_eq_nil (h : b.rows = []) : g.Takes b := by
  rw [Takes]
  split_ifs
  · exact fun hne => absurd h hne
  · exact ⟨fun hne => absurd h hne, fun row hr => absurd (h ▸ hr) not_mem_nil⟩

variable {op : Operation} {g' : GlobalState}

theorem absorb_eq_ok_iff (hrw : b.rows ≠ []) :
    g.absorb op b = .ok g' ↔ g.Takes b ∧ g' =
      { g with
        changedCount := addCount g.changedCount (g.amount b)
        returnCollection := g.returnCollection ++ if g.returnChunk then b.rows else [] } := by
  rw [absorb, Takes, amount]
  split_ifs with hrt
  · rw [bind_eq_ok, validateReturningSchema]
    split_ifs with hfd
    · exact ⟨fun ⟨_, _, h⟩ => ⟨fun _ => hfd, (Except.ok.inj h).symm⟩, fun h => ⟨(), rfl, congrArg _ h.2.symm⟩⟩
    · exact ⟨fun ⟨_, h, _⟩ => (by cases h), fun h => absurd (h.1 hrw) hfd⟩
  · rw [bind_eq_ok, append_nil]
    constructor
    · rintro ⟨n, hn, h⟩
      obtain ⟨hcn, rfl⟩ := readCountFromBatch_eq_ok_iff.1 hn
      rw [addCount_mod] at h
      exact ⟨hcn, (Except.ok.inj h).symm⟩
    · rintro ⟨hcn, rfl⟩
      refine ⟨_, readCountFromBatch_eq_ok_iff.2 ⟨hcn, rfl⟩, ?_⟩
      rw [addCount_mod]
      rfl

/-- What a sink does with a batch, rows or no rows. -/
theorem respond_eq_ok_iff (hg : g.changedCount < 2 ^ 64) :
    g.respond op (some b) = .ok g' ↔ g.Takes b ∧ g' =
      { g with
        changedCount := addCount g.changedCount (g.amount b)
        returnCollection := g.returnCollection ++ if g.returnChunk then b.rows else [] } := by
  rw [respond]
  by_cases hrw : b.rows = []
  · have ham : g.amount b = 0 := by
      rw [amount, count_of_rows_eq_nil hrw, hrw, length_nil, ite_self]
    have hcn : addCount g.changedCount 0 = g.changedCount := Nat.mod_eq_of_lt hg
    rw [if_pos hrw, ham, hcn, hrw, ite_self, append_nil]
    exact ok_eq_ok_iff (takes_of_rows_eq_nil hrw)
  · rw [if_neg hrw]
    exact absorb_eq_ok_iff hrw

theorem after_zero (hg : g.changedCount < 2 ^ 64) : g.after 0 [] = g := by
  have hcn : addCount g.changedCount 0 = g.changedCount := Nat.mod_eq_of_lt hg
  rw [GlobalState.after, map_nil, sum_nil, hcn]
  split_ifs <;> simp [rowsOf]

theorem after_after (n n' : ℕ) (bs bs' : List Batch) : (g.after n bs).after n' bs' = g.after (n + n') (bs ++ bs') := by
  have ham : (g.after n bs).amount = g.amount := rfl
  have hrt : (g.after n bs).returnChunk = g.returnChunk := rfl
  rw [GlobalState.after, ham, hrt]
  simp only [GlobalState.after, drop_drop, addCount_assoc, map_append, sum_append, rowsOf_append, append_assoc]
  congr 2
  split_ifs <;> rfl

theorem reads_append {l₁ l₂ : List Reply} :
    Reads p (l₁ ++ l₂) ↔ Reads p l₁ ∧ Reads p l₂ := forall_mem_append

/-- A batch is read for one that is written, if there is any. -/
theorem sink_eq_ok_iff (hg : g.changedCount < 2 ^ 64) {x : Reply} :
    sink op g x = .ok g' ↔ (∃ b, x = .ok b) ∧ Reads g.Takes (g.connection.replies.take 1) ∧
      g' = g.after 1 (batches (g.connection.replies.take 1)) := by
  rcases x with e | b
  · exact ⟨fun h => (by cases h), fun h => absurd h.1 (by simp)⟩
  have hwt : ∃ b', (.ok b : Reply) = .ok b' := ⟨b, rfl⟩
  rw [sink, bind_eq_ok, readDataBatch]
  rcases hrp : g.connection.replies with _ | ⟨e | response, replies⟩
  · have haf : g.after 1 (batches ([].take 1)) = g := by
      rw [← after_zero hg, after_after, GlobalState.after, GlobalState.after, hrp]
      rfl
    rw [haf]
    refine ⟨fun h => ?_, fun h => ⟨_, rfl, congrArg Except.ok h.2.2.symm⟩⟩
    obtain ⟨_, hrd, h⟩ := h
    cases hrd
    exact ⟨hwt, reads_nil, (Except.ok.inj h).symm⟩
  · refine ⟨fun h => ?_, fun h => absurd h.2.1 not_reads_error⟩
    obtain ⟨_, hrd, -⟩ := h
    cases hrd
  · have haf : g.after 1 (batches ((.ok response :: replies).take 1)) =
        { g with
          connection := { g.connection with replies }
          changedCount := addCount g.changedCount (g.amount response)
          returnCollection := g.returnCollection ++ if g.returnChunk then response.rows else [] } := by
      rw [GlobalState.after, hrp]
      simp [rowsOf, batches, Except.toOption]
    have hrds : Reads g.Takes ((.ok response :: replies).take 1) ↔ g.Takes response :=
      reads_cons.trans (and_iff_left reads_nil)
    have hcn : GlobalState.changedCount { g with connection := { g.connection with replies } } < 2 ^ 64 := hg
    rw [haf, hrds]
    refine ⟨fun h => ?_, fun h => ⟨_, rfl, (respond_eq_ok_iff hcn).2 h.2⟩⟩
    obtain ⟨_, hrd, h⟩ := h
    cases hrd
    exact ⟨hwt, (respond_eq_ok_iff hcn).1 h⟩

variable {input : List Reply}

/-- A batch is read for each that is written, as long as there are any. -/
theorem foldlM_sink_eq_ok_iff (hg : g.changedCount < 2 ^ 64) :
    input.foldlM (sink op) g = .ok g' ↔ Reads (fun _ => True) input ∧
      Reads g.Takes (g.connection.replies.take input.length) ∧
      g' = g.after input.length (batches (g.connection.replies.take input.length)) := by
  induction input generalizing g with
  | nil =>
    have hzr : g.after 0 (batches []) = g := after_zero hg
    rw [foldlM_nil, length_nil, take_zero, hzr]
    exact ⟨fun h => ⟨reads_nil, reads_nil, (Except.ok.inj h).symm⟩, fun h => congrArg _ h.2.2.symm⟩
  | cons x input ih =>
    have haf : (g.after 1 (batches (g.connection.replies.take 1))).changedCount < 2 ^ 64 := Nat.mod_lt _ (by norm_num)
    have htk : g.connection.replies.take (input.length + 1) =
        g.connection.replies.take 1 ++ (g.connection.replies.drop 1).take input.length := by
      rw [Nat.add_comm, take_add]
    rw [foldlM_cons, bind_eq_ok, length_cons, htk, reads_append, batches_append]
    have hrs := ih haf
    have hin : Reads (fun _ => True) (x :: input) ↔ (∃ b, x = .ok b) ∧ Reads (fun _ => True) input := by
      rw [Reads, forall_mem_cons]
      simp [Reads]
    rw [hin, Nat.add_comm, ← after_after]
    constructor
    · rintro ⟨g₁, hx, h⟩
      obtain ⟨hwt, hrd, rfl⟩ := (sink_eq_ok_iff hg).1 hx
      obtain ⟨hall, hrd', rfl⟩ := hrs.1 h
      exact ⟨⟨hwt, hall⟩, ⟨hrd, hrd'⟩, rfl⟩
    · rintro ⟨⟨hwt, hall⟩, ⟨hrd, hrd'⟩, rfl⟩
      exact ⟨_, (sink_eq_ok_iff hg).2 ⟨hwt, hrd, rfl⟩, hrs.2 ⟨hall, hrd', rfl⟩⟩

/-! ## What a statement reports -/

/-- The state of a statement at its start. -/
structure Fresh (g : GlobalState) : Prop where
  count : g.changedCount = 0
  rows : g.returnCollection = []

/-- What a statement with so many batches reads: replies, and what follows when the input is at its end. -/
def GlobalState.answers (g : GlobalState) (n : ℕ) : List Batch := batches (g.connection.replies.take n)

def GlobalState.finals (g : GlobalState) (n : ℕ) : List Batch := ((g.finalReplies n).toOption.map batches).getD []

/-- Nothing that is written or read is refused: all streams can be read, their batches are those that are expected, and
    the count is a `BIGINT`. -/
structure Accepted (g : GlobalState) (input : List Reply) : Prop where
  written : Reads (fun _ => True) input
  replies : Reads g.Takes (g.connection.replies.take input.length)
  final : ∃ replies, g.finalReplies input.length = .ok replies ∧ Reads IsCount replies
  range : g.returnChunk = false →
    (counts (g.answers input.length) + counts (g.finals input.length)) % 2 ^ 64 < 2 ^ 63

/-- What is reported then. -/
def GlobalState.reported (g : GlobalState) (n : ℕ) : Output :=
  if g.returnChunk then .rows (rowsOf (g.answers n))
  else .count ((counts (g.answers n) + counts (g.finals n)) % 2 ^ 64)

theorem finalize_eq_ok_iff :
    finalize (g.after n bs) = .ok g' ↔ ∃ replies, g.finalReplies n = .ok replies ∧ Reads IsCount replies ∧
      g' = { g.after n bs with changedCount := addCount (g.after n bs).changedCount (counts (batches replies)) } := by
  have hrm : ∀ replies, (g.after n bs).remaining = .ok replies ↔ g.finalReplies n = .ok replies := by
    intro replies
    have hfn : (g.after n bs).connection.finalize = g.connection.finalize := rfl
    rw [remaining, finalReplies, hfn]
    change (if g.hasFinalize then _ else _) = _ ↔ _
    split_ifs
    · rcases g.connection.finalize with e | r
      · exact ⟨fun h => (by cases h), nofun⟩
      · exact ⟨fun h => congrArg _ (Except.ok.inj h), fun h => congrArg _ (Except.ok.inj h)⟩
    · exact ⟨fun h => congrArg _ (Except.ok.inj h), fun h => congrArg _ (Except.ok.inj h)⟩
  rw [finalize, bind_eq_ok, finalizeWriteConnection]
  constructor
  · rintro ⟨m, hm, h⟩
    obtain ⟨replies, hr, hdr⟩ := bind_eq_ok.1 hm
    obtain ⟨hrd, rfl⟩ := (drain_eq_ok_iff (by norm_num)).1 hdr
    refine ⟨replies, (hrm replies).1 hr, hrd, ?_⟩
    rw [← Except.ok.inj h, addCount, addCount, Nat.zero_add, Nat.add_mod_mod, addCount]
  · rintro ⟨replies, hr, hrd, rfl⟩
    refine ⟨_, bind_eq_ok.2 ⟨replies, (hrm replies).2 hr, (drain_eq_ok_iff (by norm_num)).2 ⟨hrd, rfl⟩⟩, ?_⟩
    rw [addCount, addCount, Nat.zero_add, Nat.add_mod_mod, addCount]
    rfl

/-- A statement succeeds if nothing is refused, and then reports what it has read. -/
theorem statement_eq_ok_iff (hg : Fresh g) {r : Output} :
    statement op g input = .ok r ↔ Accepted g input ∧ r = g.reported input.length := by
  have hcn : g.changedCount < 2 ^ 64 := by rw [hg.count]; norm_num
  have haf : ∀ m, getData { g.after input.length (g.answers input.length) with
      changedCount := addCount (g.after input.length (g.answers input.length)).changedCount m } = .ok r ↔
        (g.returnChunk = false → (counts (g.answers input.length) + m) % 2 ^ 64 < 2 ^ 63) ∧
          r = if g.returnChunk then .rows (rowsOf (g.answers input.length))
            else .count ((counts (g.answers input.length) + m) % 2 ^ 64) := by
    intro m
    have hrt : (g.after input.length (g.answers input.length)).returnChunk = g.returnChunk := rfl
    rw [getData]
    change (if g.returnChunk then _ else _) = _ ↔ _
    rcases hmd : g.returnChunk with _ | _
    · have hsum : addCount (g.after input.length (g.answers input.length)).changedCount m =
          (counts (g.answers input.length) + m) % 2 ^ 64 := by
        have ham : g.amount = Batch.count := by
          funext b
          rw [GlobalState.amount, hmd]
          rfl
        rw [GlobalState.after, hg.count, addCount_assoc, ham, addCount, Nat.zero_add]
        rfl
      rw [if_neg Bool.false_ne_true, if_neg Bool.false_ne_true]
      rw [hsum]
      split_ifs with hrn
      · exact ok_eq_ok_iff (fun _ => hrn)
      · exact ⟨fun h => (by cases h), fun h => absurd (h.1 rfl) hrn⟩
    · have hrw : (g.after input.length (g.answers input.length)).returnCollection =
          rowsOf (g.answers input.length) := by
        rw [GlobalState.after, hg.rows, hmd, nil_append]
        rfl
      rw [if_pos rfl, if_pos rfl]
      rw [hrw]
      exact ok_eq_ok_iff nofun
  rw [statement, bind_eq_ok, GlobalState.reported]
  constructor
  · rintro ⟨g₁, hsn, h⟩
    obtain ⟨hin, hrp, rfl⟩ := (foldlM_sink_eq_ok_iff hcn).1 hsn
    obtain ⟨g₂, hfnl, hdt⟩ := bind_eq_ok.1 h
    obtain ⟨replies, hr, hrd, rfl⟩ := finalize_eq_ok_iff.1 hfnl
    have hfn : g.finals input.length = batches replies := by rw [GlobalState.finals, hr]; rfl
    obtain ⟨hrn, rfl⟩ := (haf _).1 hdt
    rw [hfn]
    exact ⟨⟨hin, hrp, ⟨replies, hr, hrd⟩, hfn.symm ▸ hrn⟩, rfl⟩
  · rintro ⟨⟨hin, hrp, ⟨replies, hr, hrd⟩, hrn⟩, hrpr⟩
    have hfn : g.finals input.length = batches replies := by rw [GlobalState.finals, hr]; rfl
    rw [hfn] at hrn hrpr
    exact ⟨_, (foldlM_sink_eq_ok_iff hcn).2 ⟨hin, hrp, rfl⟩, bind_eq_ok.2
      ⟨_, finalize_eq_ok_iff.2 ⟨replies, hr, hrd, rfl⟩, (haf _).2 ⟨hrn, hrpr⟩⟩⟩

/-! ## Whether the worker has answered -/

/-- All batches that the worker has sent. -/
def GlobalState.sent (g : GlobalState) : List Batch :=
  batches g.connection.replies ++ if g.hasFinalize then (g.connection.finalize.toOption.map batches).getD [] else []

/-- What they carry. -/
def GlobalState.carried (g : GlobalState) : Output :=
  if g.returnChunk then .rows (rowsOf g.sent) else .count (counts g.sent)

/-- If the statement succeeds, the worker has sent a reply for each batch, and what is reported is what it has sent. -/
def Faithful (op : Operation) (g : GlobalState) (input : List Reply) : Prop :=
  ∀ r, statement op g input = .ok r → input.length ≤ (batches g.connection.replies).length ∧ r = g.carried

/-- There are as many replies as batches. What comes after the replies has no rows that are to be returned; if there
    is a finalize phase, nothing comes between. The count is below `2 ^ 64`. -/
structure Complete (g : GlobalState) (n : ℕ) : Prop where
  replies : n ≤ g.connection.replies.length
  surplus : g.hasFinalize = true → g.returnChunk = false → counts (batches (g.connection.replies.drop n)) = 0
  returning : g.returnChunk = true → rowsOf (batches (g.connection.replies.drop n)) = [] ∧ rowsOf (g.finals n) = []
  range : g.returnChunk = false → counts (g.answers n) + counts (g.finals n) < 2 ^ 64

theorem sent_eq (g : GlobalState) (n : ℕ) : g.sent = g.answers n ++
    (if g.hasFinalize then batches (g.connection.replies.drop n) else []) ++ g.finals n := by
  have hrp : batches g.connection.replies = g.answers n ++ batches (g.connection.replies.drop n) := by
    rw [answers, ← batches_append, take_append_drop]
  rw [sent, hrp, finals, finalReplies]
  split_ifs
  · rfl
  · simp [Except.toOption]

/-- What is reported is what was sent, if nothing is left out. -/
theorem reported_eq_carried_iff (g : GlobalState) (n : ℕ) (h : n ≤ g.connection.replies.length) :
    g.reported n = g.carried ↔ Complete g n := by
  rw [reported, carried, sent_eq g n]
  rcases hmd : g.returnChunk with _ | _
  · have hmod := Nat.mod_le (counts (g.answers n) + counts (g.finals n)) (2 ^ 64)
    have hlt := Nat.mod_lt (counts (g.answers n) + counts (g.finals n)) (y := 2 ^ 64) (by norm_num)
    rw [if_neg Bool.false_ne_true, if_neg Bool.false_ne_true, Output.count.injEq, counts_append, counts_append]
    constructor
    · intro heq
      refine ⟨h, fun hfnl _ => ?_, fun hrt => absurd (hmd.symm.trans hrt) (by decide), fun _ => by omega⟩
      rw [if_pos hfnl] at heq
      omega
    · intro hc
      rw [Nat.mod_eq_of_lt (hc.range hmd)]
      split_ifs with hfnl
      · rw [hc.surplus hfnl hmd, Nat.add_zero]
      · rfl
  · rw [if_pos rfl, if_pos rfl, Output.rows.injEq, rowsOf_append, rowsOf_append]
    constructor
    · intro heq
      have hlen := congrArg List.length heq
      rw [length_append, length_append] at hlen
      refine ⟨h, fun _ hcn => absurd (hmd.symm.trans hcn) (by decide), fun _ => ?_,
        fun hcn => absurd (hmd.symm.trans hcn) (by decide)⟩
      have hfn : rowsOf (g.finals n) = [] := eq_nil_of_length_eq_zero (by omega)
      refine ⟨?_, hfn⟩
      rcases hfnl : g.hasFinalize with _ | _
      · rwa [finals, finalReplies, hfnl] at hfn
      · rw [hfnl, if_pos rfl] at hlen
        exact eq_nil_of_length_eq_zero (by omega)
    · intro hc
      obtain ⟨hsr, hfn⟩ := hc.returning hmd
      rw [hfn, append_nil]
      split_ifs
      · rw [hsr, append_nil]
      · exact (append_nil _).symm

/-- A statement that succeeds was answered, and reports what the worker has sent, unless nothing is refused and the
    replies are not complete. -/
theorem faithful_iff (op : Operation) (g : GlobalState) (hg : Fresh g) (input : List Reply) :
    Faithful op g input ↔ (Accepted g input → Complete g input.length) := by
  constructor
  · intro h hac
    obtain ⟨han, heq⟩ := h _ ((statement_eq_ok_iff hg).2 ⟨hac, rfl⟩)
    exact (reported_eq_carried_iff g _ (han.trans (length_batches_le _))).1 heq
  · intro h r hr
    obtain ⟨hac, rfl⟩ := (statement_eq_ok_iff hg).1 hr
    have hc := h hac
    refine ⟨?_, (reported_eq_carried_iff g _ hc.replies).2 hc⟩
    -- the replies that are read are batches
    have hrd := length_batches hac.replies
    rw [length_take, Nat.min_eq_left hc.replies] at hrd
    rw [← take_append_drop input.length g.connection.replies, batches_append, length_append, hrd]
    exact Nat.le_add_right ..

/-! ## A stream that is cut short -/

/-- A batch with one row. -/
def oneRow : Batch := { fields := [{ name := ascii "x", type := ascii "l" }], rows := [[some 7]] }

/-- The worker answers that a row was changed. -/
def changed : Batch := { fields := [countField], rows := [[some 1]] }

theorem faithful_answered : Fresh { connection := { replies := [.ok changed] } } ∧
    Faithful .insert { connection := { replies := [.ok changed] } } [.ok oneRow] := by
  refine ⟨⟨rfl, rfl⟩, (faithful_iff _ _ ⟨rfl, rfl⟩ _).2 fun _ => ⟨le_rfl, fun h => ?_, fun h => ?_, fun _ => ?_⟩⟩
  · cases h
  · cases h
  · decide

/-- The stream of the replies ends before the first of them. The statement succeeds, and no row was changed. -/
theorem insert_unanswered : statement .insert { connection := { replies := [] } } [.ok oneRow] = .ok (.count 0) ∧
    ¬Faithful .insert { connection := { replies := [] } } [.ok oneRow] := by
  refine ⟨rfl, fun h => ?_⟩
  exact absurd (h (.count 0) rfl).1 (by decide)

end Vgi.Write
