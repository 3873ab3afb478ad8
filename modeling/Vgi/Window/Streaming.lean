import Vgi.Lib.Fallible
import Vgi.Lib.Running
import Vgi.Lib.Text

/-!
# Streaming windows

A window node whose expressions are all aggregates of workers, with frames up to the current row
(`isStreamingEligible`), is replaced by an operator that sends its input, chunk by chunk, to one session
per expression (`streamChunks`), after one sort by the keys of the first expression (`rewriteWindow`).
The session of an expression answers with the aggregate over the rows of the partition that it has
received (`runningValues`).

What SQL says the values are (`WindowExpr.SqlValues`) depends on no sort: the rows of a frame are those
that come up to the row in the order of *that* expression, or, unless the frame counts rows, that do not
come after its peers.

* `streamChunks_eq_ok`: what the sessions answer over a whole run, however the input is cut into chunks;
* `transparent_iff`: when the values are the same.
-/

namespace Vgi

open List

inductive FrameUnit
  | rows
  | range
  | groups
  deriving DecidableEq

inductive WindowBoundary
  | unboundedPreceding
  | unboundedFollowing
  | currentRow (unit : FrameUnit)
  | exprPreceding (unit : FrameUnit)
  | exprFollowing (unit : FrameUnit)
  deriving DecidableEq

inductive WindowExcludeMode
  | noOther
  | currentRow
  | group
  | ties
  deriving DecidableEq

/-- What a worker has said of an aggregate function. -/
structure AggregateInfo where
  functionName : Bytes
  streamingPartitioned : Bool := false
  positionalIsConst : List Bool := []
  deriving DecidableEq

/-- A window expression over rows. A key maps into a linear order, that of its `ASC` or `DESC` and its
    `NULLS FIRST` or `LAST`: rows are peers, or of one partition, if their keys are equal. -/
structure WindowExpr (Row Key Val : Type) where
  /-- `none` if it is not an aggregate function of a worker. -/
  aggregate : Option AggregateInfo
  /-- The arguments. -/
  children : Row → Val
  partitions : List (Row → Key) := []
  orders : List (Row → Key) := []
  windowStart : WindowBoundary := .unboundedPreceding
  windowEnd : WindowBoundary := .currentRow .range
  windowExclude : WindowExcludeMode := .noOther
  distinct : Bool := false
  filter : Option (Row → Bool) := none
  argOrders : List (Row → Key) := []

open WindowExpr

variable {Row Key Val : Type}

namespace WindowExpr

variable (e : WindowExpr Row Key Val)

def isCumulativeFrame : Bool :=
  match e.windowStart, e.windowEnd with
  | .unboundedPreceding, .currentRow _ => true
  | _, _ => false

def isStreamingEligible : Bool :=
  match e.aggregate with
  | none => false
  | some info =>
    info.streamingPartitioned && info.positionalIsConst.all (!·) && e.isCumulativeFrame &&
      e.windowExclude = .noOther && !e.distinct && e.filter.isNone && e.argOrders.isEmpty

def functionName : Bytes :=
  match e.aggregate with
  | none => []
  | some info => info.functionName

def partitionKey (r : Row) : List Key := e.partitions.map (· r)

def orderKey (r : Row) : List Key := e.orders.map (· r)

variable {e} in
theorem windowEnd_of_eligible (h : e.isStreamingEligible) : ∃ unit, e.windowEnd = .currentRow unit := by
  have hframe : e.isCumulativeFrame = true := by
    unfold isStreamingEligible at h
    split at h
    · exact absurd h Bool.false_ne_true
    · simp only [Bool.and_eq_true] at h
      exact h.1.1.1.1.2
  unfold isCumulativeFrame at hframe
  split at hframe
  · exact ⟨_, ‹_›⟩
  · exact absurd hframe Bool.false_ne_true

/-! ## The values of SQL -/

section Sql

variable [DecidableEq Row] [LinearOrder Key]

/-- The rows of the partition of `r`. -/
def partition (r : Row) (rows : List Row) : List Row :=
  rows.filter fun s => e.partitionKey s = e.partitionKey r

/-- The frame of `r` from `UNBOUNDED PRECEDING` to `CURRENT ROW`, over rows in the order of the expression. -/
def frame (unit : FrameUnit) (ordered : List Row) (r : Row) : List Row :=
  match unit with
  | .rows => upTo r (e.partition r ordered)
  | .range => (e.partition r ordered).filter fun s => e.orderKey s ≤ e.orderKey r
  | .groups => (e.partition r ordered).filter fun s => e.orderKey s ≤ e.orderKey r

/-- The values `val` of the expression over `rows`, for some order among those that are peers. -/
def SqlValues {Out : Type} (aggregate : Bytes → List Val → Out) (rows : List Row) (val : Row → Out) : Prop :=
  ∃ unit, e.windowEnd = .currentRow unit ∧ ∃ ordered : List Row, ordered.Perm rows ∧
    ordered.Pairwise (fun r s => e.orderKey r ≤ e.orderKey s) ∧
    ∀ r ∈ rows, val r = aggregate e.functionName ((e.frame unit ordered r).map e.children)

end Sql

end WindowExpr

/-! ## The operator -/

/-- The columns that a session is sent for a row. -/
structure ProjectedRow (Key Val : Type) where
  partitionKeys : List Key
  orderKeys : List Key
  values : Val

variable (e : WindowExpr Row Key Val)

def WindowExpr.projectInput (r : Row) : ProjectedRow Key Val :=
  ⟨e.partitionKey r, e.orderKey r, e.children r⟩

/-- What a session that has received some rows answers to more of them: for each the aggregate over its
    partition so far. -/
def runningValues [DecidableEq Key] {Out : Type} (aggregate : List Val → Out) :
    List (ProjectedRow Key Val) → List (ProjectedRow Key Val) → List Out
  | _, [] => []
  | received, t :: input =>
    aggregate (((received ++ [t]).filter fun u => u.partitionKeys = t.partitionKeys).map (·.values)) ::
      runningValues aggregate (received ++ [t]) input

/-- A chunk of the operator's output: the rows of the input, and a column for each expression. -/
structure WindowChunk (Row Out : Type) where
  rows : List Row
  columns : List (List Out)
  deriving DecidableEq

/-- What replaces a window node, with the first of its expressions. -/
structure StreamingWindow (Row Key Val : Type) where
  first : WindowExpr Row Key Val
  others : List (WindowExpr Row Key Val)

/-- The window node with these expressions; `none` if it is left alone. -/
def rewriteWindow : List (WindowExpr Row Key Val) → Option (StreamingWindow Row Key Val)
  | [] => none
  | first :: others =>
    if (first :: others).all (·.isStreamingEligible) then some ⟨first, others⟩ else none

namespace StreamingWindow

variable (w : StreamingWindow Row Key Val)

def selectList : List (WindowExpr Row Key Val) := w.first :: w.others

variable {w} in
theorem eligible_of_rewriteWindow {exprs : List (WindowExpr Row Key Val)} (h : rewriteWindow exprs = some w) :
    ∀ e ∈ w.selectList, e.isStreamingEligible := by
  rcases exprs with _ | ⟨first, others⟩
  · cases h
  · rw [rewriteWindow] at h
    split_ifs at h with hall
    cases h
    exact all_eq_true.1 hall

/-- The keys of the sort below the operator. -/
def sortOrders : List (Row → Key) := w.first.partitions ++ w.first.orders

def sortKey (r : Row) : List Key := w.sortOrders.map (· r)

/-- The orders in which the rows can arrive: sorted, but in any order if their keys are the same. (All are,
    if there are no keys, and then there is no sort.) -/
def Arrival [LinearOrder Key] (rows arrival : List Row) : Prop :=
  arrival.Perm rows ∧ arrival.Pairwise fun r s => w.sortKey r ≤ w.sortKey s

/-- As many keys as the first expression, which is all that is compared. -/
abbrev Counted : Prop :=
  e.partitions.length = w.first.partitions.length ∧ e.orders.length = w.first.orders.length

/-- The rows that a session has received; none when it is opened. -/
def openSession (i : ℕ) : Except Bytes (List (ProjectedRow Key Val)) :=
  if w.Counted e then .ok []
  else
    .error (ascii "VGI streaming window: planner produced expressions with mismatched " ++
      ascii "partition/order key counts in the same node (expr 0: pkc=" ++ decimal w.first.partitions.length ++
      ascii " okc=" ++ decimal w.first.orders.length ++ ascii ", expr " ++ decimal i ++ ascii ": pkc=" ++
      decimal e.partitions.length ++ ascii " okc=" ++ decimal e.orders.length ++ ascii ")")

def openSessions : Except Bytes (List (List (ProjectedRow Key Val))) :=
  w.selectList.zipIdx.mapM fun (e, i) => w.openSession e i

variable [DecidableEq Key] {Out : Type} (worker : Bytes → List Val → Out)

/-- One chunk: what the sessions have received after it, `none` as long as they are not opened, and the
    chunk of the output. -/
def execute (sessions : Option (List (List (ProjectedRow Key Val)))) (input : List Row) :
    Except Bytes (Option (List (List (ProjectedRow Key Val))) × WindowChunk Row Out) :=
  if input = [] then .ok (sessions, ⟨[], w.selectList.map fun _ => []⟩)
  else do
    let opened ← match sessions with
      | some opened => .ok opened
      | none => w.openSessions
    return (some (List.zipWith (fun e received => received ++ input.map e.projectInput) w.selectList opened),
      ⟨input, List.zipWith (fun e received => runningValues (worker e.functionName) received
        (input.map e.projectInput)) w.selectList opened⟩)

/-- The chunks of a whole run. -/
def streamChunks : Option (List (List (ProjectedRow Key Val))) → List (List Row) →
    Except Bytes (List (WindowChunk Row Out))
  | _, [] => .ok []
  | sessions, input :: chunks => do
    let (sessions, out) ← w.execute worker sessions input
    let rest ← streamChunks sessions chunks
    return out :: rest

end StreamingWindow

/-! ## A run of the operator -/

section Run

variable [DecidableEq Row] [LinearOrder Key] {Out : Type} (worker : Bytes → List Val → Out)

/-- The value of a row among those that arrive: the aggregate over its partition up to it. -/
def WindowExpr.runningValue (arrival : List Row) (r : Row) : Out :=
  worker e.functionName ((upTo r (e.partition r arrival)).map e.children)

variable {done : List Row}

theorem WindowExpr.runningValues_eq {input rest : List Row} (h : (done ++ (input ++ rest)).Nodup) :
    runningValues (worker e.functionName) (done.map e.projectInput) (input.map e.projectInput) =
      input.map (e.runningValue worker (done ++ (input ++ rest))) := by
  induction input generalizing done with
  | nil => rfl
  | cons r input ih =>
    -- What has been received with `r` is what arrives up to it.
    have hr : r ∉ done := fun hr => (nodup_append.1 h).2.2 r hr r mem_cons_self rfl
    have hrc : done ++ [r] = upTo r (done ++ (r :: input ++ rest)) := (upTo_append_cons hr _).symm
    have hnx : done ++ (r :: input ++ rest) = (done ++ [r]) ++ (input ++ rest) := by simp
    have hrest := ih (hnx ▸ h)
    rw [← hnx, map_append, map_singleton] at hrest
    rw [map_cons, runningValues, hrest, map_cons, List.cons.injEq, ← map_singleton,
      ← map_append, filter_map, map_map, hrc, runningValue, partition,
      ← filter_upTo (by simp)]
    exact ⟨rfl, rfl⟩

namespace StreamingWindow

variable (w : StreamingWindow Row Key Val)

/-- The chunk with the values of its rows. -/
def answer (arrival input : List Row) : WindowChunk Row Out :=
  ⟨input, w.selectList.map fun e => input.map (e.runningValue worker arrival)⟩

theorem execute_opened {input rest : List Row} (h : (done ++ (input ++ rest)).Nodup) (hinput : input ≠ []) :
    w.execute worker (some (w.selectList.map fun e => done.map e.projectInput)) input =
      .ok (some (w.selectList.map fun e => (done ++ input).map e.projectInput),
        w.answer worker (done ++ (input ++ rest)) input) := by
  have hcl : List.zipWith (fun e received => runningValues (worker e.functionName) received
      (input.map e.projectInput)) w.selectList (w.selectList.map fun e => done.map e.projectInput) =
      w.selectList.map fun e => input.map (e.runningValue worker (done ++ (input ++ rest))) := by
    rw [zipWith_map_right, zipWith_self]
    exact map_congr_left fun e _ => e.runningValues_eq worker h
  have hrc : List.zipWith (fun e received => received ++ input.map e.projectInput) w.selectList
      (w.selectList.map fun e => done.map e.projectInput) =
      w.selectList.map fun e => (done ++ input).map e.projectInput := by
    rw [zipWith_map_right, zipWith_self]
    exact map_congr_left fun e _ => map_append.symm
  rw [execute, if_neg hinput, answer, ← hcl, ← hrc]
  rfl

variable {chunks : List (List Row)}

theorem streamChunks_opened (h : (done ++ chunks.flatten).Nodup) :
    w.streamChunks worker (some (w.selectList.map fun e => done.map e.projectInput)) chunks =
      .ok (chunks.map (w.answer worker (done ++ chunks.flatten))) := by
  induction chunks generalizing done with
  | nil => rfl
  | cons input chunks ih =>
    rw [flatten_cons] at h
    rw [flatten_cons, streamChunks]
    by_cases hinput : input = []
    · subst hinput
      rw [nil_append] at h
      rw [execute, if_pos rfl, nil_append]
      change (do let rest ← w.streamChunks worker _ chunks; .ok (_ :: rest)) = _
      rw [ih h]
      rfl
    · have hnx : done ++ (input ++ chunks.flatten) = (done ++ input) ++ chunks.flatten :=
        (append_assoc _ _ _).symm
      rw [w.execute_opened worker h hinput]
      change (do let rest ← w.streamChunks worker _ chunks; .ok (_ :: rest)) = _
      rw [ih (hnx ▸ h), ← hnx]
      rfl

omit [DecidableEq Row] [LinearOrder Key] in
theorem mem_zipIdx_fst {e : WindowExpr Row Key Val} (he : e ∈ w.selectList) : ∃ i, (e, i) ∈ w.selectList.zipIdx := by
  rw [← zipIdx_map_fst 0 w.selectList] at he
  obtain ⟨⟨_, i⟩, hi, rfl⟩ := mem_map.1 he
  exact ⟨i, hi⟩

omit [DecidableEq Row] [LinearOrder Key] in
theorem openSessions_eq_ok (h : ∀ e ∈ w.selectList, w.Counted e) :
    w.openSessions = .ok (w.selectList.map fun _ => []) := by
  have hopen : w.openSessions = .ok (w.selectList.zipIdx.map fun _ => []) :=
    mapM_of_ok fun (e, i) hi => show w.openSession e i = .ok [] by
      rw [openSession, if_pos (h e (fst_mem_of_mem_zipIdx hi))]
  rw [hopen, map_const', map_const', length_zipIdx]

omit [DecidableEq Row] [LinearOrder Key] in
theorem counted_of_openSessions {opened : List (List (ProjectedRow Key Val))} (h : w.openSessions = .ok opened) :
    ∀ e ∈ w.selectList, w.Counted e := by
  intro e he
  obtain ⟨i, hi⟩ := w.mem_zipIdx_fst he
  obtain ⟨received, hopen⟩ : ∃ received, w.openSession e i = .ok received := ok_of_mapM h hi
  by_contra hcount
  rw [openSession, if_neg hcount] at hopen
  cases hopen

/-- A whole run from the first chunk: every row gets its value among those that arrive. -/
theorem streamChunks_eq_ok (h : chunks.flatten.Nodup) (hcount : chunks.flatten ≠ [] → ∀ e ∈ w.selectList, w.Counted e) :
    w.streamChunks worker none chunks = .ok (chunks.map (w.answer worker chunks.flatten)) := by
  induction chunks with
  | nil => rfl
  | cons input chunks ih =>
    by_cases hinput : input = []
    · -- The sessions are opened by the first chunk that has rows.
      subst hinput
      rw [flatten_cons, nil_append] at h hcount
      rw [flatten_cons, nil_append, streamChunks, execute, if_pos rfl]
      change (do let rest ← w.streamChunks worker none chunks; .ok (_ :: rest)) = _
      rw [ih h hcount]
      rfl
    · have hopen := w.openSessions_eq_ok (hcount fun hnil => hinput (append_eq_nil_iff.1 hnil).1)
      have hex : w.execute worker none input = w.execute worker (some (w.selectList.map fun _ => [])) input := by
        rw [execute, if_neg hinput, execute, if_neg hinput, hopen]
      rw [streamChunks, hex]
      exact w.streamChunks_opened worker (show ([] ++ (input :: chunks).flatten).Nodup from h)

omit [DecidableEq Row] in
theorem counted_of_streamChunks {out : List (WindowChunk Row Out)} (h : w.streamChunks worker none chunks = .ok out)
    (hrows : chunks.flatten ≠ []) : ∀ e ∈ w.selectList, w.Counted e := by
  induction chunks generalizing out with
  | nil => exact absurd rfl hrows
  | cons input chunks ih =>
    rw [streamChunks] at h
    obtain ⟨⟨sessions, first⟩, hfirst, h⟩ := bind_eq_ok.1 h
    rw [execute] at hfirst
    by_cases hinput : input = []
    · subst hinput
      rw [if_pos rfl] at hfirst
      cases hfirst
      obtain ⟨rest, hrest, _⟩ := bind_eq_ok.1 h
      exact ih hrest hrows
    · rw [if_neg hinput] at hfirst
      obtain ⟨opened, hopen, _⟩ := bind_eq_ok.1 hfirst
      exact w.counted_of_openSessions hopen

end StreamingWindow

end Run

/-! ## The values of the operator and those of SQL -/

section Transparent

variable [DecidableEq Row] [LinearOrder Key]

namespace WindowExpr

variable {e : WindowExpr Row Key Val} {r : Row} {rows : List Row}

omit [DecidableEq Row] in
theorem partition_congr {s : Row} (h : e.partitionKey r = e.partitionKey s) (rows : List Row) :
    e.partition r rows = e.partition s rows := by
  rw [partition, partition, h]

omit [DecidableEq Row] in
theorem mem_partition (h : r ∈ rows) : r ∈ e.partition r rows := mem_filter.2 ⟨h, decide_eq_true rfl⟩

omit [DecidableEq Row] in
theorem sublist_partition {s : Row} (h : [r, s].Sublist rows) (hkey : e.partitionKey r = e.partitionKey s) :
    [r, s].Sublist (e.partition r rows) := by
  have hfilter := h.filter fun x => e.partitionKey x = e.partitionKey r
  rwa [filter_eq_self.2 (by simp [hkey])] at hfilter

/-- Rows that arrive in the order of the expression, in every partition, and without peers unless rows are
    counted, get the values of SQL. -/
theorem sqlValues_runningValue {Out : Type} (worker : Bytes → List Val → Out) {unit : FrameUnit}
    (hun : e.windowEnd = .currentRow unit) {arrival : List Row} (hprm : arrival.Perm rows)
    (hsr : ∀ r, (e.partition r arrival).Pairwise fun x y => e.orderKey x ≤ e.orderKey y)
    (hprs : unit ≠ .rows → ∀ r, (e.partition r arrival).Pairwise fun x y => e.orderKey x < e.orderKey y) :
    e.SqlValues worker rows (e.runningValue worker arrival) := by
  -- A stable sort of the arrivals is an order of the expression, and keeps the partitions as they arrive.
  let ordered := arrival.insertionSort fun x y => e.orderKey x ≤ e.orderKey y
  have hpr : ∀ r, e.partition r ordered = e.partition r arrival := fun r => filter_insertionSort (hsr r)
  refine ⟨unit, hun, ordered, (perm_insertionSort _ arrival).trans hprm, ?_, fun r hr => ?_⟩
  · have : Std.Total fun x y : Row => e.orderKey x ≤ e.orderKey y := ⟨fun x y => le_total _ _⟩
    have : IsTrans Row fun x y => e.orderKey x ≤ e.orderKey y := ⟨fun x y z => le_trans⟩
    exact pairwise_insertionSort _ arrival
  · have hmem := mem_partition (e := e) (hprm.mem_iff.2 hr)
    rcases unit with _ | _ | _
    · rw [runningValue, frame, hpr]
    · rw [runningValue, frame, hpr, filter_le_eq_upTo hmem (hprs (by decide) r)]
    · rw [runningValue, frame, hpr, filter_le_eq_upTo hmem (hprs (by decide) r)]

/-- A frame with less rows is that of a row before, and of one that is no peer unless rows are counted. -/
theorem orderKey_of_frame_lt {unit : FrameUnit} {ordered : List Row} (hpr : ordered.Perm rows) (hrows : rows.Nodup)
    (hsr : ordered.Pairwise fun x y => e.orderKey x ≤ e.orderKey y) {s : Row} (hr : r ∈ rows) (hs : s ∈ rows)
    (hne : r ≠ s) (hkey : e.partitionKey r = e.partitionKey s)
    (hlt : (e.frame unit ordered r).length < (e.frame unit ordered s).length) :
    e.orderKey r ≤ e.orderKey s ∧ (unit ≠ .rows → e.orderKey r ≠ e.orderKey s) := by
  have hprs : ((e.partition r ordered).filter fun x => e.orderKey x ≤ e.orderKey r).length <
      ((e.partition s ordered).filter fun x => e.orderKey x ≤ e.orderKey s).length →
      e.orderKey r < e.orderKey s := by
    intro hlt
    by_contra hle
    refine absurd hlt (not_lt.2 ?_)
    rw [partition_congr hkey]
    refine (monotone_filter_right _ fun x hx => ?_).length_le
    exact decide_eq_true ((of_decide_eq_true hx).trans (not_lt.1 hle))
  rcases unit with _ | _ | _
  · refine ⟨?_, fun hun => absurd rfl hun⟩
    rcases pair_sublist_of_mem (hpr.mem_iff.2 hr) (hpr.mem_iff.2 hs) hne with hsub | hsub
    · exact (pairwise_pair (R := fun x y => e.orderKey x ≤ e.orderKey y)).1 (hsr.sublist hsub)
    · -- The rows in between come with `r`.
      have hlt' := length_upTo_lt (sublist_partition hsub hkey.symm) ((hpr.nodup_iff.2 hrows).filter _)
      rw [frame, frame, partition_congr hkey] at hlt
      exact absurd hlt (not_lt.2 hlt'.le)
  · exact ⟨(hprs hlt).le, fun _ => (hprs hlt).ne⟩
  · exact ⟨(hprs hlt).le, fun _ => (hprs hlt).ne⟩

end WindowExpr

namespace StreamingWindow

variable (w : StreamingWindow Row Key Val)

/-- Whatever the aggregates are, however rows with the same keys are sorted and the input is cut into
    chunks, the run succeeds, and the rows carry the values of SQL for every expression. -/
def Transparent (rows : List Row) : Prop :=
  ∀ (Out : Type) (worker : Bytes → List Val → Out) (chunks : List (List Row)), w.Arrival rows chunks.flatten →
    ∃ out : List (WindowChunk Row Out), w.streamChunks worker none chunks = .ok out ∧
      out.flatMap (·.rows) = chunks.flatten ∧
      ∀ (i : ℕ) (e : WindowExpr Row Key Val), w.selectList[i]? = some e → ∃ val, e.SqlValues worker rows val ∧
        ∀ chunk ∈ out, chunk.columns[i]? = some (chunk.rows.map val)

omit [DecidableEq Row] in
theorem arrival_insertionSort (rows : List Row) :
    w.Arrival rows (rows.insertionSort fun x y => w.sortKey x ≤ w.sortKey y) := by
  have : Std.Total fun x y : Row => w.sortKey x ≤ w.sortKey y := ⟨fun x y => le_total _ _⟩
  have : IsTrans Row fun x y => w.sortKey x ≤ w.sortKey y := ⟨fun x y z => le_trans⟩
  exact ⟨perm_insertionSort _ rows, pairwise_insertionSort _ rows⟩

variable {rows : List Row}

/-- Any two rows can arrive one after the other if their keys allow it. -/
theorem exists_arrival {r s : Row} (hr : r ∈ rows) (hs : s ∈ rows) (hne : r ≠ s)
    (hkey : w.sortKey r ≤ w.sortKey s) : ∃ arrival, w.Arrival rows arrival ∧ [r, s].Sublist arrival := by
  have hs' : s ∈ rows.erase r := (mem_erase_of_ne (Ne.symm hne)).2 hs
  have hpr : rows.Perm (r :: s :: (rows.erase r).erase s) := (perm_cons_erase hr).trans ((perm_cons_erase hs').cons r)
  obtain ⟨hsort, hsr⟩ := w.arrival_insertionSort (r :: s :: (rows.erase r).erase s)
  exact ⟨_, ⟨hsort.trans hpr.symm, hsr⟩, pair_sublist_insertionSort hkey ((nil_sublist _).cons_cons s |>.cons_cons r)⟩

variable {e : WindowExpr Row Key Val}

/-- Two rows of a partition can only be told apart by the sort if that is how the expression orders them. -/
theorem orderKey_of_transparent {arrival : List Row} (h : w.Transparent rows) (hrows : rows.Nodup)
    (har : w.Arrival rows arrival) (he : e ∈ w.selectList) {r s : Row}
    (hsub : [r, s].Sublist arrival) (hne : r ≠ s) (hkey : e.partitionKey r = e.partitionKey s) :
    e.orderKey r ≤ e.orderKey s ∧ (e.windowEnd ≠ .currentRow .rows → e.orderKey r ≠ e.orderKey s) := by
  -- Counting the rows is enough to see in which order they came.
  have hnd : arrival.Nodup := har.1.nodup_iff.2 hrows
  obtain ⟨hr, hs⟩ : r ∈ arrival ∧ s ∈ arrival :=
    ⟨hsub.subset mem_cons_self, hsub.subset (mem_cons_of_mem _ mem_cons_self)⟩
  obtain ⟨out, hout, _, hvl⟩ := h ℕ (fun _ vs => vs.length) [arrival] (by rwa [flatten_singleton])
  have hcount := w.counted_of_streamChunks _ hout (by
    rw [flatten_singleton]
    exact ne_nil_of_mem hr)
  rw [w.streamChunks_eq_ok _ (by rwa [flatten_singleton]) fun _ => hcount, flatten_singleton] at hout
  cases hout
  obtain ⟨i, hi⟩ := getElem?_of_mem he
  obtain ⟨val, ⟨unit, hun, ordered, hpr, hsr, hval⟩, hcl⟩ := hvl i e hi
  have hcl := hcl _ mem_cons_self
  rw [answer, getElem?_map, hi] at hcl
  have hrn := map_inj_left.1 (Option.some.inj hcl)
  have hlen : ∀ x ∈ arrival, (e.frame unit ordered x).length = (upTo x (e.partition x arrival)).length := by
    intro x hx
    have hx' := (hval x (har.1.mem_iff.1 hx)).symm.trans (hrn x hx).symm
    simpa only [runningValue, length_map] using hx'
  have hlt : (e.frame unit ordered r).length < (e.frame unit ordered s).length := by
    rw [hlen r hr, hlen s hs, ← partition_congr hkey]
    exact length_upTo_lt (sublist_partition hsub hkey) (hnd.filter _)
  obtain ⟨hle, hprs⟩ := orderKey_of_frame_lt hpr hrows hsr (har.1.mem_iff.1 hr) (har.1.mem_iff.1 hs) hne hkey hlt
  exact ⟨hle, fun hrw => hprs fun hun' => hrw (hun' ▸ hun)⟩

/-- Rows are told apart by the sort, in every partition of an expression, only as that expression orders
    them, and they have no peers unless rows are counted. -/
abbrev InOrder (e : WindowExpr Row Key Val) (rows : List Row) : Prop :=
  ∀ r ∈ rows, ∀ s ∈ rows, r ≠ s → e.partitionKey r = e.partitionKey s →
    (w.sortKey r ≤ w.sortKey s → e.orderKey r ≤ e.orderKey s) ∧
    (e.windowEnd ≠ .currentRow .rows → e.orderKey r ≠ e.orderKey s)

theorem counted_of_transparent (h : w.Transparent rows) (hne : rows ≠ []) : ∀ e ∈ w.selectList, w.Counted e := by
  have har := w.arrival_insertionSort rows
  rw [← flatten_singleton (l := rows.insertionSort _)] at har
  obtain ⟨out, hout, _⟩ := h ℕ (fun _ vs => vs.length) _ har
  refine w.counted_of_streamChunks _ hout fun hnil => hne ?_
  rw [hnil] at har
  exact har.1.nil_eq.symm

theorem inOrder_of_transparent (h : w.Transparent rows) (hrows : rows.Nodup)
    (he : e ∈ w.selectList) : w.InOrder e rows := by
  intro r hr s hs hne hkey
  refine ⟨fun hle => ?_, fun hend => ?_⟩
  · obtain ⟨arrival, har, hsub⟩ := w.exists_arrival hr hs hne hle
    exact (w.orderKey_of_transparent h hrows har he hsub hne hkey).1
  -- Whichever of the two comes first.
  rcases le_total (w.sortKey r) (w.sortKey s) with hle | hle
  · obtain ⟨arrival, har, hsub⟩ := w.exists_arrival hr hs hne hle
    exact (w.orderKey_of_transparent h hrows har he hsub hne hkey).2 hend
  · obtain ⟨arrival, har, hsub⟩ := w.exists_arrival hs hr hne.symm hle
    exact ((w.orderKey_of_transparent h hrows har he hsub hne.symm hkey.symm).2 hend).symm

variable {w}

theorem sqlValues_of_inOrder {arrival : List Row} (hrows : rows.Nodup) (har : w.Arrival rows arrival)
    (he : e.isStreamingEligible) (h : w.InOrder e rows) {Out : Type}
    (worker : Bytes → List Val → Out) : e.SqlValues worker rows (e.runningValue worker arrival) := by
  obtain ⟨hprm, hsr⟩ := har
  obtain ⟨unit, hun⟩ := windowEnd_of_eligible he
  have hpr : ∀ r, (e.partition r arrival).Pairwise fun x y =>
      e.orderKey x ≤ e.orderKey y ∧ (unit ≠ .rows → e.orderKey x ≠ e.orderKey y) := by
    intro r
    refine ((hsr.and (hprm.nodup_iff.2 hrows)).filter _).imp_of_mem fun {x y} hx hy hxy => ?_
    obtain ⟨hx, hxr⟩ := mem_filter.1 hx
    obtain ⟨hy, hyr⟩ := mem_filter.1 hy
    obtain ⟨hle, hprs⟩ := h x (hprm.mem_iff.1 hx) y (hprm.mem_iff.1 hy) hxy.2
      ((of_decide_eq_true hxr).trans (of_decide_eq_true hyr).symm)
    exact ⟨hle hxy.1, fun hne => hprs fun hend => hne (WindowBoundary.currentRow.inj (hun.symm.trans hend))⟩
  exact sqlValues_runningValue worker hun hprm (fun r => (hpr r).imp And.left)
    fun hne r => (hpr r).imp fun hxy => lt_of_le_of_ne hxy.1 (hxy.2 hne)

theorem transparent_of_inOrder (hrows : rows.Nodup)
    (hel : ∀ e ∈ w.selectList, e.isStreamingEligible) (hcount : rows ≠ [] → ∀ e ∈ w.selectList, w.Counted e)
    (hor : ∀ e ∈ w.selectList, w.InOrder e rows) : w.Transparent rows := by
  intro Out worker chunks har
  have hnd : chunks.flatten.Nodup := har.1.nodup_iff.2 hrows
  have hrun := w.streamChunks_eq_ok worker hnd fun hne => hcount fun hnil => hne (by
    subst hnil
    exact har.1.eq_nil)
  refine ⟨_, hrun, ?_, fun i e hi => ?_⟩
  · rw [flatMap_map]
    exact flatMap_id'
  have he : e ∈ w.selectList := mem_of_getElem? hi
  refine ⟨_, sqlValues_of_inOrder hrows har (hel e he) (hor e he) worker, fun chunk hch => ?_⟩
  obtain ⟨input, _, rfl⟩ := mem_map.1 hch
  rw [answer, getElem?_map, hi]
  rfl

omit [DecidableEq Row] in
theorem orderKey_le_of_sortKey_le (hparts : e.partitions = w.first.partitions)
    (horders : e.orders = w.first.orders) {r s : Row} (hkey : e.partitionKey r = e.partitionKey s)
    (hle : w.sortKey r ≤ w.sortKey s) : e.orderKey r ≤ e.orderKey s := by
  have hsort : ∀ x, w.sortKey x = e.partitionKey x ++ e.orderKey x := fun x => by
    rw [sortKey, sortOrders, map_append, ← hparts, ← horders, partitionKey, orderKey]
  rw [hsort, hsort, hkey] at hle
  by_contra hlt
  exact absurd hle (not_le.2 (append_left_lt (not_le.1 hlt)))

/-- What the rewrite is meant for: expressions over the same window, whose frames count rows. -/
theorem transparent_of_alike {exprs : List (WindowExpr Row Key Val)} (hw : rewriteWindow exprs = some w)
    (hal : ∀ e ∈ w.selectList, e.partitions = w.first.partitions ∧ e.orders = w.first.orders ∧
      e.windowEnd = .currentRow .rows) (hrows : rows.Nodup) : w.Transparent rows := by
  refine transparent_of_inOrder hrows (eligible_of_rewriteWindow hw) (fun _ e he => ?_) fun e he => ?_
  · obtain ⟨hparts, horders, _⟩ := hal e he
    exact ⟨congrArg List.length hparts, congrArg List.length horders⟩
  · obtain ⟨hparts, horders, hend⟩ := hal e he
    exact fun r _ s _ _ hkey => ⟨orderKey_le_of_sortKey_le hparts horders hkey, fun hne => absurd hend hne⟩

/-- The operator gives the values of SQL exactly if all expressions have as many keys as the first one, and
    the rows are in the order of each of them when they are in the order of the *first* one, without peers
    unless the frame counts rows. -/
theorem transparent_iff {exprs : List (WindowExpr Row Key Val)} (hw : rewriteWindow exprs = some w)
    {rows : List Row} (hrows : rows.Nodup) :
    w.Transparent rows ↔ (rows ≠ [] → ∀ e ∈ w.selectList, w.Counted e) ∧ ∀ e ∈ w.selectList, w.InOrder e rows :=
  ⟨fun h => ⟨w.counted_of_transparent h, fun _ he => w.inOrder_of_transparent h hrows he⟩,
    fun ⟨hcount, hor⟩ => transparent_of_inOrder hrows (eligible_of_rewriteWindow hw) hcount hor⟩

end StreamingWindow

end Transparent

/-! ## Counts over small tables -/

/-- A row with two columns; the first component tells it from others. -/
abbrev SmallRow := ℕ × ℤ × ℤ

def runningCount : AggregateInfo := ⟨ascii "running_count", true, [false]⟩

/-- `OVER (PARTITION BY … ORDER BY …)` with a frame up to the current row. -/
def countOver (partitions orders : List (SmallRow → ℤ)) (unit : FrameUnit) : WindowExpr SmallRow ℤ Unit :=
  { aggregate := some runningCount, children := fun _ => (), partitions, orders, windowEnd := .currentRow unit }

def counting (_ : Bytes) (vs : List Unit) : ℕ := vs.length

def countedRows : WindowExpr SmallRow ℤ Unit := countOver [fun r => r.2.1] [fun r => r.2.2] .rows

theorem alike_counted : (⟨countedRows, [countedRows]⟩ : StreamingWindow SmallRow ℤ Unit).Transparent
    [(0, 1, 5), (1, 2, 3), (2, 1, 5), (3, 2, 3)] :=
  StreamingWindow.transparent_of_alike
    (show rewriteWindow [countedRows, countedRows] = some ⟨countedRows, [countedRows]⟩ from rfl)
    (by simp [StreamingWindow.selectList, countedRows, countOver]) (by decide)

/-- Rows are counted, with ties in both partitions. -/
theorem ties_counted :
    (⟨countedRows, []⟩ : StreamingWindow SmallRow ℤ Unit).Transparent
      [(0, 1, 5), (1, 2, 3), (2, 1, 5), (3, 2, 3)] :=
  (StreamingWindow.transparent_iff (show rewriteWindow [countedRows] = some ⟨countedRows, []⟩ from rfl)
    (by decide)).2 (by decide)

def countedPeers : WindowExpr SmallRow ℤ Unit := countOver [] [fun r => r.2.1] .range

def countedByFirst : WindowExpr SmallRow ℤ Unit := countOver [] [fun r => r.2.1] .rows

def countedBySecond : WindowExpr SmallRow ℤ Unit := countOver [] [fun r => r.2.2] .rows

variable {val : SmallRow → ℕ}

theorem countedPeers_tie (h : countedPeers.SqlValues counting [(0, 7, 0), (1, 7, 0)] val) : val (0, 7, 0) = 2 := by
  obtain ⟨unit, hun, ordered, hpr, _, hval⟩ := h
  obtain rfl := WindowBoundary.currentRow.inj hun
  rw [hval _ (by decide), counting, length_map]
  exact ((hpr.filter _).filter _).length_eq.trans (by decide)

theorem countedBySecond_first (h : countedBySecond.SqlValues counting [(0, 1, 9), (1, 2, 8)] val) :
    val (0, 1, 9) = 2 := by
  obtain ⟨unit, hun, ordered, hpr, hsr, hval⟩ := h
  obtain rfl := WindowBoundary.currentRow.inj hun
  -- There is only one order.
  have hks : ∀ r ∈ [(0, 1, 9), (1, 2, 8)], ∀ s ∈ [(1, 2, 8), (0, 1, 9)],
      countedBySecond.orderKey r ≤ countedBySecond.orderKey s →
      countedBySecond.orderKey s ≤ countedBySecond.orderKey r → r = s := by decide
  have hor : ordered = [(1, 2, 8), (0, 1, 9)] :=
    List.Perm.eq_of_pairwise (fun r s hr hs => hks r (hpr.mem_iff.1 hr) s hs) hsr (by decide)
      (hpr.trans (List.Perm.swap _ _ _))
  rw [hval _ (by decide), hor]
  decide

/-- The first of two peers has the value of a table without the other one, and an expression that orders the
    rows otherwise than the first does gets the counts of the first one's order. -/
theorem peers_missed :
    rewriteWindow [countedPeers] = some ⟨countedPeers, []⟩ ∧
    (⟨countedPeers, []⟩ : StreamingWindow SmallRow ℤ Unit).Arrival [(0, 7, 0), (1, 7, 0)] [(0, 7, 0), (1, 7, 0)] ∧
    StreamingWindow.streamChunks ⟨countedPeers, []⟩ counting none [[(0, 7, 0), (1, 7, 0)]] =
      .ok [⟨[(0, 7, 0), (1, 7, 0)], [[1, 2]]⟩] ∧
    (∀ val, countedPeers.SqlValues counting [(0, 7, 0), (1, 7, 0)] val → val (0, 7, 0) = 2) ∧
    rewriteWindow [countedByFirst, countedBySecond] = some ⟨countedByFirst, [countedBySecond]⟩ ∧
    (⟨countedByFirst, [countedBySecond]⟩ : StreamingWindow SmallRow ℤ Unit).Arrival
      [(0, 1, 9), (1, 2, 8)] [(0, 1, 9), (1, 2, 8)] ∧
    StreamingWindow.streamChunks ⟨countedByFirst, [countedBySecond]⟩ counting none [[(0, 1, 9), (1, 2, 8)]] =
      .ok [⟨[(0, 1, 9), (1, 2, 8)], [[1, 2], [1, 2]]⟩] ∧
    ∀ val, countedBySecond.SqlValues counting [(0, 1, 9), (1, 2, 8)] val → val (0, 1, 9) = 2 :=
  ⟨rfl, ⟨List.Perm.refl _, by decide⟩, by decide +kernel, fun _ => countedPeers_tie, rfl,
    ⟨List.Perm.refl _, by decide⟩, by decide +kernel, fun _ => countedBySecond_first⟩

end Vgi
