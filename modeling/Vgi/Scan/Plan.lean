import Vgi.Lib.Fallible
import Vgi.Lib.Text

/-!
# The plan of a split scan

The client asks the worker for the splits of a scan, page by page. A page may hand out
cursors, each of which stands for further pages; they wait in a queue until they are
asked for (`invokeTableFunctionPlan`). Too many pages or splits, an interrupt and a
response that is not a page end the planning with an error.

* `PlanState.Inv`: the cursors that were asked for and those in the queue are all that
  the pages have handed out, in their order;
* `plan_complete`: so a plan has the splits of all pages there are.
-/

namespace Vgi.Plan

open List

/-! ## The model -/

/-- One split, as the scan redeems it. -/
structure VgiScanSplit where
  token : Bytes
  keyValue : Option Bytes
deriving DecidableEq

/-- One answer of the worker. -/
structure VgiScanPlanPage where
  splits : List VgiScanSplit
  nextCursors : List Bytes
  maxWorkers : ℤ
  catalogVersion : ℤ
  scope : Bytes
  executionId : Bytes
  initOpaqueData : Bytes
  keyGrouping : Option Bytes
  identityKeyColumns : Option (List Bytes)
deriving DecidableEq

structure VgiScanPlan where
  splits : List VgiScanSplit := []
  maxWorkers : ℤ := 0
  catalogVersion : ℤ := 0
  scope : Bytes := []
  executionId : Bytes := []
  initOpaqueData : Bytes := []
  identityKeyColumns : Option (List Bytes) := none
  functionName : Bytes
  pages : ℕ := 0
deriving DecidableEq

open VgiScanPlan

inductive PlanError
  | interrupted
  /-- The transport or the worker failed. -/
  | rpc (message : Bytes)
  | violation (field message : Bytes)
  | limitExceeded (limit : ℕ) (message : Bytes)
deriving DecidableEq

/-- A row of a response, with the columns of the registered schema. A cell may be null. -/
structure PlanRow where
  splits : Option (List (Option Bytes))
  nextCursors : Option (List (Option Bytes)) := none
  maxWorkers : Option ℤ := none
  catalogVersion : Option ℤ := none
  executionId : Option Bytes := none
  initOpaqueData : Option Bytes := none
  keyGrouping : Option Bytes := none
  scope : Option Bytes

/-- A response in its envelope. -/
inductive PlanReply
  | failed (message : Bytes)
  /-- An empty envelope, or a `NULL` in it. -/
  | null
  /-- A batch of another schema. -/
  | drifted (diff : Bytes)
  | rows (rows : List PlanRow)

structure TransformSpec where
  id : Bytes
  parameters : Option Bytes
  inputs : List Bytes

/-- The decoders of the records in a response. A `ScanSplit` may have no rows. -/
structure PlanCodec where
  split : Bytes → Except PlanError (Option VgiScanSplit)
  keyGrouping : Bytes → Except PlanError (List Bytes)
  transform : Bytes → Except PlanError TransformSpec
  fieldPath : Bytes → Except PlanError (List Bytes)

structure PlanRequest where
  bindCall : Bytes
  bindOpaqueData : Option Bytes
  projectionIds : Option (List ℤ)
  pushdownFilters : Option Bytes
  targetSplitBytes : Option ℤ
  minSplits : Option ℤ
  cursor : Option Bytes
  filtersComplete : Bool

/-- What one planning is about, with the worker, which may answer each request as it likes. -/
structure Planning where
  workerPath : Bytes
  bindRequestBytes : Bytes
  bindOpaqueData : Bytes := []
  projectionIds : List ℤ := []
  pushdownFilters : Bytes := []
  minSplits : ℤ := 0
  targetSplitBytes : ℤ := 0
  functionName : Bytes
  /-- The setting `vgi_split_plan_max_pages`. -/
  maxPagesSetting : Option ℕ := none
  codec : PlanCodec
  /-- The answer to the request of this number. -/
  worker : ℕ → PlanRequest → PlanReply
  /-- Whether the query was interrupted before the request of this number. -/
  interrupted : ℕ → Bool := fun _ => false

namespace Planning

variable (p : Planning)

def maxPages : ℕ :=
  match p.maxPagesSetting with
  | some configured => if 0 < configured then configured else 1024
  | none => 1024

def maxSplits : ℕ := 2 ^ 20

/-- An empty value is sent as null. -/
def bytesOrNull (b : Bytes) : Option Bytes := if b.isEmpty then none else some b

def buildTableFunctionPlanRequest (cursor : Bytes) : PlanRequest where
  bindCall := p.bindRequestBytes
  bindOpaqueData := bytesOrNull p.bindOpaqueData
  projectionIds := if p.projectionIds.isEmpty then none else some p.projectionIds
  pushdownFilters := bytesOrNull p.pushdownFilters
  targetSplitBytes := if 0 < p.targetSplitBytes then some p.targetSplitBytes else none
  minSplits := if 0 < p.minSplits then some p.minSplits else none
  cursor := bytesOrNull cursor
  filtersComplete := true

/-! ### Responses -/

def violation {α : Type} (field : String) (before after : String) : Except PlanError α :=
  .error (.violation (ascii field) (ascii before ++ p.workerPath ++ ascii after))

/-- What the wire contract says of a response. -/
inductive ResponseSchema
  | dynamic
  | void
  | record

/-- The contract of `table_function_plan`, from the generated table of methods. -/
def planResponse : ResponseSchema := .record

/-- The batch of a response, if it is one that the contract allows. -/
def extractAndDeserializeResult (contract : ResponseSchema) (reply : PlanReply) :
    Except PlanError (Option (List PlanRow)) :=
  match contract, reply with
  | _, .failed message => .error (.rpc message)
  | .dynamic, .null => .ok none
  | .dynamic, .drifted _ => .ok (some [])
  | .dynamic, .rows rows => .ok (some rows)
  | .void, .null => .ok none
  | .void, .drifted _ => .ok (some [])
  | .void, .rows rows =>
    if rows.isEmpty then .ok (some rows)
    else .error (.rpc (ascii "RPC method 'table_function_plan' returned a non-empty result batch"))
  | .record, .null => .error (.rpc (ascii "RPC method 'table_function_plan' returned an empty response, " ++
      ascii "but the wire contract requires a result batch"))
  | .record, .drifted diff => .error (.rpc (ascii "Worker returned an out-of-date Apache Arrow schema. " ++ diff))
  | .record, .rows rows => .ok (some rows)

def parseSplit (cell : Option Bytes) : Except PlanError VgiScanSplit :=
  match cell with
  | none => p.violation "splits" "VGI worker '" "' returned a null entry in plan 'splits'"
  | some bytes => do
    match ← p.codec.split bytes with
    | none => p.violation "splits" "VGI worker '" "' returned an unparseable ScanSplit"
    | some split =>
      if split.token.isEmpty then
        p.violation "token" "VGI worker '"
          "' returned a ScanSplit with no token; the framework stamps this, so an absent token means the worker bypassed it."
      else return split

/-- The cursors of a page: an empty entry is none. -/
def parseCursors : List (Option Bytes) → Except PlanError (List Bytes)
  | [] => .ok []
  | none :: _ => p.violation "next_cursors" "VGI worker '" "' returned a null plan continuation cursor"
  | some cursor :: cells => do
    let cursors ← parseCursors cells
    return if cursor.isEmpty then cursors else cursor :: cursors

/-- The columns of a grouping by columns as they are, `none` for any other grouping. -/
def identityColumns : List Bytes → Except PlanError (Option (List Bytes))
  | [] => .ok (some [])
  | key :: keys => do
    let transform ← p.codec.transform key
    match transform.parameters, transform.inputs with
    | none, [input] =>
      if transform.id = ascii "vgi.identity/1" then
        match ← p.codec.fieldPath input with
        | [column] => return (← identityColumns keys).map (column :: ·)
        | _ => return none
      else return none
    | _, _ => return none

def parseKeyGrouping : Option Bytes → Except PlanError (Option (List Bytes))
  | none => .ok none
  | some grouping => do
    let columns ← p.identityColumns (← p.codec.keyGrouping grouping)
    return columns.filter fun columns => !columns.isEmpty

def parseVgiScanPlanPage : List PlanRow → Except PlanError VgiScanPlanPage
  | [row] => do
    match row.splits with
    | none => p.violation "splits" "VGI worker '" "' returned a plan without a non-null list<binary> 'splits' field"
    | some cells =>
      let splits ← cells.mapM p.parseSplit
      let nextCursors ← p.parseCursors (row.nextCursors.getD [])
      let identityKeyColumns ← p.parseKeyGrouping row.keyGrouping
      match row.scope with
      | none => p.violation "scope" "VGI worker '" "' returned a plan without a non-null utf8 'scope' field"
      | some scope =>
        return {
          splits, nextCursors, identityKeyColumns, scope
          maxWorkers := row.maxWorkers.getD 0
          catalogVersion := row.catalogVersion.getD 0
          executionId := row.executionId.getD []
          initOpaqueData := row.initOpaqueData.getD []
          keyGrouping := row.keyGrouping }
  | rows =>
    .error (.violation (ascii "result") (ascii "VGI worker '" ++ p.workerPath ++
      ascii "' returned a plan response with " ++ decimal rows.length ++ ascii " rows; expected exactly one"))

/-! ### The loop -/

end Planning

/-- Where the planning stands. -/
structure PlanState where
  plan : VgiScanPlan
  pendingCursors : List Bytes := [[]]
  pages : ℕ := 0
  firstKeyGrouping : Option Bytes := none
  keyGroupingConsistent : Bool := true

open PlanState

namespace PlanState

/-- Take up a page. The first one gives the facts about the plan. -/
def addPage (st : PlanState) (page : VgiScanPlanPage) : PlanState :=
  let plan :=
    if st.pages = 0 then
      { st.plan with
        maxWorkers := page.maxWorkers
        catalogVersion := page.catalogVersion
        scope := page.scope
        executionId := page.executionId
        initOpaqueData := page.initOpaqueData
        identityKeyColumns := page.identityKeyColumns }
    else st.plan
  { plan := { plan with splits := st.plan.splits ++ page.splits, pages := st.pages + 1 }
    pendingCursors := st.pendingCursors ++ page.nextCursors
    pages := st.pages + 1
    firstKeyGrouping := if st.pages = 0 then page.keyGrouping else st.firstKeyGrouping
    keyGroupingConsistent := st.keyGroupingConsistent &&
      (st.pages = 0 || page.keyGrouping = st.firstKeyGrouping) }

def finish (st : PlanState) : VgiScanPlan :=
  if st.keyGroupingConsistent then st.plan else { st.plan with identityKeyColumns := none }

end PlanState

namespace Planning

variable (p : Planning)

def pageCapError : PlanError :=
  .limitExceeded p.maxPages (ascii "VGI worker '" ++ p.workerPath ++ ascii "' function '" ++ p.functionName ++
    ascii "' exceeded the scan-planning page cap (" ++ decimal p.maxPages ++
    ascii " pages) without exhausting its cursor; refusing to scan a partial split enumeration.")

def splitCapError : PlanError :=
  .limitExceeded maxSplits (ascii "VGI worker '" ++ p.workerPath ++ ascii "' returned more than " ++
    decimal maxSplits ++ ascii " splits for one scan; refusing to buffer an unbounded split vector.")

/-- Ask for the pages of the cursors in the queue; `n` more pages may come. -/
def loop : ℕ → PlanState → Except PlanError VgiScanPlan
  | n, st =>
    match st.pendingCursors with
    | [] => .ok st.finish
    | cursor :: pendingCursors =>
      if p.interrupted st.pages then .error .interrupted
      else
        match n with
        | 0 => .error p.pageCapError
        | n + 1 => do
          let reply := p.worker st.pages (p.buildTableFunctionPlanRequest cursor)
          match ← extractAndDeserializeResult planResponse reply with
          | none => return st.finish
          | some rows =>
            let st := addPage { st with pendingCursors } (← p.parseVgiScanPlanPage rows)
            if maxSplits < st.plan.splits.length then .error p.splitCapError else loop n st

/-- The plan of the scan. The first request has no cursor. -/
def invokeTableFunctionPlan : Except PlanError VgiScanPlan :=
  p.loop p.maxPages { plan := { functionName := p.functionName } }

end Planning

/-! ## What a plan should be -/

/-- The plan of these pages: all their splits, and the facts that the first one states. It is
    grouped by key only if the pages agree on the grouping. -/
def planOf (functionName : Bytes) : List VgiScanPlanPage → VgiScanPlan
  | [] => { functionName }
  | first :: rest =>
    { splits := (first :: rest).flatMap (·.splits)
      maxWorkers := first.maxWorkers
      catalogVersion := first.catalogVersion
      scope := first.scope
      executionId := first.executionId
      initOpaqueData := first.initOpaqueData
      identityKeyColumns :=
        if ∀ page ∈ rest, page.keyGrouping = first.keyGrouping then first.identityKeyColumns else none
      functionName
      pages := rest.length + 1 }

/-- The plan without a grouping. -/
def VgiScanPlan.ungrouped (plan : VgiScanPlan) : VgiScanPlan := { plan with identityKeyColumns := none }

theorem VgiScanPlan.eq_of_ungrouped {a b : VgiScanPlan} (h : a.ungrouped = b.ungrouped)
    (hcl : a.identityKeyColumns = b.identityKeyColumns) : a = b := by
  obtain ⟨⟩ := a
  obtain ⟨⟩ := b
  rw [ungrouped, ungrouped, mk.injEq] at h
  simp_all only

/-- The worker has answered the request of this number, for this cursor, with this page. -/
def Planning.Answered (p : Planning) (i : ℕ) (cursor : Bytes) (page : VgiScanPlanPage) : Prop :=
  ∃ rows, p.worker i (p.buildTableFunctionPlanRequest cursor) = .rows rows ∧
    p.parseVgiScanPlanPage rows = .ok page

/-- The requests and their pages are a whole enumeration: each request was answered, and the cursors are no cursor, for
    the first request, and then those that the pages handed out, each once and in their order. -/
structure Planning.Enumerates (p : Planning) (requests : List (Bytes × VgiScanPlanPage)) : Prop where
  answered : ∀ (i : ℕ) (x : Bytes × VgiScanPlanPage), requests[i]? = some x → p.Answered i x.1 x.2
  followed : requests.map (·.1) = [] :: requests.flatMap (·.2.nextCursors)

/-! ## The loop asks for all pages -/

namespace PlanState

/-- The state after these requests. -/
structure Inv (p : Planning) (requests : List (Bytes × VgiScanPlanPage)) (st : PlanState) : Prop where
  answered : ∀ (i : ℕ) (x : Bytes × VgiScanPlanPage), requests[i]? = some x → p.Answered i x.1 x.2
  /-- What the pages handed out was asked for, or is in the queue. -/
  followed : requests.map (·.1) ++ st.pendingCursors = [] :: requests.flatMap (·.2.nextCursors)
  pages : st.pages = requests.length
  firstKeyGrouping : st.firstKeyGrouping = (requests.head?).bind (·.2.keyGrouping)
  consistent : st.keyGroupingConsistent = true ↔
    ∀ x ∈ requests.tail, x.2.keyGrouping = st.firstKeyGrouping
  identityKeyColumns : st.plan.identityKeyColumns = (requests.head?).bind (·.2.identityKeyColumns)
  /-- But for the grouping, the plan is that of the pages. -/
  plan : st.plan.ungrouped = (planOf p.functionName (requests.map (·.2))).ungrouped

variable {p : Planning} {requests : List (Bytes × VgiScanPlanPage)} {st : PlanState}

theorem inv_start (p : Planning) : Inv p [] { plan := { functionName := p.functionName } } where
  answered := fun _ _ hx => nomatch hx
  followed := rfl
  pages := rfl
  firstKeyGrouping := rfl
  consistent := iff_of_true rfl fun _ hx => nomatch hx
  identityKeyColumns := rfl
  plan := rfl

/-- The plan of one page more, but for the grouping. -/
theorem planOf_concat (functionName : Bytes) (first : VgiScanPlanPage) (rest : List VgiScanPlanPage)
    (page : VgiScanPlanPage) :
    (planOf functionName (first :: rest ++ [page])).ungrouped =
      { (planOf functionName (first :: rest)).ungrouped with
        splits := (planOf functionName (first :: rest)).splits ++ page.splits
        pages := (planOf functionName (first :: rest)).pages + 1 } := by
  simp [planOf, ungrouped]

theorem Inv.addPage {cursor : Bytes} {pendingCursors : List Bytes} {page : VgiScanPlanPage} (h : Inv p requests st)
    (hpn : st.pendingCursors = cursor :: pendingCursors) (hpg : p.Answered st.pages cursor page) :
    Inv p (requests ++ [(cursor, page)]) (addPage { st with pendingCursors } page) := by
  have han i (x : Bytes × VgiScanPlanPage) (hx : (requests ++ [(cursor, page)])[i]? = some x) :
      p.Answered i x.1 x.2 := by
    rcases Nat.lt_trichotomy i requests.length with hlt | rfl | hgt
    · exact h.answered i x (List.getElem?_append_left hlt ▸ hx)
    · rw [List.getElem?_concat_length] at hx
      cases hx
      exact h.pages ▸ hpg
    · rw [List.getElem?_eq_none (by rw [length_append]; exact hgt)] at hx
      cases hx
  have hfl : (requests ++ [(cursor, page)]).map (·.1) ++ (pendingCursors ++ page.nextCursors) =
      [] :: (requests ++ [(cursor, page)]).flatMap (·.2.nextCursors) := by
    have := h.followed
    rw [hpn] at this
    rw [map_append, flatMap_append, ← cons_append, ← this]
    simp
  have hlen : st.pages + 1 = (requests ++ [(cursor, page)]).length := by
    rw [h.pages, length_append]
    rfl
  rcases requests with _ | ⟨first, rest⟩
  · -- the first page
    have hpgs : st.pages = 0 := h.pages
    have hcn : st.keyGroupingConsistent = true := h.consistent.2 nofun
    have hpl := h.plan
    rw [addPage]
    simp only [hpgs, if_true, hcn]
    refine ⟨han, hfl, rfl, rfl, iff_of_true rfl nofun, rfl, ?_⟩
    simp only [planOf, VgiScanPlan.ungrouped, VgiScanPlan.mk.injEq, map_nil] at hpl
    simp [planOf, VgiScanPlan.ungrouped, hpl]
  · have hpgs : st.pages ≠ 0 := h.pages ▸ Nat.succ_ne_zero _
    rw [addPage]
    simp only [hpgs, if_false, decide_false, Bool.false_or]
    refine ⟨han, hfl, hlen, h.firstKeyGrouping, ?_, h.identityKeyColumns, ?_⟩
    · rw [Bool.and_eq_true, h.consistent, decide_eq_true_eq, cons_append, tail_cons,
        tail_cons, forall_mem_append, forall_mem_singleton]
    rw [map_append, map_cons, map_singleton, planOf_concat]
    have hpl := h.plan
    rw [map_cons] at hpl
    simp only [VgiScanPlan.ungrouped, VgiScanPlan.mk.injEq] at hpl ⊢
    simp [hpl, h.pages, planOf]

/-- When the queue is empty, the plan is that of all pages. -/
theorem Inv.finish (h : Inv p requests st) : st.finish = planOf p.functionName (requests.map (·.2)) := by
  have hcl := h.identityKeyColumns
  have hcn := h.consistent
  rw [h.firstKeyGrouping] at hcn
  rw [PlanState.finish]
  rcases requests with _ | ⟨first, rest⟩
  · rw [if_pos (hcn.2 nofun)]
    exact eq_of_ungrouped h.plan hcl
  have hif : st.keyGroupingConsistent = true ↔ ∀ page ∈ rest.map (·.2), page.keyGrouping = first.2.keyGrouping := by
    rw [hcn, List.forall_mem_map]
    rfl
  split_ifs with hag
  · refine eq_of_ungrouped h.plan (hcl.trans ?_)
    exact (if_pos (hif.1 hag)).symm
  · refine eq_of_ungrouped h.plan ?_
    exact (if_neg (mt hif.2 hag)).symm

end PlanState

namespace Planning

variable {p : Planning}

/-- A response without a batch is an error: the contract of the method requires one. -/
theorem extractAndDeserializeResult_eq_ok {reply : PlanReply} {result : Option (List PlanRow)}
    (h : extractAndDeserializeResult planResponse reply = .ok result) :
    ∃ rows, reply = .rows rows ∧ result = some rows := by
  rcases reply with message | _ | diff | rows <;> cases h
  exact ⟨rows, rfl, rfl⟩

variable {requests : List (Bytes × VgiScanPlanPage)}

/-- When the queue is empty, the requests are a whole enumeration. -/
theorem enumerates_of_empty {st : PlanState} (h : Inv p requests st) (hpn : st.pendingCursors = []) :
    p.Enumerates requests := by
  refine ⟨h.answered, ?_⟩
  rw [← h.followed, hpn, append_nil]

theorem loop_eq_ok {n : ℕ} {st : PlanState} (h : Inv p requests st) {plan : VgiScanPlan}
    (hlp : p.loop n st = .ok plan) :
    ∃ requests, p.Enumerates requests ∧ plan = planOf p.functionName (requests.map (·.2)) := by
  induction n generalizing requests st with
  | zero =>
    rw [loop] at hlp
    rcases hpn : st.pendingCursors with _ | ⟨cursor, pendingCursors⟩ <;> rw [hpn] at hlp
    · cases hlp
      exact ⟨requests, enumerates_of_empty h hpn, h.finish⟩
    · dsimp only at hlp
      split_ifs at hlp
  | succ n ih =>
    rw [loop] at hlp
    rcases hpn : st.pendingCursors with _ | ⟨cursor, pendingCursors⟩ <;> rw [hpn] at hlp
    · cases hlp
      exact ⟨requests, enumerates_of_empty h hpn, h.finish⟩
    dsimp only at hlp
    split_ifs at hlp
    obtain ⟨result, hres, hlp⟩ := bind_eq_ok.1 hlp
    obtain ⟨rows, hrp, rfl⟩ := extractAndDeserializeResult_eq_ok hres
    obtain ⟨page, hpg, hlp⟩ := bind_eq_ok.1 hlp
    split_ifs at hlp
    exact ih (h.addPage hpn ⟨rows, hrp, hpg⟩) hlp

end Planning

/-- A plan is that of a whole enumeration: each cursor that a page handed out was asked for once and answered with a
    page, the splits are those of all pages in the order of the requests, and the rest is as the first page says. -/
theorem plan_complete (p : Planning) {plan : VgiScanPlan} (h : p.invokeTableFunctionPlan = .ok plan) :
    ∃ requests, p.Enumerates requests ∧ plan = planOf p.functionName (requests.map (·.2)) :=
  Planning.loop_eq_ok (inv_start p) h

/-- A worker whose first page has two cursors, one of them with a further one. -/
def branching : Planning where
  workerPath := ascii "worker"
  bindRequestBytes := ascii "bind"
  functionName := ascii "scan"
  codec :=
    { split := fun bytes => .ok (some { token := bytes, keyValue := none })
      keyGrouping := fun bytes => .ok [bytes]
      transform := fun bytes => .ok { id := ascii "vgi.identity/1", parameters := none, inputs := [bytes] }
      fieldPath := fun bytes => .ok [bytes] }
  worker := fun i request =>
    let tokens := [some (decimal i)]
    let scope := some (ascii "catalog")
    let keyGrouping := some (ascii "k")
    if request.cursor = none then
      .rows [{ splits := some tokens, nextCursors := some [some (ascii "a"), some [], some (ascii "b")]
               maxWorkers := some 4, keyGrouping, scope }]
    else if request.cursor = some (ascii "a") then
      .rows [{ splits := some [], nextCursors := some [some (ascii "c")], maxWorkers := some 9
               keyGrouping, scope }]
    else .rows [{ splits := some tokens, keyGrouping, scope }]

theorem plan_complete_branching :
    ∃ plan, branching.invokeTableFunctionPlan = .ok plan ∧
      plan.splits.map (·.token) = [ascii "0", ascii "2", ascii "3"] ∧ plan.maxWorkers = 4 ∧
      plan.identityKeyColumns = some [ascii "k"] ∧
      ∃ requests, branching.Enumerates requests ∧ plan = planOf (ascii "scan") (requests.map (·.2)) := by
  have hpl : ∃ plan, branching.invokeTableFunctionPlan = .ok plan ∧
      plan.splits.map (·.token) = [ascii "0", ascii "2", ascii "3"] ∧ plan.maxWorkers = 4 ∧
      plan.identityKeyColumns = some [ascii "k"] := ⟨_, rfl, by decide +kernel, rfl, rfl⟩
  obtain ⟨plan, h, hsp, hwr, hcl⟩ := hpl
  exact ⟨plan, h, hsp, hwr, hcl, plan_complete branching h⟩

end Vgi.Plan
