import Vgi.Lib.Bytes
import Vgi.Lib.Fallible

/-!
# The function that scans a table

How a catalog table is scanned is up to the worker: it names a function, with the table
or on request, or several branches that are read one after the other. The client
resolves the names among the functions that are registered in the schemas of the catalog
and those of the engine (`resolveScanFunction`, `resolveBranch`) and binds what it finds
(`getScanFunctionImpl`).

A worker may say in which schema its function is. `bound_in_named_schema_iff` says when
the function that is bound, and the schema of the bind request, is the one it names.
-/

namespace Vgi.TableScan

variable {V : Type}

/-! ## Descriptions of scans -/

/-- An `AT` clause, empty if there is none. -/
structure AtClause where
  unit : Bytes := []
  value : Bytes := []
deriving DecidableEq

structure VgiScanFunctionResult (V : Type) where
  functionName : Bytes
  positionalArguments : List V := []
  namedArguments : List (Bytes × V) := []
  requiredExtensions : List Bytes := []
  /-- The schema of the function, empty if the worker does not name it. -/
  schemaName : Bytes := []
deriving DecidableEq

structure VgiScanBranch (V : Type) where
  functionName : Bytes := []
  positionalArguments : List V := []
  namedArguments : List (Bytes × V) := []
  branchFilter : Bytes := []
  writable : Bool := false
  sourceCatalog : Bytes := []
  sourceSchema : Bytes := []
  sourceTable : Bytes := []
  formatName : Bytes := []
  formatLocations : List Bytes := []
  formatOptions : List (Bytes × V) := []
  schemaName : Bytes := []
deriving DecidableEq

open VgiScanBranch

namespace VgiScanBranch

variable (b : VgiScanBranch V)

def isFunctionBranch : Bool := !b.functionName.isEmpty

def isCatalogTable : Bool := b.functionName.isEmpty && !b.sourceTable.isEmpty

def isFormatBranch : Bool := b.functionName.isEmpty && b.sourceTable.isEmpty && !b.formatName.isEmpty

/-- The branch says more than a scan function can. -/
def needsRewriter : Bool := !b.branchFilter.isEmpty || b.writable || b.isCatalogTable || b.isFormatBranch

end VgiScanBranch

structure VgiScanBranchesResult (V : Type) where
  branches : List (VgiScanBranch V)
  requiredExtensions : List Bytes := []

inductive ScanError
  | worker (message : Bytes)
  | zeroBranches
  | branchFilter (i : ℕ)
  | branchKind (i : ℕ)
  | formatLocations (i : ℕ)
  | writableBranches
  | atOnBranches
  | generatedColumns
  | multiBranchDisabled
  | optimizerExtensions
  | unknownFunction (name : Bytes)
  | nativeColumns
  | bindColumns
  | noTable
  | bindStateChanged
  | projectionChanged
deriving DecidableEq

/-- A branch names one source, and one that can be read. -/
def parseScanBranch (parses : Bytes → Bool) (b : VgiScanBranch V) (i : ℕ) : Except ScanError Unit := do
  refuseIf (!b.branchFilter.isEmpty && !parses b.branchFilter) (.branchFilter i)
  let kinds := [b.isFunctionBranch, !b.sourceTable.isEmpty, !b.formatName.isEmpty].countP id
  refuseIf (kinds ≠ 1) (.branchKind i)
  refuseIf (b.isFormatBranch && b.formatLocations.isEmpty) (.formatLocations i)

def parseScanBranchesResult (parses : Bytes → Bool) (r : VgiScanBranchesResult V) :
    Except ScanError (VgiScanBranchesResult V) := do
  refuseIf r.branches.isEmpty .zeroBranches
  let _ ← r.branches.zipIdx.mapM fun b => parseScanBranch parses b.1 b.2
  refuseIf (decide (1 < r.branches.countP (·.writable))) .writableBranches
  return r

/-- The answer to `catalog_table_scan_branches_get`. -/
inductive BranchesReply (V : Type)
  | branches (r : VgiScanBranchesResult V)
  | notImplemented
  | failed (message : Bytes)

structure Field where
  name : Bytes
  generated : Bool := false
  partitionColumn : Bool := false
deriving DecidableEq

/-- What is needed to ask a worker for a scan; the `AT` clause is a part of it. -/
structure BindRequest (V : Type) where
  functionName : Bytes
  schemaName : Bytes
  positionalArguments : List V
  namedArguments : List (Bytes × V)
  transaction : Bytes
  at' : AtClause
deriving DecidableEq

structure BindResult where
  names : List Bytes
  response : Bytes
  /-- `STABLE_WITHIN_QUERY`. -/
  stable : Bool := false
deriving DecidableEq

/-- A table as the worker describes it. -/
structure VgiTableInfo (V : Type) where
  fields : List Field
  rowIdColumn : Option ℕ := none
  scanFunction : Option (VgiScanFunctionResult V) := none
  /-- A bind result that comes with the table, none if it cannot be read. -/
  bindResult : Option BindResult := none
  /-- The paths that a query has to filter by: one of each group. -/
  requiredFilters : List (List (List Bytes)) := []

namespace VgiTableInfo

variable (info : VgiTableInfo V)

/-- The columns that the engine sees: the row id is not among them. -/
def columns : List Field :=
  match info.rowIdColumn with
  | none => info.fields
  | some i => info.fields.eraseIdx i

def generatedColumns : Bool := info.columns.any (·.generated)

/-- The position of the row id in what the worker sends: generated fields are left out. -/
def rowIdWorkerColumn : Option ℕ :=
  info.rowIdColumn.map fun i => (info.fields.take i).countP fun f => !f.generated

end VgiTableInfo

/-- A worker whose answers about one table depend only on the requests. -/
structure Worker (V : Type) where
  scanBranchesGet : AtClause → BranchesReply V
  scanFunctionGet : AtClause → Except ScanError (VgiScanFunctionResult V)
  bind : BindRequest V → Except ScanError BindResult

/-- The scan function of a worker that knows no branches, as its one branch. -/
def wrapLegacyAsOneBranch (legacy : VgiScanFunctionResult V) : VgiScanBranchesResult V where
  branches := [{
    functionName := legacy.functionName
    positionalArguments := legacy.positionalArguments
    namedArguments := legacy.namedArguments }]
  requiredExtensions := legacy.requiredExtensions

/-! ## Resolution -/

/-- Where a table stands: its schema, the functions around it, and the settings. -/
structure Session (V : Type) where
  tableSchema : Bytes
  defaultSchema : Bytes := []
  /-- A function of this name is registered in the schema. -/
  functions : Bytes → Bytes → Bool
  /-- The registered function has a partition kind. -/
  partitioned : Bytes → Bytes → Bool := fun _ _ => false
  systemFunctions : Bytes → Bool := fun _ => false
  /-- The columns of a function of the engine, for its arguments. -/
  nativeBind : Bytes → List V → List (Bytes × V) → Except ScanError (List Bytes) := fun _ _ _ => .ok []
  formatReader : Bytes → Except ScanError Bytes := fun _ => .ok []
  parsesFilter : Bytes → Bool := fun _ => true
  /-- The worker is known not to implement `catalog_table_scan_branches_get`. -/
  branchesUnsupported : Bool := false
  multiBranchScans : Bool := true
  optimizerExtensions : Bool := true

/-- What a name is bound to. -/
inductive BoundFunction
  | registered (schema name : Bytes)
  | system (name : Bytes)
  | catalogTable (catalog schema table : Bytes)
  /-- Nothing has the name; the worker is asked all the same. -/
  | unregistered (name : Bytes)
deriving DecidableEq

/-- The schema that goes into the bind request. -/
def BoundFunction.schemaName : BoundFunction → Bytes
  | .registered schema _ => schema
  | _ => []

namespace Session

variable (s : Session V)

/-- A schema that is neither the table's own nor the default one. -/
def isThirdSchema (schema : Bytes) : Bool :=
  !schema.isEmpty && schema ≠ s.tableSchema && schema ≠ s.defaultSchema

/-- The table's own schema comes first, then the default one. -/
def cascade (name : Bytes) : Option Bytes :=
  if s.functions s.tableSchema name then some s.tableSchema
  else if !s.defaultSchema.isEmpty && s.defaultSchema ≠ s.tableSchema && s.functions s.defaultSchema name then
    some s.defaultSchema
  else none

/-- The schema of a named function if it is a third one that has it. -/
def thirdSchema (schema name : Bytes) : Option Bytes :=
  if s.isThirdSchema schema && s.functions schema name then some schema else none

/-- The function of a scan without branches. -/
def resolveScanFunction (r : VgiScanFunctionResult V) : BoundFunction :=
  -- a third schema that lacks the function is not followed by the others
  let schema :=
    if s.isThirdSchema r.schemaName then s.thirdSchema r.schemaName r.functionName
    else s.cascade r.functionName
  match schema with
  | some schema => .registered schema r.functionName
  | none => if s.systemFunctions r.functionName then .system r.functionName else .unregistered r.functionName

def isPartitioned : BoundFunction → Bool
  | .registered schema name => s.partitioned schema name
  | _ => false

/-- The function of a branch that the rewriter binds. -/
def resolveBranch (b : VgiScanBranch V) : Except ScanError BoundFunction :=
  if b.isCatalogTable then .ok (.catalogTable b.sourceCatalog b.sourceSchema b.sourceTable)
  else do
    let name ← if b.isFormatBranch then s.formatReader b.formatName else .ok b.functionName
    let named := if b.isFunctionBranch then s.thirdSchema b.schemaName name else none
    match named.or (s.cascade name) with
    | some schema => .ok (.registered schema name)
    | none => if s.systemFunctions name then .ok (.system name) else .error (.unknownFunction name)

end Session

/-! ## The scan -/

variable (s : Session V) (worker : Worker V)

/-- The branches of a table; what a worker is known not to implement is not asked for. -/
def invokeCatalogTableScanBranchesGet (at' : AtClause) :
    Except ScanError (VgiScanBranchesResult V) :=
  let legacy := (worker.scanFunctionGet at').map wrapLegacyAsOneBranch
  if s.branchesUnsupported then legacy
  else match worker.scanBranchesGet at' with
    | .branches r => parseScanBranchesResult s.parsesFilter r
    | .notImplemented => legacy
    | .failed message => .error (.worker message)

/-- How a table is scanned: by one function, or by branches that the rewriter puts together. -/
inductive Source (V : Type)
  | function (r : VgiScanFunctionResult V)
  | branches (bs : List (VgiScanBranch V))

/-- A single branch as a scan function. -/
def collapse (b : VgiScanBranch V) (requiredExtensions : List Bytes) : VgiScanFunctionResult V where
  functionName := b.functionName
  positionalArguments := b.positionalArguments
  namedArguments := b.namedArguments
  requiredExtensions

variable (info : VgiTableInfo V)

/-- What becomes of the branches of a table. -/
def branchSource (at' : AtClause) (r : VgiScanBranchesResult V) : Except ScanError (Source V) :=
  match r.branches with
  | [] => .error .zeroBranches
  | b :: bs => do
    refuseIf (!at'.unit.isEmpty &&
      (!bs.isEmpty || !b.branchFilter.isEmpty || b.isCatalogTable || b.isFormatBranch)) .atOnBranches
    if !bs.isEmpty || b.needsRewriter then do
      refuseIf info.generatedColumns .generatedColumns
      refuseIf (!s.multiBranchScans) .multiBranchDisabled
      refuseIf (!s.optimizerExtensions) .optimizerExtensions
      return .branches (b :: bs)
    else return .function (collapse b r.requiredExtensions)

/-- The description that came with the table, or else that of the worker for the version. -/
def scanSource (at' : AtClause) : Except ScanError (Source V) :=
  match info.scanFunction with
  | some r => .ok (.function r)
  | none => invokeCatalogTableScanBranchesGet s worker at' >>= branchSource s info at'

/-- A scan that is bound. -/
inductive Scan (V : Type)
  | worker (request : BindRequest V) (bound : BoundFunction) (result : BindResult) (columns : List Field)
    (rowId : Option ℕ)
  | native (name : Bytes) (positional : List V) (named : List (Bytes × V)) (columns : List Field)
  | branches (bs : List (VgiScanBranch V)) (columns : List Field)
deriving DecidableEq

/-- A bind result that comes with the table stands for the request, unless it is to be stable. -/
def performVgiTableFunctionBind (request : BindRequest V) : Except ScanError BindResult :=
  match info.bindResult with
  | some result => if result.stable then worker.bind request else .ok result
  | none => worker.bind request

/-- A function of the engine in the place of the scan. -/
def bindNative (name : Bytes) (r : VgiScanFunctionResult V) : Except ScanError (Scan V) := do
  refuseIf info.generatedColumns .generatedColumns
  refuseIf (!s.optimizerExtensions) .optimizerExtensions
  let names ← s.nativeBind name r.positionalArguments r.namedArguments
  refuseIf (names ≠ info.columns.map (·.name)) .nativeColumns
  return .native name r.positionalArguments r.namedArguments info.columns

/-- The names that the worker binds, without that of the row id. -/
def BindResult.columnNames (result : BindResult) (rowId : Option ℕ) : List Bytes :=
  match rowId with
  | none => result.names
  | some i => result.names.eraseIdx i

variable (transaction : Bytes)

/-- The request to bind a function that is resolved. -/
def bindRequest (at' : AtClause) (bound : BoundFunction) (r : VgiScanFunctionResult V) :
    BindRequest V where
  functionName := r.functionName
  schemaName := bound.schemaName
  positionalArguments := r.positionalArguments
  namedArguments := r.namedArguments
  transaction
  at'

def bindWorker (info : VgiTableInfo V) (at' : AtClause)
    (bound : BoundFunction) (r : VgiScanFunctionResult V) : Except ScanError (Scan V) := do
  refuseIf (info.generatedColumns && s.isPartitioned bound) .generatedColumns
  let request := bindRequest transaction at' bound r
  let result ← performVgiTableFunctionBind worker info request
  refuseIf (decide ((result.columnNames info.rowIdWorkerColumn).length < info.columns.countP fun f => !f.generated))
    .bindColumns
  return .worker request bound result info.columns info.rowIdWorkerColumn

def bindScanFunction (info : VgiTableInfo V)
    (at' : AtClause) (r : VgiScanFunctionResult V) : Except ScanError (Scan V) :=
  match s.resolveScanFunction r with
  | .system name => bindNative s info name r
  | bound => bindWorker s worker transaction info at' bound r

def getScanFunctionImpl (info : VgiTableInfo V) (at' : AtClause) : Except ScanError (Scan V) := do
  match ← scanSource s worker info at' with
  | .branches bs => return .branches bs info.columns
  | .function r => bindScanFunction s worker transaction info at' r

/-- The functions that a scan is bound to after the rewriter, with the schemas that are sent. -/
def boundFunctions : Scan V → Except ScanError (List (BoundFunction × Bytes))
  | .worker request bound _ _ _ => .ok [(bound, request.schemaName)]
  | .native name _ _ _ => .ok [(.system name, [])]
  | .branches bs _ => (bs.mapM s.resolveBranch).map fun bounds => bounds.map fun f => (f, f.schemaName)

/-! ## The schema that a worker names -/

/-- The schemas and functions that the worker names for a scan, in order. -/
def descriptions (at' : AtClause) : List (Bytes × Bytes) :=
  match info.scanFunction with
  | some r => [(r.schemaName, r.functionName)]
  | none =>
    let legacy := match worker.scanFunctionGet at' with
      | .ok r => [(r.schemaName, r.functionName)]
      | .error _ => []
    if s.branchesUnsupported then legacy
    else match worker.scanBranchesGet at' with
      | .branches r => r.branches.map fun b => (b.schemaName, b.functionName)
      | .notImplemented => legacy
      | .failed _ => []

/-- There is one branch, and it goes into a scan function. -/
def VgiScanBranchesResult.isScanFunction (r : VgiScanBranchesResult V) : Bool :=
  match r.branches with
  | [b] => !b.needsRewriter
  | _ => false

/-- The worker is asked for the scan and answers with a single branch. -/
def collapses (at' : AtClause) : Bool :=
  info.scanFunction.isNone &&
    match invokeCatalogTableScanBranchesGet s worker at' with
    | .ok r => r.isScanFunction
    | .error _ => false

/-- The named schema is the one that the lookup ends at. A branch that goes into a scan function
    loses its schema on the way; otherwise only the default schema has another before it. -/
def Session.SchemaDecides (collapsed : Bool) (schema name : Bytes) : Prop :=
  schema = s.tableSchema ∨
    if collapsed then schema = s.defaultSchema ∧ s.functions s.tableSchema name = false
    else schema = s.defaultSchema → s.functions s.tableSchema name = false

namespace Session

variable {s : Session V} {schema name : Bytes}

theorem cascade_eq_iff (hs : schema ≠ []) (hrg : s.functions schema name) :
    s.cascade name = some schema ↔ s.SchemaDecides true schema name := by
  unfold cascade SchemaDecides
  by_cases hown : s.functions s.tableSchema name
  · simp [hown, eq_comm]
  by_cases hdf : schema = s.defaultSchema
  · subst hdf
    have hne : s.defaultSchema ≠ s.tableSchema := fun h => hown (h ▸ hrg)
    simp [hown, hs, hrg, hne]
  · have hne : schema ≠ s.tableSchema := fun h => hown (h ▸ hrg)
    simp only [hown, Bool.false_eq_true, if_false, hne, hdf, false_and, if_true, or_self, iff_false]
    split_ifs
    · exact fun h => hdf (Option.some.inj h).symm
    · exact nofun

theorem thirdSchema_or_cascade_iff (hs : schema ≠ []) (hrg : s.functions schema name) :
    (s.thirdSchema schema name).or (s.cascade name) = some schema ↔ s.SchemaDecides false schema name := by
  by_cases hth : s.isThirdSchema schema
  · have hne : schema ≠ s.tableSchema ∧ schema ≠ s.defaultSchema := by
      simpa [isThirdSchema, hs] using hth
    simp [thirdSchema, hth, hrg, SchemaDecides, hne]
  · have hkn : schema = s.tableSchema ∨ schema = s.defaultSchema := by
      simpa [isThirdSchema, hs, or_iff_not_imp_left] using hth
    have hno : s.thirdSchema schema name = none := by simp [thirdSchema, hth]
    rw [hno, Option.none_or, cascade_eq_iff hs hrg]
    rcases hkn with h | h <;> simp [SchemaDecides, h]

variable {r : VgiScanFunctionResult V}

/-- A registered function comes out of the lookup of its schema only. -/
theorem resolveScanFunction_eq_registered :
    s.resolveScanFunction r = .registered schema r.functionName ↔
      (if s.isThirdSchema r.schemaName then s.thirdSchema r.schemaName r.functionName
        else s.cascade r.functionName) = some schema := by
  unfold resolveScanFunction
  generalize (if s.isThirdSchema r.schemaName then s.thirdSchema r.schemaName r.functionName
        else s.cascade r.functionName) = found
  cases found with
  | some found => simp
  | none => split_ifs <;> simp

theorem resolveScanFunction_iff (hs : r.schemaName ≠ []) (hrg : s.functions r.schemaName r.functionName) :
    s.resolveScanFunction r = .registered r.schemaName r.functionName ↔
      s.SchemaDecides false r.schemaName r.functionName := by
  rw [resolveScanFunction_eq_registered, ← thirdSchema_or_cascade_iff hs hrg]
  by_cases hth : s.isThirdSchema r.schemaName <;> simp [thirdSchema, hth, hrg]

/-- Without its schema, a scan function is looked for as if none had been named. -/
theorem resolveScanFunction_collapse_iff {b : VgiScanBranch V} {exts : List Bytes} (hs : schema ≠ [])
    (hrg : s.functions schema b.functionName) :
    s.resolveScanFunction (collapse b exts) = .registered schema b.functionName ↔
      s.SchemaDecides true schema b.functionName := by
  rw [← cascade_eq_iff hs hrg]
  exact resolveScanFunction_eq_registered

theorem resolveBranch_iff {b : VgiScanBranch V} {bound : BoundFunction} (hb : s.resolveBranch b = .ok bound)
    (hf : b.functionName ≠ []) (hs : b.schemaName ≠ []) (hrg : s.functions b.schemaName b.functionName) :
    bound = .registered b.schemaName b.functionName ↔ s.SchemaDecides false b.schemaName b.functionName := by
  have hct : b.isCatalogTable = false := by simp [isCatalogTable, hf]
  have hfm : b.isFormatBranch = false := by simp [isFormatBranch, hf]
  have hfn : b.isFunctionBranch = true := by simp [isFunctionBranch, hf]
  rw [← thirdSchema_or_cascade_iff hs hrg]
  simp only [resolveBranch, hct, hfm, hfn, Bool.false_eq_true, if_false, if_true] at hb
  obtain ⟨name, hnm, hb⟩ := bind_eq_ok.1 hb
  cases hnm
  revert hb
  cases (s.thirdSchema b.schemaName b.functionName).or (s.cascade b.functionName) with
  | some found =>
    intro hb
    cases hb
    simp
  | none =>
    split_ifs
    · intro hb
      cases hb
      simp
    · exact nofun

end Session

section Spec

variable {s : Session V} {worker : Worker V} {transaction : Bytes} {info : VgiTableInfo V} {at' : AtClause}

variable {r : VgiScanBranchesResult V}

theorem branchSource_cases {source : Source V} (h : branchSource s info at' r = .ok source) :
    (∃ b, r.branches = [b] ∧ b.needsRewriter = false ∧ source = .function (collapse b r.requiredExtensions)) ∨
      ((∀ b, r.branches = [b] → b.needsRewriter = true) ∧ source = .branches r.branches) := by
  unfold branchSource at h
  split at h
  · exact nomatch h
  rename_i b bs hr
  obtain ⟨_, -, h⟩ := bind_eq_ok.1 h
  split_ifs at h with hre
  · simp only [bind_eq_ok] at h
    obtain ⟨_, -, _, -, _, -, h⟩ := h
    cases h
    refine .inr ⟨fun b' hb' => ?_, by rw [hr]⟩
    obtain ⟨rfl, rfl⟩ := List.cons.inj (hr.symm.trans hb')
    simpa using hre
  · cases h
    obtain ⟨rfl, hb⟩ : bs = [] ∧ b.needsRewriter = false := by simpa using hre
    exact .inl ⟨b, hr, hb, rfl⟩

/-- What a scan is bound to, for each kind of description. -/
theorem getScanFunctionImpl_cases {scan : Scan V} (h : getScanFunctionImpl s worker transaction info at' = .ok scan) :
    (∃ bs, scanSource s worker info at' = .ok (.branches bs) ∧ scan = .branches bs info.columns) ∨
    (∃ r name, scanSource s worker info at' = .ok (.function r) ∧ s.resolveScanFunction r = .system name ∧
      scan = .native name r.positionalArguments r.namedArguments info.columns) ∨
    ∃ r result, scanSource s worker info at' = .ok (.function r) ∧ (∀ name, s.resolveScanFunction r ≠ .system name) ∧
      performVgiTableFunctionBind worker info (bindRequest transaction at' (s.resolveScanFunction r) r) = .ok result ∧
      scan = .worker (bindRequest transaction at' (s.resolveScanFunction r) r) (s.resolveScanFunction r) result
        info.columns info.rowIdWorkerColumn := by
  obtain ⟨source, hsr, h⟩ := bind_eq_ok.1 h
  cases source with
  | branches bs => exact .inl ⟨bs, hsr, (Except.ok.inj h).symm⟩
  | function r =>
    change bindScanFunction s worker transaction info at' r = .ok scan at h
    unfold bindScanFunction at h
    split at h
    · rename_i name hnm
      obtain ⟨_, -, h⟩ := bind_eq_ok.1 h
      obtain ⟨_, -, h⟩ := bind_eq_ok.1 h
      obtain ⟨_, -, h⟩ := bind_eq_ok.1 h
      obtain ⟨_, -, h⟩ := bind_eq_ok.1 h
      exact .inr (.inl ⟨r, name, hsr, hnm, (Except.ok.inj h).symm⟩)
    · rename_i hnm
      obtain ⟨_, -, h⟩ := bind_eq_ok.1 h
      obtain ⟨result, hres, h⟩ := bind_eq_ok.1 h
      obtain ⟨_, -, h⟩ := bind_eq_ok.1 h
      exact .inr (.inr ⟨r, result, hsr, hnm, hres, (Except.ok.inj h).symm⟩)

theorem parseScanBranchesResult_eq_ok {parses : Bytes → Bool} {r' : VgiScanBranchesResult V}
    (h : parseScanBranchesResult parses r = .ok r') : r' = r := by
  simp only [parseScanBranchesResult, bind_eq_ok] at h
  obtain ⟨_, -, _, -, _, -, h⟩ := h
  exact (Except.ok.inj h).symm

/-- The branches have the names that the worker gave, and also the schemas unless it knows no branches. -/
theorem descriptions_of_branches (hin : info.scanFunction = none)
    (h : invokeCatalogTableScanBranchesGet s worker at' = .ok r) :
    (descriptions s worker info at' = r.branches.map fun b => (b.schemaName, b.functionName)) ∨
      ∃ b schema, r.branches = [b] ∧ b.needsRewriter = false ∧
        descriptions s worker info at' = [(schema, b.functionName)] := by
  have hlg : (worker.scanFunctionGet at').map wrapLegacyAsOneBranch = .ok r → ∃ f,
      worker.scanFunctionGet at' = .ok f ∧ r = wrapLegacyAsOneBranch f := by
    cases worker.scanFunctionGet at' with
    | error e => exact nofun
    | ok f => exact fun h => ⟨f, rfl, (Except.ok.inj h).symm⟩
  have hone : ∀ f : VgiScanFunctionResult V, ∃ b, (wrapLegacyAsOneBranch f).branches = [b] ∧
      b.needsRewriter = false ∧ b.functionName = f.functionName := by
    refine fun f => ⟨_, rfl, ?_, rfl⟩
    simp [needsRewriter, isCatalogTable, isFormatBranch]
  unfold invokeCatalogTableScanBranchesGet at h
  unfold descriptions
  rw [hin]
  split_ifs at h ⊢
  · obtain ⟨f, hf, rfl⟩ := hlg h
    obtain ⟨b, hb, hre, hnm⟩ := hone f
    exact .inr ⟨b, f.schemaName, hb, hre, by rw [hf, hnm]⟩
  · cases hrp : worker.scanBranchesGet at' with
    | branches r₀ =>
      rw [hrp] at h
      obtain rfl := parseScanBranchesResult_eq_ok h
      exact .inl rfl
    | notImplemented =>
      rw [hrp] at h
      obtain ⟨f, hf, rfl⟩ := hlg h
      obtain ⟨b, hb, hre, hnm⟩ := hone f
      exact .inr ⟨b, f.schemaName, hb, hre, by rw [hf, hnm]⟩
    | failed message =>
      rw [hrp] at h
      exact nomatch h

/-- The three ways to a description, with what the worker had named. -/
theorem scanSource_cases {source : Source V} (h : scanSource s worker info at' = .ok source) :
    (∃ r, source = .function r ∧ collapses s worker info at' = false ∧
      descriptions s worker info at' = [(r.schemaName, r.functionName)]) ∨
    (∃ b exts schema, source = .function (collapse b exts) ∧ collapses s worker info at' = true ∧
      descriptions s worker info at' = [(schema, b.functionName)]) ∨
    ∃ bs, source = .branches bs ∧ collapses s worker info at' = false ∧
      descriptions s worker info at' = bs.map fun b => (b.schemaName, b.functionName) := by
  unfold scanSource at h
  cases hin : info.scanFunction with
  | some r =>
    rw [hin] at h
    cases h
    exact .inl ⟨r, rfl, by simp [collapses, hin], by simp [descriptions, hin]⟩
  | none =>
    rw [hin] at h
    obtain ⟨r, hr, h⟩ := bind_eq_ok.1 h
    have hds := descriptions_of_branches hin hr
    have hcl : collapses s worker info at' = r.isScanFunction := by simp [collapses, hin, hr]
    rcases branchSource_cases h with ⟨b, hb, hre, rfl⟩ | ⟨hre, rfl⟩
    · refine .inr (.inl ?_)
      have hone : r.isScanFunction = true := by simp [VgiScanBranchesResult.isScanFunction, hb, hre]
      obtain hds | ⟨b', schema, hb', -, hds⟩ := hds
      · exact ⟨b, _, b.schemaName, rfl, hcl.trans hone, by rw [hds, hb]; rfl⟩
      · obtain ⟨rfl, -⟩ := List.cons.inj (hb.symm.trans hb')
        exact ⟨b, _, schema, rfl, hcl.trans hone, hds⟩
    · refine .inr (.inr ⟨r.branches, rfl, ?_, ?_⟩)
      · rw [hcl, VgiScanBranchesResult.isScanFunction]
        split
        · rename_i b hb
          simp [hre b hb]
        · rfl
      · obtain hds | ⟨b', schema, hb', hre', -⟩ := hds
        · exact hds
        · exact absurd (hre b' hb') (by simp [hre'])

/-- A scan without branches is bound to what its function is resolved to. -/
theorem boundFunctions_of_function {r : VgiScanFunctionResult V} {scan : Scan V}
    (hsr : scanSource s worker info at' = .ok (.function r))
    (h : getScanFunctionImpl s worker transaction info at' = .ok scan) :
    boundFunctions s scan = .ok [(s.resolveScanFunction r, (s.resolveScanFunction r).schemaName)] := by
  rcases getScanFunctionImpl_cases h with ⟨bs, hr, -⟩ | ⟨r', name, hr, hnm, rfl⟩ | ⟨r', result, hr, -, -, rfl⟩ <;>
    cases hsr.symm.trans hr
  · rw [hnm]
    rfl
  · rfl

/-- Every function that is bound for a scan is the one in the schema that the worker names, and
    this schema is sent, in just the cases where the lookup ends there. -/
theorem bound_in_named_schema_iff {scan : Scan V} {bounds : List (BoundFunction × Bytes)} {i : ℕ}
    {schema name : Bytes} (hscan : getScanFunctionImpl s worker transaction info at' = .ok scan)
    (hbounds : boundFunctions s scan = .ok bounds)
    (hnamed : (descriptions s worker info at')[i]? = some (schema, name)) (hs : schema ≠ []) (hf : name ≠ [])
    (hreg : s.functions schema name) :
    bounds[i]? = some (.registered schema name, schema) ↔
      s.SchemaDecides (collapses s worker info at') schema name := by
  obtain ⟨source, hsr, hbn⟩ := bind_eq_ok.1 hscan
  -- of one function, the first description is the only one
  have hfn : ∀ r, ∀ schema', scanSource s worker info at' = .ok (.function r) →
      descriptions s worker info at' = [(schema', r.functionName)] →
      (schema' = schema ∧ r.functionName = name) ∧
        (bounds[i]? = some (.registered schema name, schema) ↔
          s.resolveScanFunction r = .registered schema name) := by
    intro r schema' hr hds
    obtain rfl := Except.ok.inj ((boundFunctions_of_function hr hscan).symm.trans hbounds)
    rw [hds] at hnamed
    obtain ⟨rfl, hpr⟩ : i = 0 ∧ (schema', r.functionName) = (schema, name) := by
      rcases i with _ | i
      · exact ⟨rfl, Option.some.inj hnamed⟩
      · exact nomatch hnamed
    refine ⟨Prod.mk.inj hpr, ?_⟩
    simp only [List.getElem?_cons_zero, Option.some.injEq, Prod.mk.injEq, and_iff_left_iff_imp]
    intro hres
    rw [hres]
    rfl
  rcases scanSource_cases hsr with ⟨r, rfl, hcl, hds⟩ | ⟨b, exts, schema', rfl, hcl, hds⟩ |
    ⟨bs, rfl, hcl, hds⟩
  · obtain ⟨⟨rfl, rfl⟩, hif⟩ := hfn r _ hsr hds
    rw [hif, hcl, Session.resolveScanFunction_iff hs hreg]
  · obtain ⟨⟨rfl, hnm⟩, hif⟩ := hfn (collapse b exts) _ hsr hds
    obtain rfl : b.functionName = name := hnm
    rw [hif, hcl, Session.resolveScanFunction_collapse_iff hs hreg]
  · cases hbn
    rw [hds, List.getElem?_map, Option.map_eq_some_iff] at hnamed
    obtain ⟨b, hb, hpr⟩ := hnamed
    cases hpr
    -- the arms are bound one by one, each to what its branch is resolved to
    obtain ⟨fs, hfs, rfl⟩ : ∃ fs, bs.mapM s.resolveBranch = .ok fs ∧
        bounds = fs.map fun f => (f, f.schemaName) := by
      change (bs.mapM s.resolveBranch).map _ = .ok bounds at hbounds
      revert hbounds
      cases bs.mapM s.resolveBranch with
      | error e => exact nofun
      | ok fs => exact fun h => ⟨fs, rfl, (Except.ok.inj h).symm⟩
    have hall := mapM_eq_ok hfs
    obtain ⟨hi, rfl⟩ := List.getElem?_eq_some_iff.1 hb
    have hi' : i < fs.length := hall.length_eq ▸ hi
    have har : s.resolveBranch bs[i] = .ok fs[i] := hall.get hi hi'
    rw [hcl, ← Session.resolveBranch_iff har hf hs hreg]
    simp only [List.getElem?_map, List.getElem?_eq_getElem hi', Option.map_some, Option.some.injEq, Prod.mk.injEq,
      and_iff_left_iff_imp]
    intro hbd
    rw [hbd]
    rfl

end Spec

/-- A function of one name in the table's own schema, the default schema and a third one. -/
def threeSchemas : Session ℕ where
  tableSchema := [1]
  defaultSchema := [2]
  functions schema name := name == [9] && [[1], [2], [3]].contains schema

/-- A worker that scans with this function in the third schema. -/
def thirdSchemaWorker : Worker ℕ where
  scanBranchesGet _ := .branches { branches := [{ functionName := [9], schemaName := [3] }] }
  scanFunctionGet _ := .error (.worker [])
  bind _ := .ok { names := [[7]], response := [] }

def inlinedTable (schema : Bytes) : VgiTableInfo ℕ where
  fields := [{ name := [7] }]
  scanFunction := some { functionName := [9], schemaName := schema }

/-- The third schema is respected if it comes with the table. -/
theorem bound_in_named_schema_third : ∃ scan bounds,
    getScanFunctionImpl threeSchemas thirdSchemaWorker [] (inlinedTable [3]) {} = .ok scan ∧
      boundFunctions threeSchemas scan = .ok bounds ∧ bounds[0]? = some (.registered [3] [9], [3]) := by
  have hnm : (descriptions threeSchemas thirdSchemaWorker (inlinedTable [3]) {})[0]? = some ([3], [9]) := rfl
  have hdc : threeSchemas.SchemaDecides
      (collapses threeSchemas thirdSchemaWorker (inlinedTable [3]) {}) [3] [9] := .inr (by decide)
  refine ⟨_, _, rfl, rfl, ?_⟩
  exact (bound_in_named_schema_iff rfl rfl hnm (by decide) (by decide) (by decide)).2 hdc

/-- The function of the table's own schema is bound in the place of one that the worker names in a
    third schema, for a single branch, or in the default one, for a function that comes with the table. -/
theorem own_schema_bound_instead : (∃ scan,
    descriptions threeSchemas thirdSchemaWorker { fields := [{ name := [7] }] } {} = [([3], [9])] ∧
      threeSchemas.functions [3] [9] = true ∧
      getScanFunctionImpl threeSchemas thirdSchemaWorker [] { fields := [{ name := [7] }] } {} = .ok scan ∧
      boundFunctions threeSchemas scan = .ok [(.registered [1] [9], [1])]) ∧
    ∃ scan, descriptions threeSchemas thirdSchemaWorker (inlinedTable [2]) {} = [([2], [9])] ∧
      threeSchemas.functions [2] [9] = true ∧
      getScanFunctionImpl threeSchemas thirdSchemaWorker [] (inlinedTable [2]) {} = .ok scan ∧
      boundFunctions threeSchemas scan = .ok [(.registered [1] [9], [1])] :=
  ⟨⟨_, rfl, rfl, rfl, rfl⟩, _, rfl, rfl, rfl, rfl⟩

end Vgi.TableScan
