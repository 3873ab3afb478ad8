import Vgi.Catalog.ScanFunction

/-!
# Copies of scans

A plan is copied by writing it down and reading it back. Of a scan of a catalog table only
the name of the table and the text of its `AT` clause are written (`serialize`), with the
projection that the worker has accepted and, if the bind is to be stable within the query,
the bind itself. To read it back, the table is looked up and bound anew (`deserialize`).

The lookup goes without the `AT` clause, which only the bind gets: the copy is bound to the
current description of the table. `copied_scan_iff` says for which descriptions the copy is
the scan that was written.
-/

namespace Vgi.TableScan

variable {V : Type} [DecidableEq V]

/-- The entries of a table: the one that all share, and those that are made for an `AT` clause. -/
structure TableVersions (V : Type) where
  current : Option (VgiTableInfo V)
  pointInTime : AtClause → Option (VgiTableInfo V)

def TableVersions.getEntry (tables : TableVersions V) (at' : AtClause) : Except ScanError (VgiTableInfo V) :=
  (if at' = {} then tables.current else tables.pointInTime at').elim (.error .noTable) .ok

/-- A projection that the worker has accepted for a bind, and the bind it gave instead. -/
structure Projection (V : Type) where
  bindCall : BindRequest V
  bindResult : BindResult
  accepted : BindResult
deriving DecidableEq

/-- The accepted bind adds columns and changes nothing else that can be seen. -/
def Projection.validateProjectionAcceptance (p : Projection V) : Bool :=
  p.bindResult.names.isPrefixOf p.accepted.names && p.bindResult.names ≠ p.accepted.names &&
    p.accepted.stable == p.bindResult.stable

structure VgiTableFunctionBindData (V : Type) where
  request : BindRequest V
  bound : BoundFunction
  result : BindResult
  columns : List Field
  rowId : Option ℕ
  projection : Option (Projection V) := none
deriving DecidableEq

variable (s : Session V)

variable (info : VgiTableInfo V)

namespace VgiTableFunctionBindData

variable (data : VgiTableFunctionBindData V)

/-- A projection can be proposed for the scan. -/
def supportedSource : Bool :=
  data.projection.isNone && data.rowId.isNone &&
    !(s.isPartitioned data.bound && info.fields.any (·.partitionColumn)) && !info.generatedColumns &&
    info.requiredFilters.isEmpty && !data.request.schemaName.isEmpty

def apply (p : Projection V) : VgiTableFunctionBindData V :=
  { data with result := p.accepted, projection := some p }

/-- The optimizer proposes a projection, which the worker may accept. -/
def proposeProjection (accepted : Option BindResult) : VgiTableFunctionBindData V :=
  match accepted with
  | none => data
  | some accepted =>
    let p : Projection V := { bindCall := data.request, bindResult := data.result, accepted }
    if data.supportedSource s info && p.validateProjectionAcceptance then data.apply p else data

def restoreProjectionAcceptance (p : Projection V) :
    Except ScanError (VgiTableFunctionBindData V) := do
  refuseIf (!data.supportedSource s info) .projectionChanged
  refuseIf (p.bindCall ≠ data.request) .projectionChanged
  refuseIf (p.bindResult ≠ data.result) .projectionChanged
  refuseIf (!p.validateProjectionAcceptance) .projectionChanged
  return data.apply p

/-- The bind from before a projection was accepted. -/
def original : VgiTableFunctionBindData V :=
  { data with result := (data.projection.map (·.bindResult)).getD data.result, projection := none }

end VgiTableFunctionBindData

/-- A scan in a plan: one by the worker, or a marker that another pass replaces. -/
inductive Planned (V : Type)
  | scan (data : VgiTableFunctionBindData V)
  | marker (scan : Scan V)
deriving DecidableEq

def Planned.ofScan : Scan V → Planned V
  | .worker request bound result columns rowId => .scan { request, bound, result, columns, rowId }
  | other => .marker other

/-- The scan of a table in a plan, after the optimizer. -/
def planScan (worker : Worker V) (transaction : Bytes) (tables : TableVersions V) (at' : AtClause)
    (accepted : Option BindResult) : Except ScanError (Planned V) := do
  let info ← tables.getEntry at'
  let scan ← getScanFunctionImpl s worker transaction info at'
  match Planned.ofScan scan with
  | .scan data => return .scan (data.proposeProjection s info accepted)
  | .marker scan => return .marker scan

/-- What is written of a scan, next to the names of its catalog, schema and table. -/
structure SerializedScan (V : Type) where
  at' : AtClause
  projection : Option (Projection V)
  repeatable : Option (BindRequest V × BindResult)
deriving DecidableEq

def serialize (data : VgiTableFunctionBindData V) : SerializedScan V where
  at' := data.request.at'
  projection := data.projection
  repeatable := if data.result.stable then some (data.request, data.result) else none

/-- The projection that was written is put on top of the new bind. -/
def restoreProjection (written : SerializedScan V)
    (data : VgiTableFunctionBindData V) : Except ScanError (VgiTableFunctionBindData V) :=
  match written.projection with
  | none => .ok data
  | some p => data.restoreProjectionAcceptance s info p

/-- A bind that was to be stable has to be the one that was written. -/
def restore (written : SerializedScan V)
    (data : VgiTableFunctionBindData V) : Except ScanError (VgiTableFunctionBindData V) := do
  let data ← restoreProjection s info written data
  refuseIf (written.repeatable.any fun bind => !data.result.stable || bind ≠ (data.request, data.result))
    .bindStateChanged
  return data

def deserialize (worker : Worker V) (transaction : Bytes) (tables : TableVersions V)
    (written : SerializedScan V) : Except ScanError (Planned V) := do
  let info ← tables.getEntry {}
  let scan ← getScanFunctionImpl s worker transaction info written.at'
  match Planned.ofScan scan with
  | .scan data => return .scan (← restore s info written data)
  -- the bind data of a marker is not looked at
  | .marker scan => return .marker scan

/-! ## When a copy is the scan -/

/-- The description that a table has now scans as the one that a scan was bound with: the same
    columns and row id, the same function with the same arguments, and the same bind result. -/
structure SameScan (s s' : Session V) (worker : Worker V) (transaction : Bytes) (at' : AtClause)
    (info current : VgiTableInfo V) : Prop where
  columns : current.columns = info.columns
  rowId : current.rowIdWorkerColumn = info.rowIdWorkerColumn
  function : ∃ r r', scanSource s worker info at' = .ok (.function r) ∧
    scanSource s' worker current at' = .ok (.function r') ∧
    s'.resolveScanFunction r' = s.resolveScanFunction r ∧
    r'.functionName = r.functionName ∧ r'.positionalArguments = r.positionalArguments ∧
    r'.namedArguments = r.namedArguments ∧
    performVgiTableFunctionBind worker current (bindRequest transaction at' (s.resolveScanFunction r) r) =
      performVgiTableFunctionBind worker info (bindRequest transaction at' (s.resolveScanFunction r) r)

section Copy

variable {s s' : Session V} {worker : Worker V} {transaction : Bytes} {tables tables' : TableVersions V}
  {at' : AtClause} {info current : VgiTableInfo V} {data base : VgiTableFunctionBindData V}

omit [DecidableEq V] in
theorem ofScan_eq_scan {scan : Scan V} (h : Planned.ofScan scan = .scan base) :
    scan = .worker base.request base.bound base.result base.columns base.rowId ∧ base.projection = none := by
  cases scan with
  | worker request bound result columns rowId =>
    obtain rfl := Planned.scan.inj h
    exact ⟨rfl, rfl⟩
  | native => exact nomatch h
  | branches => exact nomatch h

omit [DecidableEq V] in
/-- A projection leaves the bind that it was proposed for to be read off. -/
theorem proposeProjection_cases (s : Session V) (info : VgiTableInfo V) (base : VgiTableFunctionBindData V)
    (accepted : Option BindResult) :
    base.proposeProjection s info accepted = base ∨
      ∃ p, p.bindResult = base.result ∧ base.proposeProjection s info accepted = base.apply p := by
  unfold VgiTableFunctionBindData.proposeProjection
  cases accepted with
  | none => exact .inl rfl
  | some accepted =>
    dsimp only
    split_ifs
    · exact .inr ⟨_, rfl, rfl⟩
    · exact .inl rfl

theorem restore_cases {written : SerializedScan V} {copy : VgiTableFunctionBindData V}
    (h : restore s info written base = .ok copy) :
    (written.projection = none ∧ copy = base) ∨
      ∃ p, written.projection = some p ∧ p.bindResult = base.result ∧ copy = base.apply p := by
  obtain ⟨restored, hrs, h⟩ := bind_eq_ok.1 h
  obtain ⟨_, -, h⟩ := bind_eq_ok.1 h
  cases h
  unfold restoreProjection at hrs
  cases hp : written.projection with
  | none =>
    rw [hp] at hrs
    exact .inl ⟨rfl, (Except.ok.inj hrs).symm⟩
  | some p =>
    rw [hp] at hrs
    obtain ⟨_, -, h⟩ := bind_eq_ok.1 hrs
    obtain ⟨_, -, h⟩ := bind_eq_ok.1 h
    obtain ⟨_, hresult, h⟩ := bind_eq_ok.1 h
    obtain ⟨_, -, h⟩ := bind_eq_ok.1 h
    exact .inr ⟨p, rfl, by simpa using hresult, (Except.ok.inj h).symm⟩

omit [DecidableEq V] in
theorem original_apply {p : Projection V} (hp : p.bindResult = base.result) (h : base.projection = none) :
    (base.apply p).original = base := by
  obtain ⟨request, bound, result, columns, rowId, projection⟩ := base
  obtain rfl : projection = none := h
  obtain rfl : p.bindResult = result := hp
  rfl

omit [DecidableEq V] in
theorem getScanFunctionImpl_scan (h : getScanFunctionImpl s worker transaction info at' = .ok
      (.worker base.request base.bound base.result base.columns base.rowId)) :
    ∃ r, scanSource s worker info at' = .ok (.function r) ∧ (∀ name, s.resolveScanFunction r ≠ .system name) ∧
      base.bound = s.resolveScanFunction r ∧ base.request = bindRequest transaction at' base.bound r ∧
      performVgiTableFunctionBind worker info base.request = .ok base.result ∧
      base.columns = info.columns ∧ base.rowId = info.rowIdWorkerColumn := by
  rcases getScanFunctionImpl_cases h with ⟨_, _, h⟩ | ⟨_, _, _, _, h⟩ | ⟨r, result, hr, hsys, hresult, h⟩
  · exact nomatch h
  · exact nomatch h
  · obtain ⟨h₁, h₂, h₃, h₄, h₅⟩ := Scan.worker.inj h
    exact ⟨r, hr, hsys, h₂, by rw [h₁, h₂], by rw [h₁, h₃, hresult], h₄, h₅⟩

omit [DecidableEq V] in
/-- Two tables are bound to one scan in just the case that they scan the same. -/
theorem same_bind_iff {scan : Scan V} (hbase : base.projection = none)
    (h : getScanFunctionImpl s worker transaction info at' = .ok
      (.worker base.request base.bound base.result base.columns base.rowId))
    (h' : getScanFunctionImpl s' worker transaction current at' = .ok scan) :
    Planned.ofScan scan = .scan base ↔ SameScan s s' worker transaction at' info current := by
  obtain ⟨r, hr, hsys, hbound, hrequest, hresult, hcolumns, hrow⟩ := getScanFunctionImpl_scan h
  constructor
  · intro hscan
    obtain ⟨rfl, -⟩ := ofScan_eq_scan hscan
    obtain ⟨r', hr', -, hbound', hrequest', hresult', hcolumns', hrow'⟩ := getScanFunctionImpl_scan h'
    obtain ⟨hname, -, hpos, hnamed, -⟩ := BindRequest.mk.inj (hrequest'.symm.trans hrequest)
    refine ⟨hcolumns'.symm.trans hcolumns, hrow'.symm.trans hrow, r, r', hr, hr', hbound'.symm.trans hbound, hname,
      hpos, hnamed, ?_⟩
    rw [← hbound, ← hrequest, hresult, hresult']
  · rintro ⟨hcols, hrid, r₁, r', hr₁, hr', hres, hname, hpos, hnamed, hbind⟩
    obtain rfl : r = r₁ := Source.function.inj (Except.ok.inj (hr.symm.trans hr₁))
    rcases getScanFunctionImpl_cases h' with ⟨_, hr'', -⟩ | ⟨_, name, hr'', hname', -⟩ |
      ⟨r'', result, hr'', -, hresult', rfl⟩
    · exact nomatch hr'.symm.trans hr''
    · obtain rfl := Source.function.inj (Except.ok.inj (hr'.symm.trans hr''))
      exact absurd (hres.symm.trans hname') (hsys name)
    obtain rfl := Source.function.inj (Except.ok.inj (hr'.symm.trans hr''))
    have hreq : bindRequest transaction at' (s'.resolveScanFunction r') r' = base.request := by
      rw [hrequest, hres, hbound]
      simp only [bindRequest, hname, hpos, hnamed]
    have hrest : result = base.result := by
      rw [hreq, hrequest, hbound, hbind, ← hbound, ← hrequest, hresult] at hresult'
      exact (Except.ok.inj hresult').symm
    obtain ⟨request, bound, result, columns, rowId, projection⟩ := base
    obtain rfl : projection = none := hbase
    obtain rfl : bound = s.resolveScanFunction r := hbound
    obtain rfl : columns = info.columns := hcolumns
    obtain rfl : rowId = info.rowIdWorkerColumn := hrow
    change Planned.scan (VgiTableFunctionBindData.mk _ _ _ _ _ none) = _
    rw [hreq, hrest, hcols, hrid, hres]

end Copy

/-- A table of one column whose rows for a version are asked for by an argument. -/
def versionedWorker : Worker ℕ where
  scanBranchesGet at' := .branches
    { branches := [{ functionName := [9], positionalArguments := [at'.value.length] }] }
  scanFunctionGet _ := .error (.worker [])
  bind _ := .ok { names := [[7]], response := [] }

/-- The same table, with the scan function in its description. -/
def versionedTables (scanFunction : ℕ → Option (VgiScanFunctionResult ℕ)) : TableVersions ℕ where
  current := some { fields := [{ name := [7] }], scanFunction := scanFunction 0 }
  pointInTime at' := some { fields := [{ name := [7] }], scanFunction := scanFunction at'.value.length }

end Vgi.TableScan
