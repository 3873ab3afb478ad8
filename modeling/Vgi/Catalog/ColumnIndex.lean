import Vgi.Catalog.ScanFunction

/-!
# The columns of a scan

A column of a table has several numbers. In the *declared* fields, the row id and the generated
columns count; the engine's column ids leave out the row id, and its physical columns the
generated ones as well; the worker sends the declared fields without the generated ones, so with
the row id; and a scan that projects numbers its columns in the order they were asked for.

The client goes from one number to the other where it asks the worker for a projection
(`projectionIds`), where it reads a batch (`childIndex`), where it names the column of a filter
(`filterColumn`) and where it answers for partitions (`workerIndexFromBaseColumn`,
`partitionColumn`). `columns_reach_fields_iff` says when they all mean the same field.
-/

namespace Vgi.TableScan

open Option List Vgi.TableScan.Field

variable {V : Type}

/-- A column id of the engine. -/
inductive ColumnId
  | rowId
  | empty
  | index (n : ℕ)
deriving DecidableEq

inductive ColumnError
  | generatedColumn
  | filterColumn
deriving DecidableEq

/-- A field that the worker sends. -/
def Field.isPhysical (f : Field) : Bool := !f.generated

/-- A table in the catalog; a row id that is generated is refused. -/
structure CatalogTable (V : Type) extends VgiTableInfo V where
  rowId_physical : ∀ i ∈ rowIdColumn, ∃ f ∈ fields[i]?, f.isPhysical

/-! ## The field of a column id -/

namespace CatalogTable

variable (t : CatalogTable V)

/-- The place of a column among the declared fields. -/
def declaredIndex (c : ℕ) : ℕ :=
  match t.rowIdColumn with
  | none => c
  | some i => if c < i then c else c + 1

/-- The declared field of a column id. -/
def declaredField : ColumnId → Option ℕ
  | .rowId => t.rowIdColumn
  | .empty => none
  | .index c => some (t.declaredIndex c)

/-- The fields of the batches of the worker. -/
def workerFields : List Field := t.fields.filter isPhysical

/-- The field of the worker that the catalog has for a column id. -/
def workerField (id : ColumnId) : Option ℕ := do
  let d ← t.declaredField id
  let f ← t.fields[d]?
  if f.isPhysical then return (t.fields.take d).countP isPhysical else none

end CatalogTable

/-! ## The numbers in the code -/

/-- The physical column of a column id, for tables with generated columns. -/
def physicalColumnId (columns : List Field) : ColumnId → Except ColumnError ColumnId
  | .rowId => .ok .rowId
  -- rows are counted by reading some field
  | .empty => .ok (.index 0)
  | .index c =>
    match columns[c]? with
    | none => .error .generatedColumn
    | some f =>
      if f.generated then .error .generatedColumn
      else .ok (.index ((columns.take c).countP isPhysical))

def physicalCatalogScanInput (t : CatalogTable V) (ids : List ColumnId) : Except ColumnError (List ColumnId) :=
  if t.generatedColumns then ids.mapM (physicalColumnId t.columns) else .ok ids

/-- The field of the worker for a physical column: those from the row id on are one further. -/
def toWorkerColumn (rowId : Option ℕ) : ColumnId → ColumnId
  | .rowId => rowId.elim .rowId .index
  | .empty => .empty
  | .index c => .index (if rowId.any (· ≤ c) then c + 1 else c)

/-- How a scan is run. -/
structure ScanMode where
  projectionPushdown : Bool
  servingFromCache : Bool := false
  /-- The function has a partition kind and the table partition columns. -/
  partitioned : Bool := false

section Code

variable (t : CatalogTable V) (mode : ScanMode) (ids : List ColumnId)

/-- What the worker is asked for, of the physical columns `ids`; nothing for all fields. -/
def projectionIds : List ColumnId :=
  if mode.projectionPushdown then ids.map (toWorkerColumn t.rowIdWorkerColumn) else []

/-- What is left of this for the scan: a scan that is served from the cache does not keep it. -/
def ScanMode.globalProjectionIds : List ColumnId :=
  if mode.servingFromCache then [] else projectionIds t mode ids

/-- The scan puts out the columns that were asked for, and not all of them. -/
def projects : Bool := mode.projectionPushdown || t.generatedColumns

def localColumnIds : List ColumnId :=
  if projects t mode then ids.map (toWorkerColumn t.rowIdWorkerColumn) else []

/-- The child of a batch that is converted into a column of the output. -/
def childIndex (idx : ℕ) : Option ℕ :=
  let rowIdCol := if projects t mode then none else t.rowIdWorkerColumn
  let colIds := localColumnIds t mode ids
  match if colIds.isEmpty then some (.index idx) else colIds[idx]? with
  | some (.index c) =>
    let arrayIdx := if mode.projectionPushdown then idx else c
    some (if rowIdCol.any (· ≤ c) then arrayIdx + 1 else arrayIdx)
  | some .rowId => rowIdCol
  | _ => none

/-- The field that a child of a batch holds. -/
def receivedField (child : ℕ) : Option ColumnId :=
  if mode.projectionPushdown then (projectionIds t mode ids)[child]? else some (.index child)

/-- The output column for the column id that was asked for at `k`. Of a scan that puts out all
    columns, the engine takes this one itself; there is none for the row id then. -/
def outputColumn (k : ℕ) (id : ColumnId) : Option ℕ :=
  if projects t mode then some k
  else match id with
    | .index c => some c
    | _ => none

/-- The names of the worker's fields without that of the row id. -/
def allColumnNames (names : List Bytes) : List Bytes :=
  t.rowIdWorkerColumn.elim names names.eraseIdx

/-- The field and the name in a filter on the column at `k`. -/
def filterColumn (names : List Bytes) (k : ℕ) : Except ColumnError (ℕ × Bytes) :=
  match ids[k]? with
  | some .rowId =>
    match t.rowIdWorkerColumn with
    | some r =>
      match names[r]? with
      | some name => if name.isEmpty then .error .filterColumn else .ok (r, name)
      | none => .error .filterColumn
    | none => .error .filterColumn
  | some (.index c) =>
    match (allColumnNames t names)[c]? with
    | some name => .ok (if t.rowIdWorkerColumn.any (· ≤ c) then c + 1 else c, name)
    | none => .error .filterColumn
  | _ => .error .filterColumn

/-- The column that `VgiGetPartitionInfo` looks for among the partition columns. -/
def workerIndexFromBaseColumn (id : ColumnId) : ColumnId := toWorkerColumn t.rowIdWorkerColumn id

/-- The column that `VgiGetPartitionData` looks for, for a column of the sink. -/
def partitionColumn : ColumnId → ColumnId
  | .index j =>
    let projection := mode.globalProjectionIds t ids
    if projection.isEmpty then workerIndexFromBaseColumn t (.index j) else (projection[j]?).getD (.index j)
  | id => workerIndexFromBaseColumn t id

/-- The number that the sink has for the column at `k`: that of the scan's output. -/
def sinkColumn (k : ℕ) (id : ColumnId) : ColumnId := if projects t mode then .index k else id

end Code

/-- Everything that is done with the column `id`, which was asked for at `k`, is done with the field `w` of the worker,
    which is the one of the catalog. `physical` are the columns asked for without the generated ones. -/
structure Reaches (t : CatalogTable V) (mode : ScanMode) (names : List Bytes) (physical : List ColumnId) (k : ℕ)
    (id : ColumnId) (w : ℕ) : Prop where
  field : ∃ d, t.declaredField id = some d ∧ ∃ f, t.fields[d]? = some f ∧ f.generated = false ∧
    t.workerFields[w]? = some f
  sent : mode.projectionPushdown = true → (projectionIds t mode physical)[k]? = some (.index w)
  read : ∀ j ∈ outputColumn t mode k id,
    (childIndex t mode physical j).bind (receivedField t mode physical) = some (.index w)
  filtered : t.generatedColumns = false → ∀ i name, filterColumn t physical names k = .ok (i, name) →
    i = w ∧ names[w]? = some name
  planned : mode.partitioned = true → workerIndexFromBaseColumn t id = .index w
  partitioned : mode.partitioned = true → partitionColumn t mode physical (sinkColumn t mode k id) = .index w

/-! ## Positions -/

variable {α : Type*} {p : α → Bool} {l : List α}

/-- What is kept of a list stands where there were as many before it. -/
theorem getElem?_filter_countP {d : ℕ} {x : α} (h : l[d]? = some x) (hx : p x = true) :
    (l.filter p)[(l.take d).countP p]? = some x := by
  induction l generalizing d with
  | nil => exact nomatch h
  | cons a l ih =>
    cases d with
    | zero =>
      cases h
      simp [hx]
    | succ d =>
      have h' : l[d]? = some x := h
      by_cases ha : p a = true
      · simpa [ha] using ih h'
      · simpa [ha] using ih h'

theorem countP_take_succ {d : ℕ} {x : α} (h : l[d]? = some x) :
    (l.take (d + 1)).countP p = (l.take d).countP p + if p x then 1 else 0 := by
  rw [take_add_one, h, countP_append]
  simp [countP_cons]

variable {c : ℕ}

theorem countP_take_mono (p : α → Bool) (l : List α) {d : ℕ} (h : c ≤ d) : (l.take c).countP p ≤ (l.take d).countP p :=
  ((take_prefix_take_left h).sublist).countP_le

/-- Behind an element that is taken out, one less is counted. -/
theorem countP_take_eraseIdx {i : ℕ} {x : α} (h : l[i]? = some x) (hx : p x = true) (hc : i ≤ c) :
    ((l.eraseIdx i).take c).countP p + 1 = (l.take (c + 1)).countP p := by
  induction l generalizing i c with
  | nil => exact nomatch h
  | cons a l ih =>
    cases i with
    | zero =>
      cases h
      simp [hx]
    | succ i =>
      obtain ⟨c, rfl⟩ := Nat.exists_eq_add_of_le' (Nat.lt_of_lt_of_le (Nat.succ_pos i) hc)
      have h' := ih h (Nat.le_of_succ_le_succ hc)
      by_cases ha : p a = true
      · simpa [ha] using h'
      · simpa [ha] using h'

namespace CatalogTable

variable {t : CatalogTable V}

/-- A column of the engine is the declared field at its place. -/
theorem getElem?_columns (c : ℕ) : t.columns[c]? = t.fields[t.declaredIndex c]? := by
  unfold VgiTableInfo.columns declaredIndex
  cases t.rowIdColumn with
  | none => rfl
  | some i =>
    dsimp only
    rw [getElem?_eraseIdx]
    split_ifs <;> rfl

theorem workerField_eq_some {id : ColumnId} {w : ℕ} (h : t.workerField id = some w) :
    ∃ d f, t.declaredField id = some d ∧ t.fields[d]? = some f ∧ f.isPhysical = true ∧
      w = (t.fields.take d).countP isPhysical := by
  obtain ⟨d, hd, h⟩ := bind_eq_some_iff.1 h
  obtain ⟨f, hf, h⟩ := bind_eq_some_iff.1 h
  split_ifs at h with hph
  exact ⟨d, f, hd, hf, hph, (some.inj h).symm⟩

/-- The shift past the row id leads from the physical columns to the fields of the worker. -/
theorem shift_physical {f : Field} (hf : t.fields[t.declaredIndex c]? = some f) (hph : f.isPhysical = true) :
    (if t.rowIdWorkerColumn.any (· ≤ (t.columns.take c).countP isPhysical) then
        (t.columns.take c).countP isPhysical + 1 else (t.columns.take c).countP isPhysical) =
      (t.fields.take (t.declaredIndex c)).countP isPhysical := by
  unfold VgiTableInfo.rowIdWorkerColumn VgiTableInfo.columns
  unfold declaredIndex at hf ⊢
  cases hi : t.rowIdColumn with
  | none => simp
  | some i =>
    rw [hi] at hf
    obtain ⟨g, hg, hgp⟩ := t.rowId_physical i hi
    dsimp only at hf ⊢
    simp only [map_some, any_some, decide_eq_true_eq]
    change (if (t.fields.take i).countP isPhysical ≤ _ then _ else _) = _
    rcases lt_or_ge c i with hlt | hge
    · -- the column itself is counted before the row id
      rw [if_pos hlt] at hf ⊢
      have htk : (t.fields.eraseIdx i).take c = t.fields.take c := take_eraseIdx_eq_take_of_le _ _ _ hlt.le
      have hsc := countP_take_succ (p := isPhysical) hf
      rw [if_pos hph] at hsc
      have hmn : (t.fields.take (c + 1)).countP isPhysical ≤ (t.fields.take i).countP isPhysical :=
        countP_take_mono _ _ hlt
      rw [htk, if_neg (by omega)]
    · rw [if_neg hge.not_gt]
      have hsk := countP_take_eraseIdx hg hgp hge
      have hmn : (t.fields.take (i + 1)).countP isPhysical ≤ (t.fields.take (c + 1)).countP isPhysical :=
        countP_take_mono _ _ (by omega)
      have hsc := countP_take_succ (p := isPhysical) hg
      rw [if_pos hgp] at hsc
      rw [if_pos (by omega), hsk]

end CatalogTable

section Paths

variable {t : CatalogTable V} {mode : ScanMode} {names : List Bytes} {ids physical : List ColumnId} {k w : ℕ}
  {id id' : ColumnId}

/-- The numbers of the engine and of the worker for a column that the catalog has a field for. -/
theorem toWorkerColumn_physical (hw : t.workerField id = some w) :
    ∃ id', physicalColumnId t.columns id = .ok id' ∧ toWorkerColumn t.rowIdWorkerColumn id' = .index w := by
  obtain ⟨d, f, hd, hf, hph, rfl⟩ := CatalogTable.workerField_eq_some hw
  cases id with
  | rowId =>
    have hr : t.rowIdColumn = some d := hd
    refine ⟨.rowId, rfl, ?_⟩
    rw [VgiTableInfo.rowIdWorkerColumn, hr]
    rfl
  | empty => exact nomatch hd
  | index c =>
    obtain rfl : t.declaredIndex c = d := some.inj hd
    have hgn : f.generated = false := by simpa [isPhysical] using hph
    refine ⟨.index ((t.columns.take c).countP isPhysical), ?_, ?_⟩
    · simp [physicalColumnId, CatalogTable.getElem?_columns, hf, hgn]
    · exact congrArg ColumnId.index (CatalogTable.shift_physical hf hph)

/-- Without generated columns, physical columns are columns. -/
theorem physicalColumnId_eq_self (hgn : t.generatedColumns = false)
    (h : physicalColumnId t.columns id = .ok id') (hid : id ≠ .empty) : id' = id := by
  cases id with
  | rowId => exact (Except.ok.inj h).symm
  | empty => exact absurd rfl hid
  | index c =>
    have hall : ∀ f ∈ t.columns, f.isPhysical = true := by
      simpa [VgiTableInfo.generatedColumns, isPhysical] using hgn
    rw [physicalColumnId] at h
    split at h
    · exact nomatch h
    rename_i f hf
    split_ifs at h
    cases h
    have hlt := (List.getElem?_eq_some_iff.1 hf).1
    rw [countP_eq_length.2 fun f hf => hall f (mem_of_mem_take hf), length_take]
    congr 1
    omega

/-- The physical column in the place of each column that is asked for. -/
theorem physical_getElem? (hph : physicalCatalogScanInput t ids = .ok physical) (hid : ids[k]? = some id)
    (hw : t.workerField id = some w) :
    ∃ id', physical[k]? = some id' ∧ toWorkerColumn t.rowIdWorkerColumn id' = .index w ∧
      (t.generatedColumns = false → id' = id) := by
  obtain ⟨id', hid', hwk⟩ := toWorkerColumn_physical hw
  have hne : id ≠ .empty := by
    rintro rfl
    exact nomatch hw
  unfold physicalCatalogScanInput at hph
  split_ifs at hph with hgn
  · have hall := mapM_eq_ok hph
    obtain ⟨hk, rfl⟩ := List.getElem?_eq_some_iff.1 hid
    have hk' : k < physical.length := hall.length_eq ▸ hk
    have hget : physicalColumnId t.columns ids[k] = .ok physical[k] := hall.get hk hk'
    obtain rfl := Except.ok.inj (hget.symm.trans hid')
    exact ⟨_, getElem?_eq_getElem hk', hwk, fun h => absurd hgn (by simp [h])⟩
  · have hgn' : t.generatedColumns = false := by simpa using hgn
    cases hph
    obtain rfl := physicalColumnId_eq_self hgn' hid' hne
    exact ⟨_, hid, hwk, fun _ => rfl⟩

/-- Different columns have different fields. -/
theorem toWorkerColumn_inj {r : Option ℕ} (h : toWorkerColumn r id = .index w)
    (hk : toWorkerColumn r (.index k) = .index w) : id = .index k := by
  obtain rfl := ColumnId.index.inj hk
  cases id with
  | rowId =>
    cases r with
    | none => exact nomatch h
    | some r =>
      have hr : r = if r ≤ k then k + 1 else k := by simpa [toWorkerColumn] using h
      split_ifs at hr <;> omega
  | empty => exact nomatch h
  | index c =>
    have hc := ColumnId.index.inj h
    congr 1
    cases r with
    | none => simpa using hc
    | some r =>
      simp only [any_some, decide_eq_true_eq] at hc
      split_ifs at hc <;> omega

theorem projectionIds_getElem? (hmd : mode.projectionPushdown = true) (hid : physical[k]? = some id')
    (hwk : toWorkerColumn t.rowIdWorkerColumn id' = .index w) :
    (projectionIds t mode physical)[k]? = some (.index w) := by
  rw [projectionIds, if_pos hmd, getElem?_map, hid, map_some, hwk]

/-- A batch is read at the field that was asked for. -/
theorem childIndex_received {j : ℕ} (hid : physical[k]? = some id')
    (hwk : toWorkerColumn t.rowIdWorkerColumn id' = .index w) (hsl : t.generatedColumns = false → id' = id)
    (hj : outputColumn t mode k id = some j) :
    (childIndex t mode physical j).bind (receivedField t mode physical) = some (.index w) := by
  cases hpr : projects t mode with
  | true =>
    obtain rfl : k = j := by simpa [outputColumn, hpr] using hj
    have hlc : (localColumnIds t mode physical)[k]? = some (.index w) := by
      rw [localColumnIds, if_pos hpr, getElem?_map, hid, map_some, hwk]
    have hne : (localColumnIds t mode physical).isEmpty = false := by
      cases hl : localColumnIds t mode physical with
      | nil => rw [hl] at hlc; exact nomatch hlc
      | cons => rfl
    have hch : childIndex t mode physical k = some (if mode.projectionPushdown then k else w) := by
      simp [childIndex, hne, hlc, hpr]
    rw [hch, bind_some, receivedField]
    cases hmd : mode.projectionPushdown with
    | true => simpa using projectionIds_getElem? hmd hid hwk
    | false => rfl
  | false =>
    obtain ⟨hmd, hgn⟩ : mode.projectionPushdown = false ∧ t.generatedColumns = false := by
      simpa [projects] using hpr
    obtain rfl := hsl hgn
    cases id' with
    | rowId => exact absurd hj (by simp [outputColumn, hpr])
    | empty => exact nomatch hwk
    | index c =>
      obtain rfl : c = j := by simpa [outputColumn, hpr] using hj
      have hch : childIndex t mode physical c = some w := by
        obtain rfl := ColumnId.index.inj hwk
        simp [childIndex, localColumnIds, hpr, hmd]
      rw [hch, bind_some, receivedField, hmd]
      rfl

/-- A filter names the field of its column. -/
theorem filterColumn_eq_ok {i : ℕ} {name : Bytes} (hid : physical[k]? = some id)
    (hwk : toWorkerColumn t.rowIdWorkerColumn id = .index w)
    (h : filterColumn t physical names k = .ok (i, name)) : i = w ∧ names[w]? = some name := by
  rw [filterColumn, hid] at h
  cases id with
  | rowId =>
    cases hr : t.rowIdWorkerColumn with
    | none =>
      rw [hr] at hwk
      exact nomatch hwk
    | some r =>
      rw [hr] at h hwk
      obtain rfl : r = w := ColumnId.index.inj hwk
      dsimp only at h
      split at h
      · rename_i name' hnm
        split_ifs at h
        cases h
        exact ⟨rfl, hnm⟩
      · exact nomatch h
  | empty => exact nomatch h
  | index c =>
    obtain rfl := ColumnId.index.inj hwk
    dsimp only at h
    split at h
    · rename_i name' hnm
      cases h
      refine ⟨rfl, ?_⟩
      unfold allColumnNames at hnm
      cases hr : t.rowIdWorkerColumn with
      | none =>
        rw [hr] at hnm
        simpa using hnm
      | some r =>
        rw [hr] at hnm
        rw [elim_some, getElem?_eraseIdx] at hnm
        simp only [any_some, decide_eq_true_eq]
        rcases lt_or_ge c r with hlt | hge
        · rw [if_pos hlt] at hnm
          rwa [if_neg hlt.not_ge]
        · rw [if_neg hge.not_gt] at hnm
          rwa [if_pos hge]
    · exact nomatch h

/-- The partition data of a column are those of its field, unless the scan is served from the
    cache: then the numbers of the output are taken for those of the table. -/
theorem partitionColumn_iff (hgn : t.generatedColumns = false) (hid : physical[k]? = some id)
    (hwk : toWorkerColumn t.rowIdWorkerColumn id = .index w) :
    partitionColumn t mode physical (sinkColumn t mode k id) = .index w ↔
      (mode.servingFromCache = true → mode.projectionPushdown = true → id = .index k) := by
  cases hmd : mode.projectionPushdown with
  | true =>
    have hsn : sinkColumn t mode k id = .index k := by simp [sinkColumn, projects, hmd]
    have hget := projectionIds_getElem? hmd hid hwk
    rw [hsn, partitionColumn]
    cases hsr : mode.servingFromCache with
    | true =>
      simp only [ScanMode.globalProjectionIds, hsr, if_true, isEmpty_nil, forall_const]
      constructor
      · exact fun hk => toWorkerColumn_inj hwk hk
      · rintro rfl
        exact hwk
    | false =>
      have hne : (projectionIds t mode physical).isEmpty = false := by
        cases hl : projectionIds t mode physical with
        | nil => rw [hl] at hget; exact nomatch hget
        | cons => rfl
      simp [ScanMode.globalProjectionIds, hsr, hne, hget]
  | false =>
    have hsn : sinkColumn t mode k id = id := by simp [sinkColumn, projects, hmd, hgn]
    have hgl : mode.globalProjectionIds t physical = [] := by
      simp [ScanMode.globalProjectionIds, projectionIds, hmd]
    simp only [hsn, Bool.false_eq_true, false_imp_iff, imp_true_iff, iff_true]
    cases id with
    | rowId => exact hwk
    | empty => exact nomatch hwk
    | index c =>
      rw [partitionColumn, hgl]
      exact hwk

/-- A column is the same field for everyone if and only if its partition data are looked up at its field. -/
theorem reaches_iff (hphy : physicalCatalogScanInput t ids = .ok physical)
    (hpr : mode.partitioned = true → t.generatedColumns = false) (hid : ids[k]? = some id)
    (hw : t.workerField id = some w) :
    Reaches t mode names physical k id w ↔
      (mode.partitioned = true → mode.servingFromCache = true → mode.projectionPushdown = true → id = .index k) := by
  obtain ⟨id', hid', hwk, hsl⟩ := physical_getElem? hphy hid hw
  have hprt : mode.partitioned = true →
      (partitionColumn t mode physical (sinkColumn t mode k id) = .index w ↔
        (mode.servingFromCache = true → mode.projectionPushdown = true → id = .index k)) := by
    intro hmd
    obtain rfl := hsl (hpr hmd)
    exact partitionColumn_iff (hpr hmd) hid' hwk
  refine ⟨fun h hmd => (hprt hmd).1 (h.partitioned hmd), fun h => ?_⟩
  refine ⟨?_, fun hmd => projectionIds_getElem? hmd hid' hwk,
    fun j hj => childIndex_received hid' hwk hsl hj, fun hgn i name hf => ?_, fun hmd => ?_,
    fun hmd => (hprt hmd).2 (h hmd)⟩
  · obtain ⟨d, f, hd, hf, hph, rfl⟩ := CatalogTable.workerField_eq_some hw
    refine ⟨d, hd, f, hf, by simpa [isPhysical] using hph, ?_⟩
    exact getElem?_filter_countP hf hph
  · obtain rfl := hsl hgn
    exact filterColumn_eq_ok hid' hwk hf
  · obtain rfl := hsl (hpr hmd)
    exact hwk

end Paths

/-- In every scan, each column that is asked for means one field to all, except in those that are served
    from the cache and ask for partitions of columns that do not stand at their own place. -/
theorem columns_reach_fields_iff {t : CatalogTable V} {mode : ScanMode} {ids physical : List ColumnId}
    (names : List Bytes) (hphysical : physicalCatalogScanInput t ids = .ok physical)
    (hpart : mode.partitioned = true → t.generatedColumns = false) (hids : ∀ id ∈ ids, (t.workerField id).isSome) :
    (∀ k (id : ColumnId) (w : ℕ), ids[k]? = some id → t.workerField id = some w →
        Reaches t mode names physical k id w) ↔
      (mode.partitioned = true → mode.servingFromCache = true → mode.projectionPushdown = true →
        ∀ k (id : ColumnId), ids[k]? = some id → id = .index k) := by
  constructor
  · intro h hmd hsr hpr k id hid
    obtain ⟨w, hw⟩ := isSome_iff_exists.1 (hids id (mem_of_getElem? hid))
    exact (reaches_iff hphysical hpart hid hw).1 (h k id w hid hw) hmd hsr hpr
  · intro h k id w hid hw
    exact (reaches_iff hphysical hpart hid hw).2 fun hmd hsr hpr => h hmd hsr hpr k id hid

/-- A generated column is not scanned. -/
theorem generated_column_refused {t : CatalogTable V} {ids : List ColumnId} {f : Field} (hc : .index c ∈ ids)
    (hf : t.columns[c]? = some f) (hgn : f.generated = true) : Throws (physicalCatalogScanInput t ids) := by
  have hany : t.generatedColumns = true := List.any_eq_true.2 ⟨f, mem_of_getElem? hf, hgn⟩
  rw [physicalCatalogScanInput, if_pos hany]
  cases hids : ids.mapM (physicalColumnId t.columns) with
  | error e => exact throws_error e
  | ok physical =>
    obtain ⟨id', hid'⟩ := ok_of_mapM hids hc
    simp [physicalColumnId, hf, hgn] at hid'

/-- Two columns, with the row id before them and a generated column between. -/
def exampleTable (generated : Bool) : CatalogTable ℕ where
  fields := [{ name := [0] }, { name := [1] }, { name := [2], generated }, { name := [3] }]
  rowIdColumn := some 0
  rowId_physical := by
    rintro i hi
    cases hi
    exact ⟨_, rfl, rfl⟩

theorem columns_reach_fields_generated : Reaches (exampleTable true) ⟨false, false, false⟩ [[0], [1], [3]]
    [.index 1, .rowId] 0 (.index 2) 2 := by
  have hph : physicalCatalogScanInput (exampleTable true) [.index 2, .rowId] = .ok [.index 1, .rowId] := rfl
  have hpr : (⟨false, false, false⟩ : ScanMode).partitioned = true →
      (exampleTable true).generatedColumns = false := nofun
  exact (columns_reach_fields_iff [[0], [1], [3]] hph hpr (by decide)).2 nofun 0 (.index 2) 2 rfl rfl

/-- The partition of the second column is answered with that of the first. -/
theorem cached_partition_of_other_column :
    let mode : ScanMode := { projectionPushdown := true, servingFromCache := true, partitioned := true }
    physicalCatalogScanInput (exampleTable false) [.index 1] = .ok [.index 1] ∧
      (exampleTable false).workerField (.index 1) = some 2 ∧
      projectionIds (exampleTable false) mode [.index 1] = [.index 2] ∧
      partitionColumn (exampleTable false) mode [.index 1]
        (sinkColumn (exampleTable false) mode 0 (.index 1)) = .index 1 := by
  decide

end Vgi.TableScan
