import Vgi.Lib.Product
import Vgi.Cache.Key

/-!
# Filters on partition columns

A function whose batches each have a single value in the partition columns may
be cached partition by partition. Whether a scan can be *served* so is decided
from its pushed-down filters: each partition column has to be constrained to
finitely many constants, by `=`, `IN` or an `OR` of these, and the requested
tuples are the product of the constants of the columns.

* `FilterExpr.extract`: the constants of a filter, as the program collects them;
* `FilterExpr.extract_spec`: a filter with constants holds of a value if
  and only if the value is not `NULL` and one of them;
* `classifyPartitionFilters`: the classification of a scan.

The values and types are those of the engine, which also casts values, makes
sort keys of tuples and serialises filters (`PartitionEngine`).
-/

namespace Vgi

open List

/-- The items, if all of them are there. -/
def allSome {α : Type*} : List (Option α) → Option (List α)
  | [] => some []
  | none :: _ => none
  | some a :: l => (allSome l).map (a :: ·)

theorem eq_map_of_allSome {α : Type*} {l : List (Option α)} {as : List α}
    (h : allSome l = some as) : l = as.map some := by
  induction l generalizing as with
  | nil =>
    cases h
    rfl
  | cons o l ih =>
    cases o with
    | none => exact absurd h (by simp [allSome])
    | some a =>
      obtain ⟨as, hl, rfl⟩ := Option.map_eq_some_iff.1 h
      rw [ih hl, map_cons]

/-! ## Filters -/

/-- A filter on a column. The shapes that the program looks into have their
    parts; what any other filter means is given by a predicate. -/
inductive FilterExpr (V : Type*)
  /-- An optional filter, and its child. -/
  | optional (child : FilterExpr V)
  /-- A comparison: whether it is `=`, and the constant the column is compared to (none, if it is not of this form). -/
  | comparison (isEqual : Bool) (constant : Option V) (meaning : V → Bool)
  /-- `IN`: whether its left side is the column, and the items, none standing for one that is not a constant. -/
  | inOperator (onColumn : Bool) (items : List (Option V)) (meaning : V → Bool)
  /-- `OR`. -/
  | or (children : List (FilterExpr V))
  /-- Any other filter. -/
  | other (meaning : V → Bool)

namespace FilterExpr

variable {V : Type*}

/-- The constants of an `IN` on the column, if it has any and all items are constants. -/
def inConstants (onColumn : Bool) (items : List (Option V)) : Option (List V) :=
  if items.isEmpty || !onColumn then none else allSome items

mutual

/-- `ExtractPartitionEqualityExpression`: the constants the filter constrains its
    column to, if it is an `=`, an `IN` or an `OR` of these. -/
def extract : FilterExpr V → Option (List V)
  | .optional child => child.extract
  | .comparison isEqual constant _ => if isEqual then constant.map ([·]) else none
  | .inOperator onColumn items _ => inConstants onColumn items
  | .or children => if children.isEmpty then none else extractAll children
  | .other _ => none

/-- The constants of all the filters. -/
def extractAll : List (FilterExpr V) → Option (List V)
  | [] => some []
  | child :: children =>
    match child.extract, extractAll children with
    | some vs, some ws => some (vs ++ ws)
    | _, _ => none

end

variable (isNull : V → Bool) (cast : V → Option V) [DecidableEq V]

/-- The value `v` of the column equals the constant `c`, in the sense of SQL:
    after a cast to the type of the column, and never for `NULL`. -/
def sqlEq (v c : V) : Bool := !isNull v && cast c = some v

mutual

/-- The filter holds of the value `v` of the column. -/
def holds (v : V) : FilterExpr V → Bool
  | .optional child => holds v child
  | .comparison isEqual constant meaning =>
    match isEqual, constant with
    | true, some c => sqlEq isNull cast v c
    | _, _ => meaning v
  | .inOperator onColumn items meaning =>
    match inConstants onColumn items with
    | some cs => cs.any (sqlEq isNull cast v)
    | none => meaning v
  | .or children => holdsAny v children
  | .other meaning => meaning v

/-- One of the filters holds. -/
def holdsAny (v : V) : List (FilterExpr V) → Bool
  | [] => false
  | child :: children => holds v child || holdsAny v children

end

mutual

/-- A filter with constants has at least one, and holds of the values that are not `NULL` and equal to one of them. -/
theorem extract_spec : ∀ f {cs : List V}, f.extract = some cs →
    cs ≠ [] ∧ ∀ v, holds isNull cast v f = cs.any (sqlEq isNull cast v)
  | .optional child, cs, h => by
    rw [extract] at h
    obtain ⟨hnil, hhl⟩ := extract_spec child h
    exact ⟨hnil, fun v => by rw [holds, hhl]⟩
  | .comparison isEqual constant meaning, cs, h => by
    rw [extract] at h
    split at h
    case isTrue he =>
      obtain ⟨c, rfl, rfl⟩ := Option.map_eq_some_iff.1 h
      subst he
      simp [holds]
    case isFalse => cases h
  | .inOperator onColumn items meaning, cs, h => by
    rw [extract] at h
    refine ⟨?_, fun v => by rw [holds, h]⟩
    rw [inConstants] at h
    split at h
    · cases h
    rename_i hne
    rintro rfl
    rw [eq_map_of_allSome h] at hne
    exact hne rfl
  | .or children, cs, h => by
    rw [extract] at h
    split at h
    · cases h
    rename_i hne
    obtain ⟨hnil, hhl⟩ := extractAll_spec children h
    exact ⟨hnil (by simpa using hne), fun v => by rw [holds, hhl]⟩
  | .other _, cs, h => by
    rw [extract] at h
    cases h

/-- The same for an `OR`. -/
theorem extractAll_spec : ∀ fs {cs : List V}, extractAll fs = some cs →
    (fs ≠ [] → cs ≠ []) ∧ ∀ v, holdsAny isNull cast v fs = cs.any (sqlEq isNull cast v)
  | [], cs, h => by
    rw [extractAll] at h
    cases h
    exact ⟨fun hne => absurd rfl hne, fun v => by rw [holdsAny, any_nil]⟩
  | child :: children, cs, h => by
    rw [extractAll] at h
    split at h
    case h_1 vs ws hv hw =>
      cases h
      obtain ⟨hnil, hhl⟩ := extract_spec child hv
      refine ⟨fun _ e => hnil (append_eq_nil_iff.1 e).1, fun v => ?_⟩
      rw [holdsAny, hhl, (extractAll_spec children hw).2, any_append]
    case h_2 => cases h

end

end FilterExpr

/-! ## Classification -/

/-- What the engine does with values of type `V` and types of type `Ty`. A cast that fails throws. -/
structure PartitionEngine (V Ty : Type*) where
  isNull : V → Bool
  defaultCastAs : V → Ty → Option V
  toStr : V → Bytes
  sortKey : List V → Bytes
  sha256Hex : Bytes → Bytes
  decodePartitionMinTuple : Bytes → Option (List V)
  /-- The filters, without those of the excluded columns. -/
  serializeFilters : List (ℕ × FilterExpr V) → List ℕ → Option (Option Bytes × List Bytes)

/-- What the bind says of the columns of a function. -/
structure PartitionFunction (Ty : Type*) where
  singleValuePartitions : Bool
  outputSchema : Option (List Bytes)
  partitionColumnIndices : List ℕ
  allColumnNames : List Bytes
  allColumnTypes : List Ty
  rowidColumnName : Bytes

/-- What a scan asks for: the settings, the hints and the pushed-down filters, by
    the index of their column among those projected. -/
structure PartitionRequest (V : Type*) where
  partitionScope : Option Bool
  ordered : Bool
  sampled : Bool
  maxEnumerated : Option ℕ
  filters : Option (List (ℕ × FilterExpr V))
  columnIds : List ℕ

/-- The classification of a scan. -/
structure PartitionClass (V Ty : Type*) where
  splittable : Bool := false
  enumerable : Bool := false
  enumeratedTuples : List (List V) := []
  residualFilterBytes : Bytes := []
  columnIndices : List ℕ := []
  types : List Ty := []
  names : List Bytes := []
  max : ℕ := 1024

/-- The identifier of the row id. -/
def columnIdentifierRowId : ℕ := 2 ^ 64 - 1

namespace PartitionFunction

variable {V Ty : Type*} (fn : PartitionFunction Ty)

/-- The name and type of a partition column, matched by name. -/
def resolveColumn (schema : List Bytes) (i : ℕ) : Option (Bytes × Ty) :=
  match schema[i]? with
  | none => none
  | some name =>
    ((fn.allColumnNames.zip fn.allColumnTypes).find? (·.1 = name)).map fun c => (name, c.2)

/-- `ResolvePartitionColumns`: the partition columns, in their declared order. -/
def resolvePartitionColumns : Option (List (Bytes × Ty)) :=
  match fn.outputSchema with
  | none => none
  | some schema => fn.partitionColumnIndices.mapM (fn.resolveColumn schema)

/-- The name of the column of a filter. -/
def filterColumnName (columnIds : List ℕ) (colIdx : ℕ) : Bytes :=
  let original := columnIds.getD colIdx colIdx
  if original = columnIdentifierRowId ∧ fn.rowidColumnName ≠ [] then fn.rowidColumnName
  else fn.allColumnNames.getD original (decimal original)

end PartitionFunction

/-- The position of a name: the last one, as a later entry of the map replaces an earlier one. -/
def namePosition (names : List Bytes) (name : Bytes) : Option ℕ :=
  (names.zipIdx.filter (·.1 = name)).getLast?.map (·.2)

/-- The state of the loop over the filters. -/
structure PartitionScanState (V : Type*) where
  perCol : List (List V)
  colConstrained : List Bool
  excludeKeys : List ℕ := []

section Classify

variable {V Ty : Type*} (fn : PartitionFunction Ty)

/-- The loop over the filters: the constants of each partition column, `none` when a partition column has a filter of
    another shape. `position` is the partition column of a filter. -/
def collectPartitionFilters (position : ℕ → Option ℕ) :
    PartitionScanState V → List (ℕ × FilterExpr V) → Option (PartitionScanState V)
  | s, [] => some s
  | s, (colIdx, filter) :: fs =>
    match position colIdx with
    | none => collectPartitionFilters position s fs
    | some pos =>
      match filter.extract with
      | none => none
      | some vals =>
        collectPartitionFilters position
          { perCol := s.perCol.modify pos (· ++ vals)
            colConstrained := s.colConstrained.set pos true
            excludeKeys := s.excludeKeys ++ [colIdx] } fs

/-- The product of the constants, if it never has more than `max` tuples. -/
def enumerateTuples (max : ℕ) (perCol : List (List V)) : Option (List (List V)) :=
  perCol.foldlM (fun tuples vals =>
    if max < (extend tuples vals).length then none else some (extend tuples vals)) [[]]

/-- The residual filter: what is left without the partition predicates. -/
def residualFilter (eng : PartitionEngine V Ty) (filters : List (ℕ × FilterExpr V))
    (excludeKeys : List ℕ) : Option Bytes :=
  if filters.all (excludeKeys.contains ·.1) then some []
  else
    match eng.serializeFilters filters excludeKeys with
    | none => none
    | some (bytes, joinKeys) =>
      some (joinKeys.foldl (fun out jk => out ++ ascii "|" ++ jk) (bytes.getD []))

/-- The partition column of a filter. -/
def filterPosition (columns : List (Bytes × Ty)) (columnIds : List ℕ) (colIdx : ℕ) : Option ℕ :=
  namePosition (columns.map (·.1)) (fn.filterColumnName columnIds colIdx)

/-- `ClassifyPartitionFilters`. -/
def classifyPartitionFilters (eng : PartitionEngine V Ty) (fn : PartitionFunction Ty)
    (req : PartitionRequest V) : PartitionClass V Ty :=
  if !fn.singleValuePartitions || req.partitionScope = some false || req.ordered || req.sampled then {}
  else
    let max := req.maxEnumerated.getD 1024
    match fn.resolvePartitionColumns with
    | none => { max := max }
    | some columns =>
      let base : PartitionClass V Ty :=
        { columnIndices := fn.partitionColumnIndices
          names := columns.map (·.1)
          types := columns.map (·.2)
          max := max }
      let filters := req.filters.getD []
      let init : PartitionScanState V :=
        { perCol := columns.map fun _ => []
          colConstrained := columns.map fun _ => false }
      match collectPartitionFilters (filterPosition fn columns req.columnIds) init filters with
      | none => base
      | some s =>
        match residualFilter eng filters s.excludeKeys with
        | none => base
        | some residual =>
          let base := { base with splittable := true, residualFilterBytes := residual }
          if s.excludeKeys.isEmpty || !s.colConstrained.all id then base
          else
            match enumerateTuples max s.perCol with
            | none => base
            | some tuples => { base with enumerable := true, enumeratedTuples := tuples }

/-! ## What an enumerable scan is -/

/-- The constants of a filter. -/
def FilterExpr.constants (f : FilterExpr V) : List V := f.extract.getD []

/-- The filters on the partition column `pos`. -/
def filtersAt (position : ℕ → Option ℕ) (filters : List (ℕ × FilterExpr V)) (pos : ℕ) : List (FilterExpr V) :=
  (filters.filter fun f => position f.1 = some pos).map (·.2)

/-- The partition columns, resolved. -/
def PartitionFunction.partitionColumns : List (Bytes × Ty) :=
  fn.resolvePartitionColumns.getD []

/-- The types of the partition columns, and the filters of a scan on them. -/
def columnFilters (req : PartitionRequest V) : List (Ty × List (FilterExpr V)) :=
  fn.partitionColumns.mapIdx fun pos c =>
    (c.2, filtersAt (filterPosition fn fn.partitionColumns req.columnIds) (req.filters.getD []) pos)

theorem columnFilters_types (req : PartitionRequest V) :
    (columnFilters fn req).map (·.1) = fn.partitionColumns.map (·.2) := by
  refine ext_getElem? fun i => ?_
  rw [columnFilters, getElem?_map, getElem?_map, getElem?_mapIdx, Option.map_map]
  rfl

/-- The constants of all the filters on a column. -/
def columnConstants (col : Ty × List (FilterExpr V)) : List V := col.2.flatMap (·.constants)

theorem filtersAt_cons (position : ℕ → Option ℕ) (f : ℕ × FilterExpr V)
    (fs : List (ℕ × FilterExpr V)) (pos : ℕ) : filtersAt position (f :: fs) pos =
      if position f.1 = some pos then f.2 :: filtersAt position fs pos else filtersAt position fs pos := by
  rw [filtersAt, filter_cons]
  split
  case isTrue h => rw [if_pos (by simpa using h)]; rfl
  case isFalse h => rw [if_neg (by simpa using h)]; rfl

/-- The loop appends the constants of each filter to those of its column. -/
theorem collectPartitionFilters_spec {position : ℕ → Option ℕ} {filters : List (ℕ × FilterExpr V)}
    {s s' : PartitionScanState V} (h : collectPartitionFilters position s filters = some s') :
    s'.perCol = (s.perCol.mapIdx fun pos vs =>
        vs ++ (filtersAt position filters pos).flatMap (·.constants)) ∧
      s'.colConstrained = (s.colConstrained.mapIdx fun pos b => b || !(filtersAt position filters pos).isEmpty) ∧
      ∀ pos, ∀ f ∈ filtersAt position filters pos, f.extract ≠ none := by
  induction filters generalizing s with
  | nil =>
    rw [collectPartitionFilters, Option.some.injEq] at h
    subst h
    refine ⟨?_, ?_, by simp [filtersAt]⟩ <;> exact ext_getElem? fun i => by simp [filtersAt]
  | cons f fs ih =>
    rw [collectPartitionFilters] at h
    split at h
    case h_1 hp =>
      obtain ⟨h₁, h₂, h₃⟩ := ih h
      simp only [filtersAt_cons, hp, reduceCtorEq, if_false]
      exact ⟨h₁, h₂, h₃⟩
    case h_2 pos hp =>
      split at h
      · exact absurd h (by simp)
      rename_i vals hv
      obtain ⟨h₁, h₂, h₃⟩ := ih h
      have hc : f.2.constants = vals := by rw [FilterExpr.constants, hv]; rfl
      simp only [filtersAt_cons, hp, Option.some.injEq]
      refine ⟨h₁.trans (ext_getElem? fun i => ?_), h₂.trans (ext_getElem? fun i => ?_), fun i g hg => ?_⟩
      · rw [getElem?_mapIdx, getElem?_mapIdx, getElem?_modify]
        by_cases hi : pos = i
        · cases s.perCol[i]? <;> simp [hi, hc]
        · cases s.perCol[i]? <;> simp [hi]
      · rw [getElem?_mapIdx, getElem?_mapIdx, getElem?_set]
        by_cases hi : pos = i
        · subst hi
          by_cases hl : pos < s.colConstrained.length
          · simp [hl]
          · simp [hl]
        · simp [hi]
      · split at hg
        · rcases mem_cons.1 hg with rfl | hg
          · rw [hv]
            exact Option.some_ne_none _
          · exact h₃ i g hg
        · exact h₃ i g hg

/-- The tuples enumerated are the product of the columns. -/
theorem enumerateTuples_eq {max : ℕ} {perCol tuples : List (List V)}
    (h : enumerateTuples max perCol = some tuples) : tuples = product perCol := by
  have hfl : ∀ (cs ts ts' : List (List V)), cs.foldlM (fun tuples vals =>
      if max < (extend tuples vals).length then none else some (extend tuples vals)) ts = some ts' →
        ts' = cs.foldl extend ts := by
    intro cs
    induction cs with
    | nil =>
      intro ts ts' h
      exact (Option.some.inj h).symm
    | cons c cs ih =>
      intro ts ts' h
      rw [foldlM_cons] at h
      split at h
      · exact absurd h (by simp)
      · exact ih _ _ h
  rw [hfl perCol [[]] tuples h, foldl_extend_nil]

variable {eng : PartitionEngine V Ty} {fn : PartitionFunction Ty} {req : PartitionRequest V}

/-- What the classification of a scan as enumerable says. -/
theorem classifyPartitionFilters_enumerable (h : (classifyPartitionFilters eng fn req).enumerable = true) :
    (classifyPartitionFilters eng fn req).types = fn.partitionColumns.map (·.2) ∧
      (classifyPartitionFilters eng fn req).enumeratedTuples = product ((columnFilters fn req).map columnConstants) ∧
      ∀ col ∈ columnFilters fn req, col.2 ≠ [] ∧ ∀ f ∈ col.2, f.extract ≠ none := by
  revert h
  rw [classifyPartitionFilters]
  split
  · exact fun h => absurd h Bool.false_ne_true
  dsimp only
  split
  · exact fun h => absurd h Bool.false_ne_true
  rename_i columns hr
  have hcl : fn.partitionColumns = columns := by rw [PartitionFunction.partitionColumns, hr]; rfl
  split
  · exact fun h => absurd h Bool.false_ne_true
  rename_i s hs
  split
  · exact fun h => absurd h Bool.false_ne_true
  split
  · exact fun h => absurd h Bool.false_ne_true
  rename_i hall
  split
  · exact fun h => absurd h Bool.false_ne_true
  rename_i tuples ht
  intro _
  obtain ⟨hpr, hcn, hex⟩ := collectPartitionFilters_spec hs
  rw [Bool.or_eq_true, not_or, Bool.not_eq_true', Bool.not_eq_false] at hall
  refine ⟨by rw [hcl], ?_, fun col hcol => ?_⟩
  · rw [enumerateTuples_eq ht, hpr, columnFilters, hcl]
    refine congrArg product (ext_getElem? fun i => ?_)
    rw [getElem?_mapIdx, getElem?_map, getElem?_map, getElem?_mapIdx]
    cases columns[i]? <;> rfl
  · rw [columnFilters, hcl] at hcol
    obtain ⟨i, hi, rfl⟩ := mem_mapIdx.1 hcol
    have hmem : (!(filtersAt (filterPosition fn columns req.columnIds) (req.filters.getD []) i).isEmpty) ∈
        s.colConstrained := by
      rw [hcn]
      exact mem_mapIdx.2 ⟨i, by rwa [length_map], by rw [getElem_map, Bool.false_or]⟩
    have hb := all_eq_true.1 hall.2 _ hmem
    exact ⟨by simpa using hb, hex i⟩

theorem classifyPartitionFilters_splittable (h : (classifyPartitionFilters eng fn req).splittable = true) :
    (classifyPartitionFilters eng fn req).types = fn.partitionColumns.map (·.2) := by
  revert h
  rw [classifyPartitionFilters]
  split
  · exact fun h => absurd h Bool.false_ne_true
  dsimp only
  split
  · exact fun h => absurd h Bool.false_ne_true
  rename_i columns hr
  have hcl : fn.partitionColumns = columns := by rw [PartitionFunction.partitionColumns, hr]; rfl
  rw [hcl]
  split
  · exact fun _ => rfl
  split
  · exact fun _ => rfl
  split
  · exact fun _ => rfl
  split <;> exact fun _ => rfl

end Classify

end Vgi
