import Vgi.Lib.Bytes

/-!
# Column statistics

A worker sends, for each column of a table, a row of statistics: bounds, whether there are `NULL`s and other values, and
for strings a length and whether there is Unicode. From such a row the client builds the statistics that the optimizer
prunes with (`buildColumnStatistics`), out of the statistics of the bounds alone.

A row allows a set of values (`StatsRow.Allows`), and so do statistics (`BaseStatistics.Admits`).

* `admits_iff`: when a value that the row allows is admitted;
* `statistics_sound_iff`: so the statistics admit all values of the row iff each of them lies between the bounds that
  are given and is like one of them in what the row does not say; and this goes for all columns of a response.
-/

namespace Vgi.Statistics

open List

variable {V : Type} [LinearOrder V]

/-! ## The model -/

/-- What the engine knows of values: the length and the Unicode of strings. -/
structure Values (V : Type) where
  isString : V → Bool
  length : V → ℕ
  containsUnicode : V → Bool

/-- A column type, with the casts to it. -/
structure ColumnType (V : Type) where
  /-- The value is of this type. -/
  hasType : V → Bool
  /-- `none` when the cast throws. -/
  defaultCastAs : V → Option V
  /-- The type of the value has the same representation. -/
  sameInternalType : V → Bool := fun _ => false
  withType : V → V := id

def ColumnType.castValue (t : ColumnType V) (val : V) : V :=
  if t.hasType val then val
  else
    match t.defaultCastAs val with
    | some cast => cast
    | none => if t.sameInternalType val then t.withType val else val

/-- The statistics of the engine. Without a bound, or a length, there is no limit. -/
structure BaseStatistics (V : Type) where
  stringStats : Bool
  min : Option V := none
  max : Option V := none
  hasNull : Bool := true
  hasNoNull : Bool := true
  containsUnicode : Bool := true
  maxStringLength : Option ℕ := none
  distinctCount : ℕ := 0

namespace BaseStatistics

def createUnknown (stringStats : Bool) : BaseStatistics V := { stringStats }

/-- The statistics of a single value. -/
def fromConstant (e : Values V) (v : V) : BaseStatistics V where
  stringStats := e.isString v
  min := some v
  max := some v
  hasNull := false
  hasNoNull := true
  containsUnicode := e.containsUnicode v
  maxStringLength := some (e.length v)
  distinctCount := 1

/-- The join of two statistics. -/
def merge (a b : BaseStatistics V) : BaseStatistics V where
  stringStats := a.stringStats
  min := Option.map₂ (fun x y => x ⊓ y) a.min b.min
  max := Option.map₂ (fun x y => x ⊔ y) a.max b.max
  hasNull := a.hasNull || b.hasNull
  hasNoNull := a.hasNoNull || b.hasNoNull
  containsUnicode := a.containsUnicode || b.containsUnicode
  maxStringLength := Option.map₂ (fun x y => x ⊔ y) a.maxStringLength b.maxStringLength
  distinctCount := a.distinctCount

/-- The statistics do not rule the value out; `none` is `NULL`. -/
abbrev Admits (e : Values V) (s : BaseStatistics V) : Option V → Prop
  | none => s.hasNull = true
  | some v =>
    s.hasNoNull = true ∧ (∀ lo ∈ s.min, lo ≤ v) ∧ (∀ hi ∈ s.max, v ≤ hi) ∧
      (s.stringStats = true →
        (e.containsUnicode v = true → s.containsUnicode = true) ∧ ∀ n ∈ s.maxStringLength, e.length v ≤ n)

end BaseStatistics

/-- The statistics of one column, as the worker sends them. -/
structure StatsRow (V : Type) where
  columnName : Bytes := []
  min : Option V := none
  max : Option V := none
  hasNull : Bool
  hasNotNull : Bool
  /-- `-1` if it is not known. -/
  distinctCount : ℤ := -1
  containsUnicode : Option Bool := none
  maxStringLength : Option ℕ := none

/-- What the row says beside its bounds. -/
def BaseStatistics.annotate (result : BaseStatistics V) (row : StatsRow V) : BaseStatistics V :=
  let result := { result with
    hasNull := result.hasNull || row.hasNull
    hasNoNull := result.hasNoNull || row.hasNotNull
    distinctCount := if 0 ≤ row.distinctCount then row.distinctCount.toNat else result.distinctCount }
  if result.stringStats then
    { result with
      containsUnicode := result.containsUnicode || row.containsUnicode = some true
      -- a length of the engine has 32 bits
      maxStringLength := match row.maxStringLength with
        | some n => some (n % 2 ^ 32)
        | none => result.maxStringLength }
  else result

def buildColumnStatistics (e : Values V) (t : ColumnType V) (stringType : Bool) (row : StatsRow V) :
    BaseStatistics V :=
  match row.min.or row.max with
  | none => .createUnknown stringType
  | some first =>
    let result := BaseStatistics.fromConstant e (t.castValue first)
    let result := match row.min, row.max with
      | some _, some max => result.merge (.fromConstant e (t.castValue max))
      | _, _ => result
    result.annotate row

/-! ### The rows of a response -/

/-- A row before its cells are read. A cell may be `NULL`. -/
structure StatsCells (V : Type) where
  columnName : Option Bytes
  min : Option V := none
  max : Option V := none
  hasNull : Option Bool
  hasNotNull : Option Bool
  distinctCount : Option ℤ := none
  containsUnicode : Option Bool := none
  maxStringLength : Option ℕ := none

/-- The row of these cells; a `NULL` where there may be none makes the reading throw. -/
def StatsCells.read (cells : StatsCells V) : Option (StatsRow V) := do
  let columnName ← cells.columnName
  let hasNull ← cells.hasNull
  let hasNotNull ← cells.hasNotNull
  return {
    columnName, hasNull, hasNotNull
    min := cells.min
    max := cells.max
    distinctCount := cells.distinctCount.getD (-1)
    containsUnicode := cells.containsUnicode
    maxStringLength := cells.maxStringLength }

/-- A column of the table: its type, and whether this is a string type. -/
structure TableColumn (V : Type) where
  type : ColumnType V
  stringType : Bool

/-- The statistics by column. A row that cannot be read, or is of no column of the table, is
    left out; the last one of a column counts. -/
def parseColumnStatisticsBatch (e : Values V) (columns : Bytes → Option (TableColumn V))
    (rows : List (StatsCells V)) : Bytes → Option (BaseStatistics V) :=
  rows.foldl (fun out cells =>
    match cells.read with
    | none => out
    | some row =>
      match columns row.columnName with
      | none => out
      | some column =>
        Function.update out row.columnName (some (buildColumnStatistics e column.type column.stringType row)))
    fun _ => none

variable {s : BaseStatistics V}

/-- The statistics of a column come from a row of this column. -/
theorem parseColumnStatisticsBatch_eq_some {e : Values V} {columns : Bytes → Option (TableColumn V)}
    {rows : List (StatsCells V)} {name : Bytes} (h : parseColumnStatisticsBatch e columns rows name = some s) :
    ∃ cells ∈ rows, ∃ row, cells.read = some row ∧ row.columnName = name ∧
      ∃ column, columns name = some column ∧ s = buildColumnStatistics e column.type column.stringType row := by
  rw [parseColumnStatisticsBatch] at h
  -- by the rows in reverse: the last one of the column has written the entry
  induction rows using List.reverseRecOn with
  | nil => cases h
  | append_singleton rows cells ih =>
    rw [foldl_append, foldl_cons, foldl_nil] at h
    have hpre (hold : _ = some s) := (ih hold).imp fun _ hrow => And.imp_left (mem_append_left [cells]) hrow
    rcases hrd : cells.read with _ | row
    · rw [hrd] at h
      exact hpre h
    rw [hrd] at h
    dsimp only at h
    rcases hcl : columns row.columnName with _ | column
    · rw [hcl] at h
      exact hpre h
    rw [hcl] at h
    dsimp only at h
    rcases eq_or_ne name row.columnName with rfl | hne
    · rw [Function.update_self] at h
      exact ⟨cells, mem_append_right _ (mem_singleton_self _), row, hrd, rfl, column, hcl, (Option.some.inj h).symm⟩
    · rw [Function.update_of_ne hne] at h
      exact hpre h

/-! ## What a row says -/

namespace StatsRow

variable (e : Values V) (t : ColumnType V) (row : StatsRow V)

/-- The row allows the value in its column; `none` is `NULL`. -/
abbrev Allows : Option V → Prop
  | none => row.hasNull = true
  | some v =>
    t.hasType v = true ∧ row.hasNotNull = true ∧ (∀ lo ∈ row.min, lo ≤ v) ∧ (∀ hi ∈ row.max, v ≤ hi) ∧
      (e.isString v = true →
        (e.containsUnicode v = true → row.containsUnicode ≠ some false) ∧
          ∀ n ∈ row.maxStringLength, e.length v ≤ n)

/-- The bounds of the row, in the type of the column. -/
def bounds : List V := (row.min.toList ++ row.max.toList).map t.castValue

/-- The value lies between the bounds that are given and, where the row does not say how long the
    strings are and whether there is Unicode in them, some bound is as long and has Unicode too. -/
structure Covers (v : V) : Prop where
  lower : ∃ b ∈ row.bounds t, b ≤ v
  upper : ∃ b ∈ row.bounds t, v ≤ b
  unicode : (∃ b ∈ (row.bounds t).head?, e.isString b = true) → e.containsUnicode v = true →
    row.containsUnicode = some true ∨ ∃ b ∈ row.bounds t, e.containsUnicode b = true
  length : (∃ b ∈ (row.bounds t).head?, e.isString b = true) →
    match row.maxStringLength with
    | some n => e.length v ≤ n % 2 ^ 32
    | none => ∃ b ∈ row.bounds t, e.length v ≤ e.length b

end StatsRow

/-! ## What the statistics admit -/

section Admits

variable {e : Values V} {t : ColumnType V} {stringType : Bool} {row : StatsRow V} {v : V}

theorem exists_mem_append_iff {α : Type*} {p : α → Prop} {bs cs : List α} :
    (∃ b ∈ bs ++ cs, p b) ↔ (∃ b ∈ bs, p b) ∨ ∃ b ∈ cs, p b := by
  simp only [mem_append, or_and_right, exists_or]

theorem forall_map₂_inf {a b : Option V} :
    (∀ lo ∈ Option.map₂ (fun x y => x ⊓ y) a b, lo ≤ v) ↔ (∀ lo ∈ a, lo ≤ v) ∨ ∀ lo ∈ b, lo ≤ v := by
  rcases a with _ | a <;> rcases b with _ | b <;> simp

theorem forall_map₂_sup {α : Type*} [LinearOrder α] {a b : Option α} {v : α} :
    (∀ hi ∈ Option.map₂ (fun x y => x ⊔ y) a b, v ≤ hi) ↔ (∀ hi ∈ a, v ≤ hi) ∨ ∀ hi ∈ b, v ≤ hi := by
  rcases a with _ | a <;> rcases b with _ | b <;> simp

/-- The statistics are the join of those of the values. -/
structure BaseStatistics.Spans (e : Values V) (bs : List V) (s : BaseStatistics V) : Prop where
  stringStats : s.stringStats = true ↔ ∃ b ∈ bs.head?, e.isString b = true
  hasNoNull : s.hasNoNull = true
  lower : ∀ v, (∀ lo ∈ s.min, lo ≤ v) ↔ ∃ b ∈ bs, b ≤ v
  upper : ∀ v, (∀ hi ∈ s.max, v ≤ hi) ↔ ∃ b ∈ bs, v ≤ b
  unicode : s.containsUnicode = true ↔ ∃ b ∈ bs, e.containsUnicode b = true
  length : ∀ k, (∀ n ∈ s.maxStringLength, k ≤ n) ↔ ∃ b ∈ bs, k ≤ e.length b

open BaseStatistics

theorem spans_fromConstant (e : Values V) (v : V) : Spans e [v] (fromConstant e v) := by
  constructor <;> simp [fromConstant]

theorem BaseStatistics.Spans.merge {b : V} {bs cs : List V} {s' : BaseStatistics V} (h : Spans e (b :: bs) s)
    (h' : Spans e cs s') : Spans e (b :: bs ++ cs) (s.merge s') where
  stringStats := h.stringStats
  hasNoNull := by rw [BaseStatistics.merge, h.hasNoNull, Bool.true_or]
  lower := by
    intro v
    rw [BaseStatistics.merge, forall_map₂_inf, h.lower, h'.lower, exists_mem_append_iff]
  upper := by
    intro v
    rw [BaseStatistics.merge, forall_map₂_sup, h.upper, h'.upper, exists_mem_append_iff]
  unicode := by
    rw [BaseStatistics.merge, Bool.or_eq_true, h.unicode, h'.unicode, exists_mem_append_iff]
  length := by
    intro k
    rw [BaseStatistics.merge, forall_map₂_sup, h.length, h'.length, exists_mem_append_iff]

/-- With a bound, the statistics are those of the bounds and of what the row says beside them. -/
theorem buildColumnStatistics_spans (e : Values V) (t : ColumnType V) (stringType : Bool)
    (hbd : ¬ (row.min = none ∧ row.max = none)) :
    ∃ s, Spans e (row.bounds t) s ∧ buildColumnStatistics e t stringType row = s.annotate row := by
  rw [StatsRow.bounds, buildColumnStatistics]
  rcases hmin : row.min with _ | lo <;> rcases hmax : row.max with _ | hi
  · exact absurd ⟨hmin, hmax⟩ hbd
  · exact ⟨_, spans_fromConstant e (t.castValue hi), rfl⟩
  · exact ⟨_, spans_fromConstant e (t.castValue lo), rfl⟩
  · exact ⟨_, (spans_fromConstant e (t.castValue lo)).merge (spans_fromConstant e (t.castValue hi)), rfl⟩

theorem admits_annotate_iff (h : Spans e (row.bounds t) s) : (s.annotate row).Admits e (some v) ↔ row.Covers e t v := by
  have hnl : (s.hasNoNull || row.hasNotNull) = true := by rw [h.hasNoNull, Bool.true_or]
  rw [annotate]
  by_cases hstr : s.stringStats = true
  · have hhd := h.stringStats.1 hstr
    have hun : (s.containsUnicode || row.containsUnicode = some true) = true ↔
        row.containsUnicode = some true ∨ ∃ b ∈ row.bounds t, e.containsUnicode b = true := by
      rw [Bool.or_eq_true, h.unicode, decide_eq_true_eq, or_comm]
    have hlen : (∀ n ∈ (match row.maxStringLength with
          | some n => some (n % 2 ^ 32)
          | none => s.maxStringLength), e.length v ≤ n) ↔
        match row.maxStringLength with
        | some n => e.length v ≤ n % 2 ^ 32
        | none => ∃ b ∈ row.bounds t, e.length v ≤ e.length b := by
      rcases row.maxStringLength with _ | n
      · exact h.length _
      · exact ⟨fun hn => hn _ rfl, fun hn _ hm => Option.some.inj hm ▸ hn⟩
    rw [if_pos hstr]
    constructor
    · rintro ⟨-, hlw, hup, hst⟩
      exact ⟨(h.lower v).1 hlw, (h.upper v).1 hup, fun _ hv => hun.1 ((hst hstr).1 hv), fun _ => hlen.1 (hst hstr).2⟩
    · intro hcv
      exact ⟨hnl, (h.lower v).2 hcv.lower, (h.upper v).2 hcv.upper,
        fun _ => ⟨fun hv => hun.2 (hcv.unicode hhd hv), hlen.2 (hcv.length hhd)⟩⟩
  · rw [if_neg hstr]
    constructor
    · rintro ⟨-, hlw, hup, -⟩
      exact ⟨(h.lower v).1 hlw, (h.upper v).1 hup, fun hhd => absurd (h.stringStats.2 hhd) hstr,
        fun hhd => absurd (h.stringStats.2 hhd) hstr⟩
    · intro hcv
      exact ⟨hnl, (h.lower v).2 hcv.lower, (h.upper v).2 hcv.upper, fun hs => absurd hs hstr⟩

/-- When the statistics admit a value that the row allows. -/
theorem admits_iff (stringType : Bool) (_ : row.Allows e t (some v)) :
    (buildColumnStatistics e t stringType row).Admits e (some v) ↔
      row.min = none ∧ row.max = none ∨ row.Covers e t v := by
  by_cases hbd : row.min = none ∧ row.max = none
  · refine iff_of_true ?_ (.inl hbd)
    rw [buildColumnStatistics, hbd.1, hbd.2]
    simp [createUnknown, Admits]
  · obtain ⟨s, hs, heq⟩ := buildColumnStatistics_spans e t stringType hbd
    rw [heq, admits_annotate_iff hs]
    exact ⟨.inr, fun h => h.resolve_left hbd⟩

theorem admits_null (e : Values V) (t : ColumnType V) (stringType : Bool) (hal : row.Allows e t none) :
    (buildColumnStatistics e t stringType row).Admits e none := by
  by_cases hbd : row.min = none ∧ row.max = none
  · rw [buildColumnStatistics, hbd.1, hbd.2]
    rfl
  · obtain ⟨s, -, heq⟩ := buildColumnStatistics_spans e t stringType hbd
    have hnl : (s.hasNull || row.hasNull) = true := by rw [show row.hasNull = true from hal, Bool.or_true]
    rw [heq, annotate, Admits]
    split_ifs <;> exact hnl

end Admits

/-- The statistics admit all values that the row allows iff the row has no bounds, or covers them. -/
theorem buildColumnStatistics_sound_iff (e : Values V) (t : ColumnType V) (stringType : Bool) (row : StatsRow V) :
    (∀ x, row.Allows e t x → (buildColumnStatistics e t stringType row).Admits e x) ↔
      row.min = none ∧ row.max = none ∨ ∀ v, row.Allows e t (some v) → row.Covers e t v := by
  constructor
  · intro h
    by_cases hbd : row.min = none ∧ row.max = none
    · exact .inl hbd
    · exact .inr fun v hv => ((admits_iff stringType hv).1 (h _ hv)).resolve_left hbd
  · rintro h (_ | v) hx
    · exact admits_null e t stringType hx
    · exact (admits_iff stringType hx).2 (h.imp_right fun hcv => hcv v hx)

/-- Of every row, the statistics admit all values that it allows iff it has no bounds, or covers them. Those of a
    response are the statistics of its rows. -/
theorem statistics_sound_iff (e : Values V) :
    (∀ (t : ColumnType V) (stringType : Bool) (row : StatsRow V),
      (∀ x, row.Allows e t x → (buildColumnStatistics e t stringType row).Admits e x) ↔
        row.min = none ∧ row.max = none ∨ ∀ v, row.Allows e t (some v) → row.Covers e t v) ∧
    ∀ columns rows name s, parseColumnStatisticsBatch e columns rows name = some s →
      ∃ cells ∈ rows, ∃ row column, cells.read = some row ∧ row.columnName = name ∧ columns name = some column ∧
        ((∀ x, row.Allows e column.type x → s.Admits e x) ↔ row.min = none ∧ row.max = none ∨
          ∀ v, row.Allows e column.type (some v) → row.Covers e column.type v) := by
  refine ⟨buildColumnStatistics_sound_iff e, fun columns rows name s hs => ?_⟩
  obtain ⟨cells, hcells, row, hrd, hnm, column, hcl, rfl⟩ := parseColumnStatisticsBatch_eq_some hs
  exact ⟨cells, hcells, row, column, hrd, hnm, hcl, buildColumnStatistics_sound_iff e _ _ row⟩

/-! ## Rows that say too little -/

/-- An integer type: other numbers are rounded, and a number out of its range is not cast. -/
def integerColumn (rounding : ℚ → ℤ) (lo hi : ℤ) : ColumnType ℚ where
  hasType := fun q => q.den = 1 && lo ≤ q.num && q.num ≤ hi
  defaultCastAs := fun q =>
    if lo ≤ rounding q && rounding q ≤ hi then some (rounding q) else none

/-- Numbers, which have no length. -/
def numbers : Values ℚ where
  isString := fun _ => false
  length := fun _ => 0
  containsUnicode := fun _ => false

/-- Strings, by their code units; those from 128 on are Unicode. -/
def strings : Values (List ℕ) where
  isString := fun _ => true
  length := List.length
  containsUnicode := fun s => s.any (128 ≤ ·)

def varchar : ColumnType (List ℕ) where
  hasType := fun _ => true
  defaultCastAs := some

/-- A row without a minimum, one that does not say how long its strings are, one that does not say whether there is
    Unicode, and one whose length does not fit: each allows a value that the statistics rule out. -/
theorem allowed_values_excluded :
    (∃ (row : StatsRow ℚ) (v : ℚ), row.Allows numbers (integerColumn round (-128) 127) (some v) ∧
      ¬ (buildColumnStatistics numbers (integerColumn round (-128) 127) false row).Admits numbers (some v)) ∧
    ∀ row ∈ ([{ min := some [97], max := some [99], hasNull := false, hasNotNull := true
                containsUnicode := some true },
              { min := some [97], max := some [99], hasNull := false, hasNotNull := true
                maxStringLength := some 9 },
              { min := some [97], max := some [99], hasNull := false, hasNotNull := true
                containsUnicode := some true, maxStringLength := some (2 ^ 32) }] : List (StatsRow (List ℕ))),
      ∃ v, row.Allows strings varchar (some v) ∧
        ¬ (buildColumnStatistics strings varchar true row).Admits strings (some v) := by
  refine ⟨⟨{ max := some 10, hasNull := false, hasNotNull := true }, 5, by decide +kernel⟩, ?_⟩
  simp only [forall_mem_cons]
  exact ⟨⟨[98, 98], by decide +kernel⟩, ⟨[98, 200], by decide +kernel⟩, ⟨[98], by decide +kernel⟩,
    nofun⟩

end Vgi.Statistics
