import Vgi.Lib.Text

/-!
# The arguments of a table-in-out call

A function declares its parameters by a schema, and one of them is a table (`parseFunctionArgumentSchema`). In a call
the table is a NULL among the positional values. The bind takes it out before the positions are numbered, and with it
every other value that is NULL (`tableInOutArguments`): those after it move up, and `f(t, NULL, 5)` sends what
`f(t, 5)` sends (`null_dropped`).

* `arguments_exact_iff`: every value is at its declared position if and only if none of them is NULL.
-/

namespace Vgi.Arguments

open List

inductive LogicalType (Typ : Type)
  | table | any | sqlNull
  | other (type : Typ)
  deriving DecidableEq

structure Field (Typ : Type) where
  name : Bytes
  type : LogicalType Typ
  metadata : List (Bytes × Bytes) := []

structure FunctionArgumentTypes (Typ : Type) where
  positionalTypes : List (LogicalType Typ) := []
  positionalNames : List Bytes := []
  positionalIsConst : List Bool := []
  /-- The newest first: a later parameter of the same name, in any case, hides an earlier one. -/
  namedParameters : List (Bytes × LogicalType Typ) := []
  hasVarargs : Bool := false
  varargsType : LogicalType Typ := .any
  tableInputPosition : Option ℕ := none
  tableInputName : Bytes := []

structure Value (Typ V : Type) where
  type : LogicalType Typ
  value : Option V
  deriving DecidableEq

variable {Typ V : Type}

namespace FunctionArgumentTypes

variable (r : FunctionArgumentTypes Typ)

def addPositional (name : Bytes) (type : LogicalType Typ) (isConst : Bool) : FunctionArgumentTypes Typ :=
  { r with
    positionalTypes := r.positionalTypes ++ [type]
    positionalNames := r.positionalNames ++ [name]
    positionalIsConst := r.positionalIsConst ++ [isConst] }

def addField (f : Field Typ) : FunctionArgumentTypes Typ :=
  let tagged (key value : String) : Bool := f.metadata.lookup (ascii key) = some (ascii value)
  let type := if tagged "vgi_type" "any" then .any else f.type
  if tagged "vgi_varargs" "true" then
    { r with
      hasVarargs := true
      varargsType := match type with
        | .sqlNull => .any
        | t => t }
  else if tagged "vgi_type" "table" then
    { r.addPositional f.name .table false with
      tableInputPosition := some r.positionalTypes.length
      tableInputName := f.name }
  else if tagged "vgi_arg" "named" then { r with namedParameters := (lower f.name, type) :: r.namedParameters }
  else r.addPositional f.name type (tagged "vgi_const" "true")

end FunctionArgumentTypes

def parseFunctionArgumentSchema (schema : List (Field Typ)) : FunctionArgumentTypes Typ :=
  schema.foldl .addField {}

def Value.isNull (v : Value Typ V) : Bool := v.value.isNone

def positionalName (i : ℕ) : Bytes := ascii "positional_" ++ decimal i

def namedName (name : Bytes) : Bytes := ascii "named_" ++ name

/-- The fields of the struct that is sent. Without any, it is a NULL. -/
def buildArgumentsFromValues (positionalArgs : List (Value Typ V)) (namedArgs : List (Bytes × Value Typ V)) :
    List (Bytes × Value Typ V) :=
  positionalArgs.zipIdx.map (fun x => (positionalName x.2, x.1)) ++ namedArgs.map fun x => (namedName x.1, x.2)

/-- The arguments `VgiTableInOutBind` builds. With `input_from_args` the positional values are the input. -/
def tableInOutArguments (inputFromArgs : Bool) (inputs : List (Value Typ V)) (named : List (Bytes × Value Typ V)) :
    List (Bytes × Value Typ V) :=
  buildArgumentsFromValues (if inputFromArgs then [] else inputs.filter (!·.isNull)) named

/-- A call: the values for the scalar parameters in their order, with those for varargs last, and the named ones. -/
structure Call (Typ V : Type) where
  scalars : List (Value Typ V)
  named : List (Bytes × Value Typ V)

/-- What the binder makes of the positional values: the table is a NULL. -/
def inputs : List (LogicalType Typ) → List (Value Typ V) → List (Value Typ V)
  | .table :: ts, vs => ⟨.sqlNull, none⟩ :: inputs ts vs
  | _ :: ts, v :: vs => v :: inputs ts vs
  | _ :: _, [] => []
  | [], vs => vs

/-- What is sent has each value, and no other, at the position or under the name of its parameter. -/
structure Call.Exact (call : Call Typ V) (sent : List (Bytes × Value Typ V)) : Prop where
  scalars : ∀ i, sent.lookup (positionalName i) = call.scalars[i]?
  named : ∀ name, sent.lookup (namedName name) = call.named.lookup name

/-! ## What is sent -/

theorem positionalName_ne_namedName (i : ℕ) (name : Bytes) : positionalName i ≠ namedName name := fun h =>
  absurd (congrArg List.head? h) (by simp [positionalName, namedName, ascii])

theorem lookup_named (name : Bytes) (named : List (Bytes × Value Typ V)) :
    (named.map fun x => (namedName x.1, x.2)).lookup (namedName name) = named.lookup name := by
  induction named with
  | nil => rfl
  | cons x named ih =>
    have hnm : (namedName name == namedName x.1) = (name == x.1) := by
      rw [Bool.eq_iff_iff, beq_iff_eq, beq_iff_eq, namedName, namedName, append_cancel_left_eq]
    rw [map_cons, lookup_cons, lookup_cons, hnm, ih]

theorem lookup_eq_none {key : Bytes} {l : List (Bytes × Value Typ V)} (h : ∀ x ∈ l, x.1 ≠ key) : l.lookup key = none :=
  lookup_eq_none_iff.2 fun x hx => by simpa using (h x hx).symm

theorem lookup_positional {rest : List (Bytes × Value Typ V)} (hrs : ∀ i, rest.lookup (positionalName i) = none)
    (vs : List (Value Typ V)) (k j : ℕ) :
    ((vs.zipIdx k).map (fun x => (positionalName x.2, x.1)) ++ rest).lookup (positionalName (k + j)) = vs[j]? := by
  induction vs generalizing k j with
  | nil => exact hrs _
  | cons v vs ih =>
    rw [zipIdx_cons, map_cons, cons_append, lookup_cons]
    cases j with
    | zero => simp
    | succ j =>
      have hne : positionalName (k + (j + 1)) ≠ positionalName k := fun h => by
        have := decimal_natCast_inj (append_cancel_left h)
        omega
      rw [beq_false_of_ne hne, ← Nat.succ_add_eq_add_succ]
      exact ih (k + 1) j

/-- What is built from some values is exact for a call with these, and for no other. -/
theorem exact_iff (call : Call Typ V) (positionalArgs : List (Value Typ V)) :
    call.Exact (buildArgumentsFromValues positionalArgs call.named) ↔ positionalArgs = call.scalars := by
  have hrs : ∀ i, (call.named.map fun x => (namedName x.1, x.2)).lookup (positionalName i) = none :=
    fun i => lookup_eq_none fun x hx => by
      obtain ⟨y, -, rfl⟩ := List.mem_map.1 hx
      exact (positionalName_ne_namedName i y.1).symm
  have hpos : ∀ i, (buildArgumentsFromValues positionalArgs call.named).lookup (positionalName i) =
      positionalArgs[i]? := fun i => by
    simpa [buildArgumentsFromValues] using lookup_positional hrs positionalArgs 0 i
  refine ⟨fun h => ext_getElem? fun i => (hpos i).symm.trans (h.scalars i), fun h => ⟨?_, fun name => ?_⟩⟩
  · exact fun i => h ▸ hpos i
  have hno : (positionalArgs.zipIdx.map fun x => (positionalName x.2, x.1)).lookup (namedName name) = none :=
    lookup_eq_none fun x hx => by
      obtain ⟨y, -, rfl⟩ := List.mem_map.1 hx
      exact positionalName_ne_namedName y.2 name
  rw [buildArgumentsFromValues, lookup_append, hno, lookup_named]
  rfl

theorem filter_inputs (ts : List (LogicalType Typ)) (vs : List (Value Typ V)) :
    (inputs ts vs).filter (!·.isNull) = vs.filter (!·.isNull) := by
  fun_induction inputs ts vs with
  | case1 ts vs ih => exact ih
  | case2 t ts v vs _ ih => rw [filter_cons, filter_cons, ih]
  | case3 | case4 => rfl

/-- The values of a call are sent at their declared positions if and only if none of them is NULL; with
    `input_from_args`, if and only if there is none. -/
theorem arguments_exact_iff (schema : List (Field Typ)) (inputFromArgs : Bool) (call : Call Typ V) :
    call.Exact (tableInOutArguments inputFromArgs
        (inputs (parseFunctionArgumentSchema schema).positionalTypes call.scalars) call.named) ↔
      ∀ v ∈ call.scalars, inputFromArgs = false ∧ v.isNull = false := by
  rw [tableInOutArguments, exact_iff, filter_inputs]
  cases inputFromArgs with
  | false => simp [filter_eq_self]
  | true => simp [eq_nil_iff_forall_not_mem]

/-- A function of a table and two numbers, of which the last may be left out. -/
def aTable : List (Field Unit) :=
  [⟨ascii "t", .sqlNull, [(ascii "vgi_type", ascii "table")]⟩, ⟨ascii "a", .other (), []⟩,
    ⟨ascii "b", .other (), [(ascii "vgi_varargs", ascii "true")]⟩]

/-- `f(t, NULL, 5)` and `f(t, 5)` send the same, with the 5 at the position of the NULL. -/
theorem null_dropped :
    let types := (parseFunctionArgumentSchema aTable).positionalTypes
    let null : Value Unit ℕ := ⟨.other (), none⟩
    let five : Value Unit ℕ := ⟨.other (), some 5⟩
    tableInOutArguments false (inputs types [null, five]) [] = tableInOutArguments false (inputs types [five]) [] ∧
      ¬Call.Exact ⟨[null, five], []⟩ (tableInOutArguments false (inputs types [null, five]) []) := by
  exact ⟨by decide +kernel, fun h => absurd (h.scalars 0) (by decide +kernel)⟩

end Vgi.Arguments
