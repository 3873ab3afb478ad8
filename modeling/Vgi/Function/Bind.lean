import Vgi.Lib.Fallible
import Vgi.Lib.Select
import Vgi.Lib.Text

/-!
# Binding calls of a worker's functions

A parameter of a function may be declared constant. When a call is bound, the arguments at these
positions are evaluated; the values are kept in the bind data, and the arguments are erased from the
call, so that the others become the columns that are sent to the worker (`Engine.scalarBind`,
`Engine.aggregateBind`). What is evaluated, cast and compared, and how, is DuckDB's (`Engine`).

A call may be bound again, with the arguments that were left. The binder takes the number of arguments
for a sign that the constants were erased before.

* `scalarBind_twice_iff`: the first time the constants and the columns are as they should be. The second
  time they are so if there are no constant parameters, and only then: the constants are lost, or, if
  there are variadic arguments, others are taken for constants.
-/

namespace Vgi

open List

/-! ## What is given -/

/-- Expressions, their values and types, and what DuckDB does with them. -/
structure Engine (Value Typ Expr : Type) where
  typeOf : Value → Typ
  typeText : Typ → Bytes
  /-- `ANY`, or no type. -/
  isOpen : Typ → Bool
  /-- `DefaultTryCastAs`. -/
  tryCast : Value → Typ → Except Bytes Value
  foldable : Expr → Bool
  evaluate : Expr → Except Bytes Value
  returnType : Expr → Typ
  /-- `Value::operator==`, which throws if a value is null. -/
  equal : Value → Value → Option Bool
  /-- `Value::NotDistinctFrom`. -/
  notDistinct : Value → Value → Bool

structure AttachParameters where
  workerPath : Bytes
  dataVersionSpec : Bytes := []
  implementationVersion : Bytes := []
  workerDebug : Bool := false
  usePool : Bool := false
  deriving DecidableEq

/-- What is known of a function from its registration. -/
structure FunctionInfo (Typ : Type) where
  attachParams : AttachParameters
  attachOpaqueData : Bytes := []
  functionName : Bytes
  schemaName : Bytes := []
  settingNames : List Bytes := []
  requiredSecrets : List Bytes := []
  /-- The type of the only column; `none` if it is not a schema with one column. -/
  outputSchema : Option Typ
  positionalIsConst : List Bool
  positionalNames : List Bytes := []

/-- The arguments of a call, and the types that the function declares for them. -/
@[ext]
structure BoundArguments (Typ Expr : Type) where
  arguments : List Expr
  declared : List Typ
  deriving DecidableEq

/-- What the worker answers when a call is bound. -/
structure BindAnswer (Typ : Type) where
  outputSchema : Option Typ
  secretDependent : Bool := false

structure ScalarBindData (Value Typ : Type) where
  attachParams : AttachParameters
  attachOpaqueData : Bytes
  functionName : Bytes
  schemaName : Bytes
  settings : List (Bytes × Value)
  requiredSecrets : List Bytes
  secretDependent : Bool
  outputSchema : Typ
  argumentNames : List (Option Bytes)
  inputTypes : List Typ
  constValues : List Value
  deriving DecidableEq

structure AggregateBindData (Value Typ : Type) where
  attachParams : AttachParameters
  attachOpaqueData : Bytes
  functionName : Bytes
  schemaName : Bytes
  settings : List (Bytes × Value)
  requiredSecrets : List Bytes
  inputTypes : List Typ
  constValues : List Value
  deriving DecidableEq

/-! ## Settings and names -/

/-- Put a setting into a map, which is ordered by names. -/
def insertSetting {Value : Type} (name : Bytes) (v : Value) : List (Bytes × Value) → List (Bytes × Value)
  | [] => [(name, v)]
  | e :: l =>
    if name = e.1 then (name, v) :: l else if name < e.1 then (name, v) :: e :: l else e :: insertSetting name v l

/-- The settings of these names that there are. -/
def extractVgiSettings {Value : Type} (context : Bytes → Option Value) (names : List Bytes) : List (Bytes × Value) :=
  names.foldl (fun m name => match context name with
    | some v => insertSetting name v m
    | none => m) []

/-- The name of an argument: from the call, or else from the declaration. -/
def argumentName (given : Option (List Bytes)) (positionalNames : List Bytes) (i : ℕ) : Option Bytes :=
  match given.bind (·[i]?) with
  | some (b :: name) => some (b :: name)
  | _ => positionalNames[i]?

/-! ## Binding -/

namespace FunctionInfo

variable {Typ : Type} (info : FunctionInfo Typ)

def numConstParams : ℕ := info.positionalIsConst.count true

def expectedArgsAfterErase : ℕ := info.positionalIsConst.length - info.numConstParams

/-- A call with so many arguments is taken for one that was bound before. -/
def constArgsAlreadyErased (numArguments : ℕ) : Bool :=
  info.numConstParams > 0 && numArguments = info.expectedArgsAfterErase

/-- The positions of the constants in a call with so many arguments. -/
def constIndices (numArguments : ℕ) : List ℕ := positions (info.positionalIsConst.take numArguments)

def paramName (i : ℕ) : Bytes := info.positionalNames.getD i (ascii "parameter " ++ decimal i)

end FunctionInfo

/-- Erase the arguments at these positions. -/
def BoundArguments.erase {Typ Expr : Type} (a : BoundArguments Typ Expr) (indices : List ℕ) :
    BoundArguments Typ Expr :=
  ⟨eraseEach indices a.arguments, eraseEach indices a.declared⟩

namespace Engine

variable {Value Typ Expr : Type} [DecidableEq Typ] (E : Engine Value Typ Expr)

/-- The value of a constant, with the type that is declared for it. -/
def scalarConstant (info : FunctionInfo Typ) (a : BoundArguments Typ Expr) (i : ℕ) : Except Bytes Value :=
  match a.arguments[i]? with
  | none => .error []
  | some expr =>
    if !E.foldable expr then
      .error (ascii "Parameter '" ++ info.paramName i ++ ascii "' of function '" ++ info.functionName ++
        ascii "' must be a constant value")
    else do
      let val ← E.evaluate expr
      match a.declared[i]? with
      | none => return val
      | some declared =>
        if !E.isOpen declared && E.typeOf val ≠ declared then
          match E.tryCast val declared with
          | .ok casted => return casted
          | .error castError =>
            .error (ascii "Constant argument '" ++ info.paramName i ++ ascii "' of function '" ++ info.functionName ++
              ascii "': cannot cast " ++ E.typeText (E.typeOf val) ++ ascii " to " ++ E.typeText declared ++
              ascii ": " ++ castError)
        else return val

/-- The type of a column: the declared one, or if that is open the one the argument has. -/
def columnType (expr : Expr) (declared : Typ) : Typ := if E.isOpen declared then E.returnType expr else declared

/-- Bind a call of a scalar function: the bind data, and the arguments that are left. -/
def scalarBind (context : Bytes → Option Value) (info : FunctionInfo Typ) (a : BoundArguments Typ Expr)
    (names : Option (List Bytes)) (answer : BindAnswer Typ) :
    Except Bytes (ScalarBindData Value Typ × BoundArguments Typ Expr) := do
  let argumentNames := (List.range a.arguments.length).map (argumentName names info.positionalNames)
  let settings := extractVgiSettings context info.settingNames
  let alreadyErased := info.constArgsAlreadyErased a.arguments.length
  let indices := if alreadyErased then [] else info.constIndices a.arguments.length
  let constValues ← indices.mapM (E.scalarConstant info a)
  let left := a.erase indices
  -- the worker is not asked if the constants are not there
  let output := if alreadyErased then info.outputSchema else answer.outputSchema
  match output with
  | none => .error (ascii "VGI scalar function '" ++ info.functionName ++
      ascii "' bind did not return valid output schema")
  | some outputSchema =>
    return (⟨info.attachParams, info.attachOpaqueData, info.functionName, info.schemaName, settings,
      info.requiredSecrets, !info.requiredSecrets.isEmpty || (!alreadyErased && answer.secretDependent),
      outputSchema, argumentNames, List.zipWith E.columnType left.arguments left.declared, constValues⟩, left)

/-- The value of a constant of an aggregate, which is not cast. -/
def aggregateConstant (info : FunctionInfo Typ) (a : BoundArguments Typ Expr) (i : ℕ) : Except Bytes Value :=
  match a.arguments[i]? with
  | none => .error []
  | some expr =>
    if !E.foldable expr then
      .error (ascii "VGI aggregate function '" ++ info.functionName ++ ascii "': parameter '" ++
        info.positionalNames.getD i (decimal i) ++
        ascii "' must be a constant value, but received a non-constant expression.")
    else E.evaluate expr

/-- Bind a call of an aggregate. -/
def aggregateBind (context : Bytes → Option Value) (info : FunctionInfo Typ) (a : BoundArguments Typ Expr) :
    Except Bytes (AggregateBindData Value Typ × BoundArguments Typ Expr) := do
  let settings := extractVgiSettings context info.settingNames
  let expectedNonConst := info.positionalIsConst.count false
  let alreadyErased := !info.positionalIsConst.isEmpty && a.arguments.length = expectedNonConst
  let indices := if alreadyErased then [] else info.constIndices a.arguments.length
  let constValues ← indices.mapM (E.aggregateConstant info a)
  let left := a.erase indices
  return (⟨info.attachParams, info.attachOpaqueData, info.functionName, info.schemaName, settings,
    info.requiredSecrets, left.arguments.map E.returnType, constValues⟩, left)

/-! ## What should be recorded -/

/-- The value of an argument as a constant of this type. -/
def IsConstant (a : Expr × Typ) (v : Value) : Prop :=
  E.foldable a.1 = true ∧ ∃ raw, E.evaluate a.1 = .ok raw ∧
    if E.isOpen a.2 = false ∧ E.typeOf raw ≠ a.2 then E.tryCast raw a.2 = .ok v else v = raw

/-- DuckDB has found an argument for each parameter, and types for all of the arguments. -/
structure Resolved (info : FunctionInfo Typ) (a : BoundArguments Typ Expr) : Prop where
  declared : a.declared.length = a.arguments.length
  positional : info.positionalIsConst.length ≤ a.arguments.length

/-- The constants are the values at the constant positions in order, the columns are the other arguments
    in order, and each has the type of its own parameter. -/
structure Recorded (info : FunctionInfo Typ) (a : BoundArguments Typ Expr) (b : ScalarBindData Value Typ)
    (left : BoundArguments Typ Expr) : Prop where
  constants : List.Forall₂ E.IsConstant (picked info.positionalIsConst (a.arguments.zip a.declared)) b.constValues
  columns : left.arguments = others info.positionalIsConst a.arguments
  declared : left.declared = others info.positionalIsConst a.declared
  types : b.inputTypes = List.zipWith E.columnType left.arguments left.declared

variable {E} {info : FunctionInfo Typ} {a : BoundArguments Typ Expr}

theorem isConstant_of_scalarConstant {i : ℕ} {v : Value} (h : E.scalarConstant info a i = .ok v)
    {x : Expr × Typ} (hx : (a.arguments.zip a.declared)[i]? = some x) : E.IsConstant x v := by
  obtain ⟨expr, declared⟩ := x
  rw [List.getElem?_zip_eq_some] at hx
  rw [scalarConstant, hx.1] at h
  dsimp only at h
  split_ifs at h with hfl
  rw [Bool.not_eq_true, Bool.not_eq_false'] at hfl
  obtain ⟨raw, hraw, h⟩ := bind_eq_ok.1 h
  refine ⟨hfl, raw, hraw, ?_⟩
  rw [hx.2] at h
  dsimp only at h ⊢
  by_cases hcs : E.isOpen declared = false ∧ E.typeOf raw ≠ declared
  · rw [if_pos hcs]
    rw [if_pos (by simp [hcs])] at h
    rcases hcst : E.tryCast raw declared with castError | casted
    · rw [hcst] at h
      cases h
    · rw [hcst] at h
      exact h
  · rw [if_neg hcs]
    rw [if_neg (by simpa using hcs)] at h
    exact (Except.ok.inj h).symm

/-- The values at the positions are the constants. -/
theorem forall₂_of_mapM (hr : Resolved info a) {vs : List Value}
    (h : (info.constIndices a.arguments.length).mapM (E.scalarConstant info a) = .ok vs) :
    List.Forall₂ E.IsConstant (picked info.positionalIsConst (a.arguments.zip a.declared)) vs := by
  have hzp : (a.arguments.zip a.declared).length = a.arguments.length := by
    rw [length_zip, hr.declared, min_self]
  have hmap : (positions info.positionalIsConst).map ((a.arguments.zip a.declared)[·]?) = _ :=
    map_positions (by rw [hzp]; exact hr.positional)
  rw [FunctionInfo.constIndices, take_of_length_le hr.positional] at h
  -- at each position there is an argument with its type
  have hat : List.Forall₂ (fun x v => ∀ y, x = some y → E.IsConstant y v)
      ((positions info.positionalIsConst).map ((a.arguments.zip a.declared)[·]?)) vs := by
    rw [forall₂_map_left_iff]
    exact (mapM_eq_ok h).imp fun i v hi y hy => isConstant_of_scalarConstant hi hy
  rw [hmap, forall₂_map_left_iff] at hat
  exact hat.imp fun y v hy => hy y rfl

omit [DecidableEq Typ] in
/-- The constants have not been erased from a call that is bound for the first time. -/
theorem not_alreadyErased (hr : Resolved info a) : info.constArgsAlreadyErased a.arguments.length = false := by
  rw [FunctionInfo.constArgsAlreadyErased, Bool.and_eq_false_iff, decide_eq_false_iff_not, decide_eq_false_iff_not]
  by_cases hconst : info.numConstParams > 0
  · right
    have hpositional := hr.positional
    have hcount : info.numConstParams ≤ info.positionalIsConst.length := count_le_length
    rw [FunctionInfo.expectedArgsAfterErase]
    omega
  · exact .inl hconst

omit [DecidableEq Typ] in
theorem erase_constIndices (info : FunctionInfo Typ) (hdeclared : a.declared.length = a.arguments.length) :
    a.erase (info.constIndices a.arguments.length) =
      ⟨others info.positionalIsConst a.arguments, others info.positionalIsConst a.declared⟩ := by
  have hd := eraseEach_positions info.positionalIsConst a.declared
  rw [hdeclared] at hd
  rw [BoundArguments.erase, FunctionInfo.constIndices, eraseEach_positions, hd]

variable {context : Bytes → Option Value} {names : Option (List Bytes)} {answer : BindAnswer Typ}
  {b : ScalarBindData Value Typ} {left : BoundArguments Typ Expr}

/-- What a bind does, whichever branch it takes. -/
theorem scalarBind_eq_ok (h : E.scalarBind context info a names answer = .ok (b, left)) :
    let erased := info.constArgsAlreadyErased a.arguments.length
    let indices := if erased then [] else info.constIndices a.arguments.length
    indices.mapM (E.scalarConstant info a) = .ok b.constValues ∧ left = a.erase indices ∧
      b.inputTypes = List.zipWith E.columnType left.arguments left.declared ∧
      b.attachParams = info.attachParams ∧ b.attachOpaqueData = info.attachOpaqueData ∧
      b.functionName = info.functionName ∧ b.schemaName = info.schemaName ∧
      b.settings = extractVgiSettings context info.settingNames := by
  intro erased indices
  obtain ⟨vs, hvs, h⟩ := bind_eq_ok.1 h
  rcases hout : (if erased then info.outputSchema else answer.outputSchema) with _ | outputSchema
  · rw [hout] at h
    cases h
  · rw [hout] at h
    cases h
    exact ⟨hvs, rfl, rfl, rfl, rfl, rfl, rfl, rfl⟩

/-- The first time all is as it should be. -/
theorem recorded_of_resolved (hr : Resolved info a) (h : E.scalarBind context info a names answer = .ok (b, left)) :
    E.Recorded info a b left := by
  obtain ⟨hvs, hlf, hts, -⟩ := scalarBind_eq_ok h
  rw [not_alreadyErased hr, if_neg Bool.false_ne_true] at hvs hlf
  rw [erase_constIndices info hr.declared] at hlf
  exact ⟨forall₂_of_mapM hr hvs, congrArg BoundArguments.arguments hlf, congrArg BoundArguments.declared hlf, hts⟩

/-- Without constants a bind succeeds, and leaves all arguments. -/
theorem scalarBind_of_no_const (E : Engine Value Typ Expr) (context : Bytes → Option Value)
    (a : BoundArguments Typ Expr) (names : Option (List Bytes)) (hconst : true ∉ info.positionalIsConst)
    {outputSchema : Typ} (han : answer.outputSchema = some outputSchema) :
    ∃ b, E.scalarBind context info a names answer = .ok (b, a) := by
  have hcount : info.numConstParams = 0 := count_eq_zero.2 hconst
  have her : info.constArgsAlreadyErased a.arguments.length = false := by
    rw [FunctionInfo.constArgsAlreadyErased, hcount]
    rfl
  have hin : info.constIndices a.arguments.length = [] := positions_of_unset fun hmem => hconst (mem_of_mem_take hmem)
  rw [scalarBind]
  simp only [her, hin, han, if_neg Bool.false_ne_true, mapM_nil]
  exact ⟨_, rfl⟩

/-- With constants, another bind loses them, or takes other arguments for constants. -/
theorem not_recorded_again (hr : Resolved info a) (hconst : true ∈ info.positionalIsConst)
    (hlf : left.arguments = others info.positionalIsConst a.arguments)
    (hdeclared : left.declared = others info.positionalIsConst a.declared)
    {b₂ : ScalarBindData Value Typ} {left₂ : BoundArguments Typ Expr}
    (h : E.scalarBind context info left names answer = .ok (b₂, left₂)) : ¬E.Recorded info a b₂ left₂ := by
  intro hrc
  have hpos : 0 < info.positionalIsConst.count true := count_pos_iff.2 hconst
  have hcount : info.positionalIsConst.count true ≤ info.positionalIsConst.length := count_le_length
  have hpositional := hr.positional
  have hlen := length_others_add info.positionalIsConst a.arguments
  rw [take_of_length_le hr.positional] at hlen
  obtain ⟨hvs, hlf₂, -⟩ := scalarBind_eq_ok h
  by_cases her : info.constArgsAlreadyErased left.arguments.length = true
  · -- the constants are lost
    rw [her, if_pos rfl, mapM_nil] at hvs
    have hno := hrc.constants.length_eq
    rw [← Except.ok.inj hvs, length_picked, length_zip, hr.declared, min_self, take_of_length_le hr.positional] at hno
    exact hpos.ne' hno
  · -- there are variadic arguments, so some of what is left is at the position of a constant
    have hln : left.declared.length = left.arguments.length := by
      have hdeclared' := length_others_add info.positionalIsConst a.declared
      have har := length_others_add info.positionalIsConst a.arguments
      rw [hr.declared] at hdeclared'
      rw [hlf, hdeclared]
      omega
    rw [if_neg her, erase_constIndices info hln] at hlf₂
    have hmr : left.arguments.length ≠ info.positionalIsConst.length - info.positionalIsConst.count true := by
      intro heq
      refine her (Bool.and_eq_true_iff.2 ⟨decide_eq_true hpos, decide_eq_true heq⟩)
    have hsm : others info.positionalIsConst left.arguments = left.arguments := by
      have hcl := hrc.columns
      rw [hlf₂] at hcl
      exact hcl.trans hlf.symm
    have htk := length_others_add info.positionalIsConst left.arguments
    rw [hsm] at htk
    have hsp := congrArg (List.count true) (take_append_drop left.arguments.length info.positionalIsConst)
    rw [count_append] at hsp
    have hdr : (info.positionalIsConst.drop left.arguments.length).count true ≤ _ := count_le_length
    rw [length_drop] at hdr
    rw [← hlf] at hlen
    omega

/-- The first bind records the constants and the columns as they should be. A second one, on the arguments
    that the first has left, does so if there is no constant parameter, and only then. -/
theorem scalarBind_twice_iff (E : Engine Value Typ Expr) (context context₂ : Bytes → Option Value)
    (info : FunctionInfo Typ) (a : BoundArguments Typ Expr) (hr : Resolved info a)
    (names names₂ : Option (List Bytes)) (answer : BindAnswer Typ) {b : ScalarBindData Value Typ}
    {left : BoundArguments Typ Expr} (h : E.scalarBind context info a names answer = .ok (b, left)) :
    E.Recorded info a b left ∧
      ((∀ answer₂, answer₂.outputSchema.isSome → ∃ b₂ left₂,
          E.scalarBind context₂ info left names₂ answer₂ = .ok (b₂, left₂) ∧ E.Recorded info a b₂ left₂) ↔
        true ∉ info.positionalIsConst) := by
  have hfst := recorded_of_resolved hr h
  refine ⟨hfst, fun hag hconst => ?_, fun hconst answer₂ han => ?_⟩
  · obtain ⟨b₂, left₂, h₂, hrc⟩ := hag ⟨some b.outputSchema, false⟩ rfl
    exact not_recorded_again hr hconst hfst.columns hfst.declared h₂ hrc
  -- nothing was erased
  obtain ⟨outputSchema, hout⟩ := Option.isSome_iff_exists.1 han
  have hlf : left = a := by
    have har := hfst.columns
    have hdeclared := hfst.declared
    rw [others_of_unset hconst] at har hdeclared
    ext1
    · exact har
    · exact hdeclared
  subst hlf
  obtain ⟨b₂, h₂⟩ := scalarBind_of_no_const E context₂ left names₂ hconst hout
  exact ⟨b₂, left, h₂, recorded_of_resolved hr h₂⟩

end Engine

/-! ## Calls that are bound twice -/

inductive SmallType
  | any | integer | bigint
  deriving DecidableEq

structure SmallValue where
  type : SmallType
  n : ℤ
  deriving DecidableEq

inductive SmallExpr
  | lit (v : SmallValue) | col (i : ℕ) (type : SmallType)
  deriving DecidableEq

/-- Integers of two types, which are compared by their values. -/
def smallEngine : Engine SmallValue SmallType SmallExpr where
  typeOf v := v.type
  typeText
    | .any => ascii "ANY"
    | .integer => ascii "INTEGER"
    | .bigint => ascii "BIGINT"
  isOpen t := t = .any
  tryCast v t := .ok { v with type := t }
  foldable
    | .lit _ => true
    | .col _ _ => false
  evaluate
    | .lit v => .ok v
    | .col _ _ => .error (ascii "not a constant")
  returnType
    | .lit v => v.type
    | .col _ t => t
  equal v w := some (v.n = w.n)
  notDistinct v w := v.n = w.n

namespace SmallExpr

/-- A function with these parameters. -/
def info (positionalIsConst : List Bool) : FunctionInfo SmallType where
  attachParams := { workerPath := ascii "w" }
  functionName := ascii "f"
  outputSchema := some .bigint
  positionalIsConst := positionalIsConst

def one : SmallExpr := .lit ⟨.bigint, 1⟩

def x : SmallExpr := .col 0 .bigint

def y : SmallExpr := .col 1 .bigint

def call (arguments : List SmallExpr) : BoundArguments SmallType SmallExpr :=
  ⟨arguments, List.replicate arguments.length .bigint⟩

/-- Bind a call. -/
def bind (isConst : List Bool) (a : BoundArguments SmallType SmallExpr) :
    Except Bytes (ScalarBindData SmallValue SmallType × BoundArguments SmallType SmallExpr) :=
  smallEngine.scalarBind (fun _ => none) (info isConst) a none ⟨some .bigint, false⟩

/-- The constants that a bind records, and the columns. -/
def once (isConst : List Bool) (arguments : List SmallExpr) : Except Bytes (List SmallValue × List SmallExpr) := do
  let (b, left) ← bind isConst (call arguments)
  return (b.constValues, left.arguments)

/-- What the second bind records. -/
def twice (isConst : List Bool) (arguments : List SmallExpr) : Except Bytes (List SmallValue × List SmallExpr) := do
  let (_, left) ← bind isConst (call arguments)
  let (b, left) ← bind isConst left
  return (b.constValues, left.arguments)

theorem resolved_call {isConst : List Bool} {arguments : List SmallExpr} (h : isConst.length ≤ arguments.length) :
    Engine.Resolved (info isConst) (call arguments) :=
  ⟨length_replicate, h⟩

/-- A call without constants, which is bound twice. -/
theorem plain_bound_twice : ∃ b left, bind [false, false] (call [x, y]) = .ok (b, left) ∧
    smallEngine.Recorded (info [false, false]) (call [x, y]) b left ∧
      ∃ b₂ left₂, bind [false, false] left = .ok (b₂, left₂) ∧
        smallEngine.Recorded (info [false, false]) (call [x, y]) b₂ left₂ := by
  have hok : (bind [false, false] (call [x, y])).isOk = true := by decide +kernel
  rcases hbn : bind [false, false] (call [x, y]) with text | ⟨b, left⟩
  · rw [hbn] at hok
    cases hok
  · obtain ⟨hfst, hif⟩ := smallEngine.scalarBind_twice_iff (fun _ => none) (fun _ => none) (info [false, false])
      (call [x, y]) (resolved_call (by decide)) none none ⟨some .bigint, false⟩ hbn
    exact ⟨b, left, rfl, hfst, hif.2 (by decide) ⟨some .bigint, false⟩ rfl⟩

/-- With a constant parameter, the constant is lost when the call is bound again. With variadic arguments,
    the first of them becomes the constant if it is one, and otherwise the second bind fails. -/
theorem constant_lost :
    once [true, false] [one, x] = .ok ([⟨.bigint, 1⟩], [x]) ∧ twice [true, false] [one, x] = .ok ([], [x]) ∧
    once [true] [one, .lit ⟨.bigint, 2⟩, x] = .ok ([⟨.bigint, 1⟩], [.lit ⟨.bigint, 2⟩, x]) ∧
    twice [true] [one, .lit ⟨.bigint, 2⟩, x] = .ok ([⟨.bigint, 2⟩], [x]) ∧
    once [true] [one, x, y] = .ok ([⟨.bigint, 1⟩], [x, y]) ∧
    twice [true] [one, x, y] =
      .error (ascii "Parameter 'parameter 0' of function 'f' must be a constant value") := by
  refine ⟨?_, ?_, ?_, ?_, ?_, ?_⟩
  all_goals decide +kernel

end SmallExpr

end Vgi
