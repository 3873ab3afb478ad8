import Vgi.Function.Bind

/-!
# Bind data that compares equal

DuckDB takes two calls of a function for the same expression if their arguments are the same and their
bind data compares equal (`ScalarBindData.equals`, `Engine.aggregateEquals`). The constants are not
among the arguments any more, and the bind data of scalar functions is compared without them. That of
aggregates is compared with them, and with the settings, but after casts, and without the worker.

* `equals_sent_iff`: when calls whose bind data compares equal send the same to the worker.
-/

namespace Vgi

open ScalarBindData

variable {Value Typ Expr : Type} [DecidableEq Typ]

/-- What a call sends to the worker, and to which. -/
structure WorkerCall (Value : Type) where
  workerPath : Bytes
  dataVersionSpec : Bytes
  implementationVersion : Bytes
  schemaName : Bytes
  functionName : Bytes
  attachOpaqueData : Bytes
  settings : List (Bytes × Value)
  constValues : List Value
  deriving DecidableEq

def ScalarBindData.sent (b : ScalarBindData Value Typ) : WorkerCall Value :=
  ⟨b.attachParams.workerPath, b.attachParams.dataVersionSpec, b.attachParams.implementationVersion, b.schemaName,
    b.functionName, b.attachOpaqueData, b.settings, b.constValues⟩

def AggregateBindData.sent (b : AggregateBindData Value Typ) : WorkerCall Value :=
  ⟨b.attachParams.workerPath, b.attachParams.dataVersionSpec, b.attachParams.implementationVersion, b.schemaName,
    b.functionName, b.attachOpaqueData, b.settings, b.constValues⟩

def ScalarBindData.equals (b b' : ScalarBindData Value Typ) : Bool :=
  b.attachParams.workerPath = b'.attachParams.workerPath && b.attachOpaqueData = b'.attachOpaqueData &&
    b.functionName = b'.functionName && b.schemaName = b'.schemaName &&
    b.attachParams.workerDebug = b'.attachParams.workerDebug && b.attachParams.usePool = b'.attachParams.usePool

namespace Engine

variable (E : Engine Value Typ Expr)

/-- The settings of two maps one after the other; `none` if the comparison of values throws. -/
def comparePairs : List (Bytes × Value) → List (Bytes × Value) → Option Bool
  | (name, v) :: settings, (name', v') :: settings' =>
    if name = name' then do
      if ← E.equal v v' then comparePairs settings settings' else return false
    else some false
  | _, _ => some true

/-- `std::map::operator==`. -/
def settingsEqual (settings settings' : List (Bytes × Value)) : Option Bool :=
  if settings.length = settings'.length then E.comparePairs settings settings' else some false

def constantsEqual (vs vs' : List Value) : Bool :=
  vs.length = vs'.length && (List.zipWith E.notDistinct vs vs').all id

/-- It throws if the comparison of settings does. -/
def aggregateEquals (b b' : AggregateBindData Value Typ) : Option Bool := do
  if b.functionName ≠ b'.functionName ∨ b.schemaName ≠ b'.schemaName ∨
      b.attachOpaqueData ≠ b'.attachOpaqueData then return false
  else if ← E.settingsEqual b.settings b'.settings then return E.constantsEqual b.constValues b'.constValues
  else return false

/-! ## What is compared -/

/-- A call that is to be bound. -/
structure FunctionCall (Value Typ Expr : Type) where
  context : Bytes → Option Value
  info : FunctionInfo Typ
  args : BoundArguments Typ Expr

/-- The settings that the function reads. -/
def FunctionCall.settings (c : FunctionCall Value Typ Expr) : List (Bytes × Value) :=
  extractVgiSettings c.context c.info.settingNames

/-- The constants of a call, with the types that are declared for them. -/
def scalarConstants (c : FunctionCall Value Typ Expr) : Except Bytes (List Value) :=
  (c.info.constIndices c.args.arguments.length).mapM (E.scalarConstant c.info c.args)

/-- The constants of a call of an aggregate. -/
def aggregateConstants (c : FunctionCall Value Typ Expr) : Except Bytes (List Value) :=
  (c.info.constIndices c.args.arguments.length).mapM (E.aggregateConstant c.info c.args)

namespace FunctionCall

variable (c c' : FunctionCall Value Typ Expr)

/-- The same function of the same schema, attached with the same data. -/
structure SameFunction : Prop where
  functionName : c.info.functionName = c'.info.functionName
  schemaName : c.info.schemaName = c'.info.schemaName
  attachOpaqueData : c.info.attachOpaqueData = c'.info.attachOpaqueData

/-- Workers of the same versions. -/
structure SameVersions : Prop where
  dataVersionSpec : c.info.attachParams.dataVersionSpec = c'.info.attachParams.dataVersionSpec
  implementationVersion : c.info.attachParams.implementationVersion = c'.info.attachParams.implementationVersion

/-- Workers that are started in the same way. -/
structure SamePath : Prop where
  workerPath : c.info.attachParams.workerPath = c'.info.attachParams.workerPath
  workerDebug : c.info.attachParams.workerDebug = c'.info.attachParams.workerDebug
  usePool : c.info.attachParams.usePool = c'.info.attachParams.usePool

end FunctionCall

variable {E} {c c' : FunctionCall Value Typ Expr} {left : BoundArguments Typ Expr}

theorem scalarConstants_of_bind (hr : Resolved c.info c.args) {names : Option (List Bytes)} {answer : BindAnswer Typ}
    {b : ScalarBindData Value Typ} (h : E.scalarBind c.context c.info c.args names answer = .ok (b, left)) :
    E.scalarConstants c = .ok b.constValues := by
  have hvs := (scalarBind_eq_ok h).1
  rw [not_alreadyErased hr, if_neg Bool.false_ne_true] at hvs
  exact hvs

variable {b : AggregateBindData Value Typ}

omit [DecidableEq Typ] in
/-- What is bound is what was given. -/
theorem aggregateBind_eq_ok (hr : Resolved c.info c.args)
    (h : E.aggregateBind c.context c.info c.args = .ok (b, left)) :
    E.aggregateConstants c = .ok b.constValues ∧ b.attachParams = c.info.attachParams ∧
      b.attachOpaqueData = c.info.attachOpaqueData ∧ b.functionName = c.info.functionName ∧
      b.schemaName = c.info.schemaName ∧ b.settings = c.settings := by
  obtain ⟨vs, hvs, h⟩ := bind_eq_ok.1 h
  cases h
  refine ⟨?_, rfl, rfl, rfl, rfl, rfl⟩
  rw [aggregateConstants, ← hvs]
  congr 1
  split_ifs with her
  · -- then there are no constants
    obtain ⟨-, hlen⟩ := Bool.and_eq_true_iff.1 her
    have hlen := of_decide_eq_true hlen
    have hsum := List.count_true_add_count_false c.info.positionalIsConst
    have hpos := hr.positional
    have hno : true ∉ c.info.positionalIsConst := List.count_eq_zero.1 (by omega)
    exact positions_of_unset fun hmem => hno (List.mem_of_mem_take hmem)
  · rfl

omit [DecidableEq Typ] in
theorem scalarEquals_iff {b b' : ScalarBindData Value Typ} :
    b.equals b' = true ↔
      (b.functionName = b'.functionName ∧ b.schemaName = b'.schemaName ∧ b.attachOpaqueData = b'.attachOpaqueData) ∧
      b.attachParams.workerPath = b'.attachParams.workerPath ∧
      b.attachParams.workerDebug = b'.attachParams.workerDebug ∧ b.attachParams.usePool = b'.attachParams.usePool := by
  simp only [equals, Bool.and_eq_true, decide_eq_true_eq]
  tauto

omit [DecidableEq Typ] in
theorem aggregateEquals_iff {b' : AggregateBindData Value Typ} :
    E.aggregateEquals b b' = some true ↔
      (b.functionName = b'.functionName ∧ b.schemaName = b'.schemaName ∧ b.attachOpaqueData = b'.attachOpaqueData) ∧
      E.settingsEqual b.settings b'.settings = some true ∧
      E.constantsEqual b.constValues b'.constValues = true := by
  rw [aggregateEquals]
  by_cases hdiffer : b.functionName ≠ b'.functionName ∨ b.schemaName ≠ b'.schemaName ∨
      b.attachOpaqueData ≠ b'.attachOpaqueData
  · rw [if_pos hdiffer]
    refine ⟨fun h => absurd (Option.some.inj h) Bool.false_ne_true, fun h => ?_⟩
    rcases hdiffer with hname | hschema | hdata
    · exact absurd h.1.1 hname
    · exact absurd h.1.2.1 hschema
    · exact absurd h.1.2.2 hdata
  · rw [if_neg hdiffer]
    simp only [not_or, not_not] at hdiffer
    rcases hsettings : E.settingsEqual b.settings b'.settings with _ | _ | _
    · exact ⟨fun h => absurd h (by nofun), fun h => absurd h.2.1 (by nofun)⟩
    · exact ⟨fun h => absurd (Option.some.inj h) Bool.false_ne_true,
        fun h => absurd (Option.some.inj h.2.1) Bool.false_ne_true⟩
    · exact ⟨fun h => ⟨hdiffer, rfl, Option.some.inj h⟩, fun h => congrArg some h.2.2⟩

/-- Constants that are not distinct after casts. -/
def ConstantsAlike (E : Engine Value Typ Expr) (x x' : Except Bytes (List Value)) : Prop :=
  ∃ vs vs', x = .ok vs ∧ x' = .ok vs' ∧ E.constantsEqual vs vs' = true

/-- When calls whose bind data compares equal send the same to the worker. Calls of scalar functions: if
    those of one function, with one path to the worker, also have the same versions, settings and
    constants. Calls of aggregates: if those of one function, whose settings and constants are alike after
    casts, have the same worker, and settings and constants of the same types. -/
theorem equals_sent_iff (E : Engine Value Typ Expr) (c c' : FunctionCall Value Typ Expr)
    (hr : Resolved c.info c.args) (hr' : Resolved c'.info c'.args) :
    (∀ names names' answer answer' b b' left left',
      E.scalarBind c.context c.info c.args names answer = .ok (b, left) →
      E.scalarBind c'.context c'.info c'.args names' answer' = .ok (b', left') →
      ((b.equals b' = true → b.sent = b'.sent) ↔
        (c.SameFunction c' → c.SamePath c' →
          c.SameVersions c' ∧ c.settings = c'.settings ∧ E.scalarConstants c = E.scalarConstants c'))) ∧
    ∀ b b' left left',
      E.aggregateBind c.context c.info c.args = .ok (b, left) →
      E.aggregateBind c'.context c'.info c'.args = .ok (b', left') →
      ((E.aggregateEquals b b' = some true → b.sent = b'.sent) ↔
        (c.SameFunction c' → E.settingsEqual c.settings c'.settings = some true →
          E.ConstantsAlike (E.aggregateConstants c) (E.aggregateConstants c') →
          c.info.attachParams.workerPath = c'.info.attachParams.workerPath ∧ c.SameVersions c' ∧
            c.settings = c'.settings ∧ E.aggregateConstants c = E.aggregateConstants c')) := by
  refine ⟨fun names names' answer answer' b b' left left' hb hb' => ?_, fun b b' left left' hb hb' => ?_⟩
  · obtain ⟨-, -, -, hpr, hdata, hname, hschema, hsettings⟩ := scalarBind_eq_ok hb
    obtain ⟨-, -, -, hpr', hdata', hname', hschema', hsettings'⟩ := scalarBind_eq_ok hb'
    have hcn := scalarConstants_of_bind hr hb
    have hcn' := scalarConstants_of_bind hr' hb'
    rw [scalarEquals_iff, sent, sent, WorkerCall.mk.injEq, hcn, hcn',
      Except.ok.injEq, hpr, hpr', hdata, hdata', hname, hname', hschema, hschema', hsettings, hsettings']
    constructor
    · rintro h ⟨hfn, hsc, hat⟩ ⟨hpt, hdb, hpl⟩
      obtain ⟨-, hv, hi, -, -, -, hs, hcs⟩ := h ⟨⟨hfn, hsc, hat⟩, hpt, hdb, hpl⟩
      exact ⟨⟨hv, hi⟩, hs, hcs⟩
    · rintro h ⟨⟨hfn, hsc, hat⟩, hpt, hdb, hpl⟩
      obtain ⟨⟨hv, hi⟩, hs, hcs⟩ := h ⟨hfn, hsc, hat⟩ ⟨hpt, hdb, hpl⟩
      exact ⟨hpt, hv, hi, hsc, hfn, hat, hs, hcs⟩
  · obtain ⟨hcn, hpr, hdata, hname, hschema, hsettings⟩ := aggregateBind_eq_ok hr hb
    obtain ⟨hcn', hpr', hdata', hname', hschema', hsettings'⟩ := aggregateBind_eq_ok hr' hb'
    rw [aggregateEquals_iff, AggregateBindData.sent, AggregateBindData.sent, WorkerCall.mk.injEq, hcn, hcn',
      Except.ok.injEq, hpr, hpr', hdata, hdata', hname, hname', hschema, hschema', hsettings, hsettings']
    constructor
    · rintro h ⟨hfn, hsc, hat⟩ hse ⟨vs, vs', hvs, hvs', hal⟩
      cases hvs
      cases hvs'
      obtain ⟨hpt, hv, hi, -, -, -, hs, hcs⟩ := h ⟨⟨hfn, hsc, hat⟩, hse, hal⟩
      exact ⟨hpt, ⟨hv, hi⟩, hs, hcs⟩
    · rintro h ⟨⟨hfn, hsc, hat⟩, hse, hal⟩
      obtain ⟨hpt, ⟨hv, hi⟩, hs, hcs⟩ := h ⟨hfn, hsc, hat⟩ hse ⟨_, _, rfl, rfl, hal⟩
      exact ⟨hpt, hv, hi, hsc, hfn, hat, hs, hcs⟩

end Engine

/-! ## Calls with other constants -/

namespace SmallExpr

open Engine

def literal (type : SmallType) (n : ℤ) : SmallExpr := .lit ⟨type, n⟩

/-- `f(x, c)`, where the second parameter is a constant of this type. -/
def withConstant (path : String) (declared : SmallType) (c : SmallExpr) :
    FunctionCall SmallValue SmallType SmallExpr where
  context _ := none
  info := { info [false, true] with attachParams := { workerPath := ascii path } }
  args := ⟨[x, c], [.bigint, declared]⟩

/-- Both calls are bound: the arguments that are left, whether the bind data compares equal, and what is
    sent as constants. -/
def comparedScalar (c c' : FunctionCall SmallValue SmallType SmallExpr) :
    Except Bytes (List SmallExpr × List SmallExpr × Bool × List SmallValue × List SmallValue) := do
  let (b, left) ← smallEngine.scalarBind c.context c.info c.args none ⟨some .bigint, false⟩
  let (b', left') ← smallEngine.scalarBind c'.context c'.info c'.args none ⟨some .bigint, false⟩
  return (left.arguments, left'.arguments, b.equals b', b.sent.constValues, b'.sent.constValues)

/-- Both calls are bound as aggregates: the arguments that are left, whether the bind data compares equal,
    and what is sent. -/
def comparedAggregate (c c' : FunctionCall SmallValue SmallType SmallExpr) :
    Except Bytes (List SmallExpr × List SmallExpr × Option Bool × WorkerCall SmallValue × WorkerCall SmallValue) := do
  let (b, left) ← smallEngine.aggregateBind c.context c.info c.args
  let (b', left') ← smallEngine.aggregateBind c'.context c'.info c'.args
  return (left.arguments, left'.arguments, smallEngine.aggregateEquals b b', b.sent, b'.sent)

theorem resolved_withConstant (path : String) (declared : SmallType) (c : SmallExpr) :
    Resolved (withConstant path declared c).info (withConstant path declared c).args := ⟨rfl, le_rfl⟩

/-- What a call `f(x, c)` sends. -/
def sentCall (path : String) (v : SmallValue) : WorkerCall SmallValue :=
  ⟨ascii path, [], [], [], ascii "f", [], [], [v]⟩

/-- The bind data of `f(x, 1)` and of `f(x, 2)` compares equal. So does that of an aggregate for a constant
    of one type and of another, and that for two workers. -/
theorem other_constant_merged :
    comparedScalar (withConstant "w" .any (literal .bigint 1)) (withConstant "w" .any (literal .bigint 2)) =
      .ok ([x], [x], true, [⟨.bigint, 1⟩], [⟨.bigint, 2⟩]) ∧
    comparedAggregate (withConstant "w" .any (literal .integer 1)) (withConstant "w" .any (literal .bigint 1)) =
      .ok ([x], [x], some true, sentCall "w" ⟨.integer, 1⟩, sentCall "w" ⟨.bigint, 1⟩) ∧
    comparedAggregate (withConstant "w" .any (literal .bigint 1)) (withConstant "v" .any (literal .bigint 1)) =
      .ok ([x], [x], some true, sentCall "w" ⟨.bigint, 1⟩, sentCall "v" ⟨.bigint, 1⟩) := by
  refine ⟨?_, ?_, ?_⟩
  all_goals decide +kernel

/-- The bind data of `f(x, 1)`. -/
def boundOne (names : List (Option Bytes)) : ScalarBindData SmallValue SmallType :=
  ⟨{ workerPath := ascii "w" }, [], ascii "f", [], [], [], false, .bigint, names, [.bigint], [⟨.bigint, 1⟩]⟩

/-- Two calls with constants that become the same by a cast. -/
theorem cast_constant_sent :
    let c := withConstant "w" .bigint (literal .integer 1)
    let c' := withConstant "w" .bigint (literal .bigint 1)
    let named := [ascii "x", ascii "y"]
    smallEngine.scalarBind c.context c.info c.args none ⟨some .bigint, false⟩ =
        .ok (boundOne [none, none], ⟨[x], [.bigint]⟩) ∧
      smallEngine.scalarBind c'.context c'.info c'.args (some named) ⟨some .bigint, false⟩ =
        .ok (boundOne (named.map some), ⟨[x], [.bigint]⟩) ∧
      (boundOne [none, none]).equals (boundOne (named.map some)) = true ∧
      (boundOne [none, none]).sent = (boundOne (named.map some)).sent := by
  intro c c' named
  have hb : smallEngine.scalarBind c.context c.info c.args none ⟨some .bigint, false⟩ =
      .ok (boundOne [none, none], ⟨[x], [.bigint]⟩) := by decide +kernel
  have hb' : smallEngine.scalarBind c'.context c'.info c'.args (some named) ⟨some .bigint, false⟩ =
      .ok (boundOne (named.map some), ⟨[x], [.bigint]⟩) := by decide +kernel
  have heq : (boundOne [none, none]).equals (boundOne (named.map some)) = true := by decide +kernel
  have hif := (equals_sent_iff smallEngine c c' (resolved_withConstant ..) (resolved_withConstant ..)).1
    _ _ _ _ _ _ _ _ hb hb'
  refine ⟨hb, hb', heq, hif.2 (fun _ _ => ⟨⟨rfl, rfl⟩, rfl, ?_⟩) heq⟩
  decide +kernel

end SmallExpr

end Vgi
