import Vgi.Catalog.Invalidation

/-!
# `CREATE TABLE AS`

The statement creates the table, looks it up, and passes its input to the insert function of what it has found
(`vgi_schema_entry.cpp`, `vgi_physical_write.cpp`). If the lookup finds nothing it is taken that there was a table of
this name already: the input is thrown away, and the statement succeeds.

The lookup may find nothing for other reasons: another thread has looked the name up before the table was created, and
its absence is remembered (`input_discarded`), or another entry was published meanwhile (`table_lost`).

* `createTableAs_sends`: otherwise all of the input is passed on, if the statement succeeds.
-/

namespace Vgi.Catalog

open Prog Function Option

/-! ## The statement -/

/-- The rows of a chunk of the input. -/
abbrev Chunk := List Bytes

/-- `VgiWriteGlobalState`: whether there is a connection, and what has been written to it. -/
structure WriteGlobalState where
  connection : Bool
  sent : List Chunk := []

inductive SinkResultType
  | needMoreInput
  | finished

section Programs

variable (H : Host) (i : ℕ) (ctx : Context)

/-- `InvokeCatalogTableCreate`. -/
def requestCreate : M Unit :=
  ExceptT.mk (atomic fun g input =>
    match input with
    | .created => some (g, .ok ())
    | .failed => some (g, .error ())
    | _ => none)

/-- A request that does not concern the catalog: it is answered, or there is an exception. -/
def requestWrite : M Unit :=
  ExceptT.mk (atomic fun g input =>
    match input with
    | .locked => some (g, .ok ())
    | .failed => some (g, .error ())
    | _ => none)

/-- `CREATE OR REPLACE` may replace a view. -/
def harvestViews (a : ℕ) (replace : Bool) : Program Unit :=
  if replace then harvestEntries (.inSchema a .view) else pure ()

/-- `VgiSchemaEntry::CreateTable`. What is known of the tables is forgotten before the request is sent. -/
def createTable (a : ℕ) (name : Bytes) (replace : Bool) : M (Option Entry) := do
  harvestEntries (.inSchema a .table)
  markPopulated (.inSchema a .table)
  harvestViews a replace
  requestCreate
  getTable H ctx a name

/-- `VgiPhysicalInsert::GetGlobalSinkState`. -/
def getGlobalSinkState (a : ℕ) (name : Bytes) (replace : Bool) : M WriteGlobalState := do
  match ← createTable H ctx a name replace with
  | none => return { connection := false }
  | some _ => do
    requestWrite
    return { connection := true }

/-- `VgiPhysicalInsert::Sink`. -/
def sink (s : WriteGlobalState) (chunk : Chunk) : M (WriteGlobalState × SinkResultType) :=
  if s.connection then do
    requestWrite
    return ({ s with sent := s.sent ++ [chunk] }, .needMoreInput)
  else return (s, .finished)

/-- The input goes to the sink until it has finished. -/
def sinkAll (s : WriteGlobalState) : List Chunk → M WriteGlobalState
  | [] => return s
  | chunk :: chunks => do
    match ← sink s chunk with
    | (s, .needMoreInput) => sinkAll s chunks
    | (s, .finished) => return s

/-- `VgiPhysicalInsert::Finalize`. -/
def finalize (s : WriteGlobalState) : M Unit := if s.connection then requestWrite else pure ()

/-- The statement. It returns what has been passed on. -/
def createTableAs (a : ℕ) (name : Bytes) (replace : Bool) (input : List Chunk) : M (List Chunk) := do
  let s ← getGlobalSinkState H ctx a name replace
  let s ← sinkAll s input
  finalize s
  return s.sent

end Programs

/-- The statement in a schema, or something else that is done with the catalog. -/
inductive WriteCall
  | createTableAs (ctx : Context) (schema : ℕ) (name : Bytes) (replace : Bool) (input : List Chunk)
  | other (call : CatalogCall)

/-- What is written. -/
def WriteCall.main (H : Host) (i : ℕ) : WriteCall → Program (Except Unit (List Chunk))
  | createTableAs ctx a name replace input => (Catalog.createTableAs H ctx a name replace input).run
  | other call => do
    let r ← call.main H i
    return r.map fun _ => []

def writeThreads (H : Host) := threads (WriteCall.main H)

/-- When the statement looks the table up, its absence is not remembered. The worker answers with the table, and no
    other entry is published before it. -/
abbrev WriteCall.Answered (H : Host) : WriteCall → World → Input → Prop
  | createTableAs _ a name _ _, g, .look _ _ =>
    (H.remembersMissing && (g.sets (.inSchema a .table)).isMissing name) = false
  | createTableAs _ _ _ _ _, _, .fetched _ reply => reply.isSome = true
  | createTableAs _ _ _ _ _, g, .publish X _ preGen => (g.sets X).generation = preGen
  | _, _, _ => True

abbrev answered (H : Host) : Threads.Rule World (WriteCall × Program (Except Unit (List Chunk))) WriteCall Input where
  spawn _ _ := True
  step g _ l input := l.1.Answered H g input

instance (H : Host) (g : World) (call : WriteCall) (input : Input) : Decidable (call.Answered H g input) := by
  rcases call <;> rcases input <;> infer_instance

/-! ## Sets that are not taken to be empty -/

namespace CreateAs

variable {H : Host} {i a : ℕ} {ctx : Context} {X : SetId} {k : EntryKind} {name : Bytes} {g : World}
  {s : EntrySet}

/-- `MarkPopulatedLocked` has been called. -/
def Populated (s : EntrySet) : Prop := s.eagerLoadResolved = true ∧ s.estimatedCount = 1

/-- No set is taken to be empty afterwards that was not before. -/
def Stays (g g' : World) : Prop := ∀ X, Populated (g.sets X) → Populated (g'.sets X)

theorem populated_resolve {threshold : ℤ} {estimate : Option ℤ} (h : Populated s) :
    Populated (s.resolve threshold estimate) := by
  rwa [EntrySet.resolve, if_pos h.1]

theorem populated_createEntry {e : Entry} (h : Populated s) : Populated (s.createEntry e) := by
  rw [EntrySet.createEntry]
  split_ifs <;> exact h

variable {sentAt : ℕ}

theorem populated_foldl (ts : List EntryInfo) (h : Populated s) :
    Populated (ts.foldl (fun s t => s.createEntry (buildEntry t sentAt)) s) := by
  induction ts generalizing s with
  | nil => exact h
  | cons t ts ih => exact ih (populated_createEntry h)

variable {preGen : ℕ}

theorem populated_cacheMissing (h : Populated s) : Populated (s.cacheMissing H name preGen sentAt) := by
  rw [EntrySet.cacheMissing]
  split_ifs <;> exact h

theorem stays_refl (g : World) : Stays g g := fun _ h => h

variable {f : EntrySet → EntrySet}

theorem stays_mapSet (hf : ∀ s, Populated s → Populated (f s)) : Stays g (g.mapSet X f) := by
  intro Y hY
  rcases eq_or_ne Y X with rfl | hne
  · rw [World.sets_mapSet_self]
    exact hf _ hY
  · rwa [World.sets_mapSet_of_ne hne]

theorem stays_resolve : Stays g (g.resolve H X) := by
  rw [World.resolve]
  split_ifs
  exacts [stays_refl g, stays_mapSet fun _ => populated_resolve]

theorem stays_markLoaded (g : World) (began : ℕ) : Stays g (g.markLoaded X began) :=
  stays_mapSet (f := ({ · with isLoaded := true })) fun _ h => h

theorem stays_beginLoad {trust : Bool} : Stays g (beginLoad H X trust g).1 := by
  rw [beginLoad]
  split_ifs
  · intro Y hY
    cases X with
    | schemas => exact stays_markLoaded _ _ Y (stays_resolve Y hY)
    | inSchema a k => exact stays_markLoaded _ _ Y (stays_resolve Y hY)
  · exact stays_resolve

theorem stays_withSchema {info : SchemaInfo} {seed : Option SchemaContents} :
    Stays g (g.withSchema info seed sentAt) := by
  intro Y hY
  rw [World.sets_withSchema]
  exact stays_mapSet (fun _ => populated_createEntry) Y hY

theorem stays_invalidate {scope : Option Bytes} {began : ℕ} (hf : ∀ s, Populated s → Populated (f s)) :
    Stays g (g.invalidate X scope began f) :=
  stays_mapSet (f := fun s => (f s).cover scope began) hf

/-! ## All programs -/

theorem keeps_critical {β : Type} {label : Input} {f : World → World × β} (h : ∀ g, Stays g (f g).1) :
    Keeps Stays (critical label f) := by
  refine keeps_atomic fun g input g' b heq => ?_
  obtain ⟨-, hf⟩ := ite_none_right_eq_some.1 heq
  obtain rfl : (f g).1 = g' := congrArg Prod.fst (some.inj hf)
  exact h g

theorem keeps_requestListing : Keeps Stays requestListing.run := by
  refine keeps_atomic fun g input g' b heq => ?_
  cases input <;> cases heq <;> exact stays_refl g

theorem keeps_requestTable : Keeps Stays (requestTable name).run := by
  refine keeps_atomic fun g input g' b heq => ?_
  cases input <;> dsimp only at heq
  case fetched n reply =>
    obtain ⟨-, hf⟩ := ite_none_right_eq_some.1 heq
    cases hf
    exact stays_refl g
  case failed =>
    cases heq
    exact stays_refl g
  all_goals cases heq

theorem keeps_requestView : Keeps Stays (requestView H i X name).run := by
  refine keeps_atomic fun g input g' b heq => ?_
  cases input <;> dsimp only at heq
  case fetched n reply =>
    obtain ⟨-, hf⟩ := ite_none_right_eq_some.1 heq
    obtain ⟨rfl, -⟩ := Prod.mk.inj (some.inj hf)
    split_ifs
    exacts [stays_mapSet fun _ h => h, stays_refl g]
  case failed =>
    cases heq
    exact stays_refl g
  all_goals cases heq

theorem keeps_requestSchemas : Keeps Stays requestSchemas.run := by
  refine keeps_atomic fun g input g' b heq => ?_
  cases input <;> cases heq <;> exact stays_refl g

theorem keeps_requestContents : Keeps Stays requestContents := by
  refine keeps_atomic fun g input g' b heq => ?_
  cases input <;> cases heq <;> exact stays_refl g

theorem keeps_recheck : Keeps Stays (recheck X name) := keeps_critical stays_refl

theorem keeps_takeEntries : Keeps Stays (takeEntries a k).run := by
  have hcl : Keeps Stays (claimSeed a k) := by
    refine keeps_critical fun g => ?_
    rcases g.hasSeed (.inSchema a k) with _ | _ <;> rcases (g.schemaAt a).seed with _ | seed <;> exact stays_refl _
  refine hcl.lift.bindE fun r => ?_
  rcases r with _ | listing
  exacts [keeps_requestListing, keeps_pure _]

theorem keeps_loadEach (ts : List EntryInfo) : Keeps Stays (loadEach H a k sentAt ts).run := by
  induction ts with
  | nil => exact keeps_pure _
  | cons t ts ih =>
    refine Keeps.bindE ?_ fun _ => ih
    rw [loadEntry]
    split_ifs
    · exact (keeps_critical fun g => stays_mapSet fun _ => populated_createEntry).lift
    · exact keeps_pure _
    · exact keeps_pure _

theorem keeps_forgetEtag : Keeps Stays forgetEtag := keeps_critical stays_refl

theorem keeps_adopt (version : ℤ) : Keeps Stays (adopt version) := by
  rw [adopt]
  split_ifs
  · exact keeps_pure _
  · refine keeps_critical fun g => ?_
    rw [World.adoptVersion]
    split_ifs <;> exact stays_refl g

theorem keeps_fetchContents (n : ℕ) : Keeps Stays (fetchContents n) := by
  have hno : Keeps Stays (do forgetEtag; return none : Program (Option (Contents × ℕ))) :=
    keeps_forgetEtag.bind fun _ => keeps_pure _
  induction n with
  | zero => exact hno
  | succ n ih =>
    refine keeps_requestContents.bind fun r => ?_
    rcases r with _ | reply
    · exact hno
    · refine (keeps_adopt _).bind fun current => ?_
      rcases current with _ | _
      · exact ih
      · exact (keeps_critical stays_refl).bind fun _ => keeps_pure _

theorem keeps_takeCatalogContents : Keeps Stays (takeCatalogContents H ctx) := by
  have hrl : ∀ r reload, Keeps Stays (reloadContents r reload) := by
    intro r reload
    refine Keeps.bind ?_ fun uses => ?_
    · split_ifs
      · rw [reloadUsesCatalogContents]
        split_ifs
        · exact keeps_pure _
        · refine (keeps_critical stays_refl).bind fun version => ?_
          split_ifs
          exacts [keeps_pure _, keeps_critical stays_refl]
      · exact keeps_pure _
    · rcases uses with _ | _
      exacts [keeps_pure _, keeps_fetchContents 2]
  rw [takeCatalogContents]
  rcases H.attachResult with _ | r <;> dsimp only
  · exact keeps_pure _
  split_ifs
  · exact keeps_pure _
  refine (keeps_critical stays_refl).bind fun taken => ?_
  obtain ⟨pending, once⟩ := taken
  rcases ctx.useCatalogContents with _ | _ <;> rcases pending with _ | pending
  · exact keeps_forgetEtag.bind fun _ => keeps_pure _
  · exact keeps_forgetEtag.bind fun _ => keeps_pure _
  · exact hrl r once
  · exact keeps_pure _

theorem keeps_load : Keeps Stays (load H ctx X).run := by
  have hpb : ∀ info seed sentAt, Keeps Stays (publishSchema info seed sentAt) := fun _ _ _ =>
    keeps_critical fun _ => stays_withSchema
  unfold load
  split_ifs
  · cases X with
    | schemas =>
      refine keeps_takeCatalogContents.lift.bindE fun r => ?_
      rcases r with _ | snapshot
      · refine keeps_requestSchemas.bindE fun reply => Keeps.lift ?_
        exact keeps_forEach (fun info => hpb info none reply.2) reply.1
      · refine Keeps.lift ?_
        exact keeps_forEach (fun s : SchemaContents => hpb s.info (some s) snapshot.2) snapshot.1.schemas
    | inSchema a k => exact keeps_takeEntries.bindE fun listing => keeps_loadEach listing.1
  · exact keeps_pure _

theorem keeps_ensureLoaded : Keeps Stays (ensureLoaded H i ctx X).run := by
  have hnd : Keeps Stays (needsLoad H ctx X) := by
    refine keeps_critical fun g => ?_
    split_ifs
    exacts [stays_refl g, stays_beginLoad]
  have hlc : Keeps Stays (lockLoad i X) := by
    refine keeps_atomic fun g input g' b heq => ?_
    obtain ⟨-, hf⟩ := ite_none_right_eq_some.1 heq
    obtain ⟨rfl, -⟩ := Prod.mk.inj (some.inj hf)
    exact stays_mapSet fun _ h => h
  have hlck : Keeps Stays (loadLocked H ctx X).run := by
    refine (keeps_critical stays_refl).lift.bindE fun r => ?_
    rcases r with _ | began
    · exact keeps_pure _
    · exact keeps_load.bindE fun _ => (keeps_critical fun g => stays_markLoaded g began).lift
  refine hnd.lift.bindE fun needed => ?_
  rcases needed with _ | _
  · exact keeps_pure _
  · exact keeps_holding hlc.lift hlck (keeps_critical fun g =>
      stays_mapSet (f := ({ · with loadLock := none })) fun _ h => h)

theorem keeps_scan : Keeps Stays (scan H i ctx X).run :=
  keeps_ensureLoaded.bindE fun _ => (keeps_critical stays_refl).lift

theorem keeps_getSchema : Keeps Stays (getSchema H i ctx name).run := by
  have hlk : Keeps Stays (lookSchema H ctx name) := by
    refine keeps_critical fun g => ?_
    rcases (g.sets .schemas).find name with _ | e
    · have hbg : Stays g (beginLoad H .schemas ctx.trustEmptyKinds g).1 := stays_beginLoad
      generalize beginLoad H .schemas ctx.trustEmptyKinds g = begun at hbg ⊢
      obtain ⟨g', _ | _⟩ := begun <;> exact hbg
    · exact stays_refl g
  refine hlk.lift.bindE fun r => ?_
  rcases r with _ | found
  · exact keeps_ensureLoaded.bindE fun _ => keeps_recheck.lift.bindE fun _ => keeps_pure _
  · exact keeps_pure _

theorem keeps_look : Keeps Stays (look H ctx X name) := by
  refine keeps_critical fun g => ?_
  rw [beginLookup]
  rcases (g.sets X).find name with _ | e
  · split_ifs
    · exact stays_refl g
    · have hbg : Stays g (beginLoad H X ctx.trustEmptyKinds g).1 := stays_beginLoad
      generalize beginLoad H X ctx.trustEmptyKinds g = begun at hbg ⊢
      obtain ⟨g', _ | _⟩ := begun <;> exact hbg
  · exact stays_refl g

theorem keeps_loadTables {began : ℕ} : Keeps Stays (loadTables H a name preGen began).run := by
  have hbl : Keeps Stays (buildAll H a).run := by
    refine keeps_takeEntries.bindE fun listing => ?_
    split_ifs <;> exact keeps_pure _
  refine hbl.bindE fun listing => Keeps.bindE (Keeps.lift ?_) fun _ => keeps_recheck.lift
  refine keeps_critical fun g => ?_
  split_ifs
  · exact fun Y hY => stays_markLoaded _ _ Y (stays_mapSet (fun _ => populated_foldl listing.1) Y hY)
  · exact stays_refl g

theorem keeps_cacheMissing : Keeps Stays (cacheMissing H X name preGen sentAt) :=
  keeps_critical fun _ => stays_mapSet fun _ => populated_cacheMissing

theorem keeps_publishTable {e : Entry} : Keeps Stays (publishTable X name e preGen) := by
  refine keeps_critical fun g => ?_
  split_ifs
  · exact stays_refl g
  · rcases (g.sets X).find name with _ | e' <;> dsimp only
    exacts [stays_mapSet fun _ h => h, stays_refl g]

theorem keeps_fetchTable : Keeps Stays (fetchTable H a name preGen).run := by
  rw [fetchTable]
  split_ifs
  · refine keeps_requestTable.bindE fun r => ?_
    obtain ⟨_ | t, sentAt⟩ := r
    · exact keeps_cacheMissing.lift.bindE fun _ => keeps_pure _
    · dsimp only
      split_ifs
      exacts [keeps_publishTable.lift, keeps_pure _]
  · exact keeps_pure _

theorem keeps_fetchView : Keeps Stays (fetchView H i a name preGen).run := by
  rw [fetchView]
  split_ifs
  · refine keeps_requestView.bindE fun r => ?_
    obtain ⟨_ | t, sentAt⟩ := r
    · exact keeps_cacheMissing.lift.bindE fun _ => keeps_pure _
    dsimp only
    split_ifs
    · refine Keeps.lift (keeps_critical fun g => ?_)
      rcases (g.sets (.inSchema a .view)).find name with _ | e <;> dsimp only <;> exact stays_mapSet fun _ h => h
    · exact keeps_pure _
  · exact keeps_pure _

theorem keeps_getEntry : Keeps Stays (getEntry H i ctx a k name).run := by
  cases k with
  | table =>
    refine keeps_look.lift.bindE fun gl => ?_
    rcases gl with r | ⟨eager, preGen, began⟩
    · exact keeps_pure _
    · refine Keeps.bindE (by split_ifs; exacts [keeps_loadTables, keeps_pure _]) fun r => ?_
      obtain ⟨_ | e, gen⟩ := r
      exacts [keeps_fetchTable, keeps_pure _]
  | view =>
    refine keeps_look.lift.bindE fun gl => ?_
    rcases gl with r | ⟨eager, preGen, began⟩
    · exact keeps_pure _
    have hld : Keeps Stays (loadViews H i ctx a name).run := keeps_ensureLoaded.bindE fun _ => keeps_recheck.lift
    refine Keeps.bindE (by split_ifs; exacts [hld, keeps_pure _]) fun r => ?_
    obtain ⟨_ | e, gen⟩ := r
    exacts [keeps_fetchView, keeps_pure _]

theorem keeps_discardSeed : Keeps Stays (discardSeed X) := by
  refine keeps_critical fun g => ?_
  cases X <;> exact stays_refl g

theorem keeps_removeAll : Keeps Stays (removeAll X) :=
  keeps_discardSeed.bind fun _ => keeps_critical fun _ => stays_invalidate fun _ h => h

theorem keeps_change (op : Change) : Keeps Stays (op.run X) := by
  cases op with
  | harvestEntries => exact keeps_removeAll
  | clearEntries => exact keeps_removeAll
  | harvestEntry n => exact keeps_discardSeed.bind fun _ => keeps_critical fun _ => stays_invalidate fun _ h => h
  | dropEntry n => exact keeps_critical fun g => stays_invalidate (g := g.tick) fun _ h => h

theorem keeps_clearCache (began : Option ℕ) : Keeps Stays (clearCache began) := by
  have hpn : Keeps Stays (clearPending began) := by
    refine keeps_critical fun g => ?_
    rcases began with _ | b <;> exact stays_refl g
  exact hpn.bind fun _ => keeps_critical fun _ => stays_invalidate fun _ h => h

theorem keeps_revalidateContents : Keeps Stays (revalidateContents i) := by
  have hreq : Keeps Stays (requestRevalidation i) := by
    refine keeps_atomic fun g input g' b heq => ?_
    cases input <;> dsimp only at heq
    case contents reply =>
      obtain ⟨rfl, -⟩ := Prod.mk.inj (some.inj heq)
      split_ifs <;> exact stays_refl g
    case failed =>
      cases heq
      exact stays_refl g
    all_goals cases heq
  refine hreq.bind fun r => ?_
  rcases r with _ | reply
  · exact keeps_forgetEtag
  · dsimp only
    split_ifs
    · exact (keeps_adopt _).bind fun _ => keeps_pure _
    · exact (keeps_adopt _).bind fun _ => (keeps_clearCache _).bind fun _ => keeps_critical stays_refl

theorem keeps_inSchema {act : ℕ → M (List (Path × Entry))} (h : ∀ a, Keeps Stays (act a).run) :
    Keeps Stays (inSchema H i ctx name act).run := by
  refine keeps_getSchema.bindE fun r => ?_
  rcases r with _ | e
  exacts [keeps_pure _, h e.address]

theorem keeps_other (call : CatalogCall) : Keeps Stays (WriteCall.main H i (.other call)) := by
  have hrun : Keeps Stays (call.run H i).run := by
    cases call with
    | getSchema ctx name => exact keeps_getSchema.bindE fun _ => keeps_pure _
    | scanSchemas ctx => exact keeps_scan.bindE fun _ => keeps_pure _
    | getEntry ctx schema kind name =>
      rw [CatalogCall.run]
      exact keeps_inSchema fun a => keeps_getEntry.bindE fun _ => keeps_pure _
    | scan ctx schema kind =>
      rw [CatalogCall.run]
      exact keeps_inSchema fun a => keeps_scan.bindE fun _ => keeps_pure _
    | change ctx schema kind op =>
      rw [CatalogCall.run]
      exact keeps_inSchema fun a => (keeps_change op).lift.bindE fun _ => keeps_pure _
    | changeSchemas op => exact (keeps_change op).lift.bindE fun _ => keeps_pure _
    | clearCache => exact (keeps_clearCache none).lift.bindE fun _ => keeps_pure _
    | revalidateContents => exact keeps_revalidateContents.lift.bindE fun _ => keeps_pure _
  have hmn : Keeps Stays (call.main H i) := (keeps_critical stays_refl).bind fun _ => hrun.bind fun _ => keeps_pure _
  exact hmn.bind fun _ => keeps_pure _

/-! ## The statement -/

/-- Nothing is asked of a single step but that sets stay populated. -/
abbrev discipline : Discipline World Input where
  inv _ := True
  guar _ := Stays

theorem stable {p : Prop} : discipline.Stable i fun _ => p := Discipline.stable_const p

section Statement

variable {K : World → Input → Prop}

theorem meets_keeps {β : Type} {p : Program β} (h : Keeps Stays p) :
    Meets (discipline.under K) i (fun _ _ => True) p fun _ => True :=
  h.meets (fun _ => trivial) fun _ _ => id

/-- Whatever a program does that stays in the relation, and may throw. -/
theorem meets_keepsE {β : Type} {p : M β} (h : Keeps Stays p.run) :
    Meets (discipline.under K) i (Outcome (fun _ _ => True) fun _ => True) p.run fun _ => True :=
  (meets_keeps h).post fun r _ _ _ => by rcases r with _ | _ <;> trivial

theorem keeps_requestWrite : Keeps Stays requestWrite.run := by
  refine keeps_atomic fun g input g' b heq => ?_
  cases input <;> cases heq <;> exact stays_refl g

theorem keeps_requestCreate : Keeps Stays requestCreate.run := by
  refine keeps_atomic fun g input g' b heq => ?_
  cases input <;> cases heq <;> exact stays_refl g

/-- All of the input is written to a connection. -/
theorem spec_sinkAll (input : List Chunk) (s : WriteGlobalState) (hs : s.connection = true) :
    Meets (discipline.under K) i (Outcome (fun r _ => r.sent = s.sent ++ input) fun _ => True) (sinkAll s input).run
      fun _ => True := by
  induction input generalizing s with
  | nil => exact meets_return fun _ _ _ => (List.append_nil _).symm
  | cons chunk input ih =>
    have hsn : Meets (discipline.under K) i
        (Outcome (fun r _ => r = ({ s with sent := s.sent ++ [chunk] }, .needMoreInput)) fun _ => True)
        (sink s chunk).run fun _ => True := by
      rw [sink, if_pos hs]
      exact (meets_keepsE keeps_requestWrite).tryE fun _ => meets_return fun _ _ _ => rfl
    refine hsn.tryE fun r => ?_
    refine Meets.pre (meets_of_fact fun hr => ?_) fun _ _ h => ⟨trivial, h⟩
    rw [hr]
    refine (ih { s with sent := s.sent ++ [chunk] } hs).post fun r _ _ h => ?_
    rcases r with _ | r
    · trivial
    · exact h.trans (List.append_assoc ..)

end Statement

variable {replace : Bool} {input : List Chunk}

/-- The table is looked up under the condition of the statement. -/
abbrev under (H : Host) (ctx : Context) (a : ℕ) (name : Bytes) (replace : Bool) (input : List Chunk) :
    Discipline World Input :=
  discipline.under ((WriteCall.createTableAs ctx a name replace input).Answered H)

theorem stable_populated : discipline.Stable i fun g => Populated (g.sets X) := fun _ _ _ _ _ _ hst h => hst X h

/-- The set is not taken to be empty, and the absence of the table is not remembered. -/
theorem spec_look : Meets (under H ctx a name replace input) i (fun gl _ => ∀ r, gl = .known r → r.isSome = true)
    (look H ctx (.inSchema a .table) name) fun g => Populated (g.sets (.inSchema a .table)) := by
  refine meets_critical (fun _ => stable) fun g ha _ hp => ⟨trivial, ?_⟩
  have hms : (H.remembersMissing && (g.sets (.inSchema a .table)).isMissing name) = false := ha.2
  have hst : Stays g (beginLoad H (.inSchema a .table) ctx.trustEmptyKinds g).1 := stays_beginLoad
  have hbp : (g.resolve H (.inSchema a .table)).shouldBypassRpc (.inSchema a .table) ctx.trustEmptyKinds = false := by
    rw [World.shouldBypassRpc, (stays_resolve _ hp).2]
    simp
  rw [beginLookup]
  rcases (g.sets (.inSchema a .table)).find name with _ | e
  · rw [hms, if_neg Bool.false_ne_true]
    rw [beginLoad, hbp, if_neg Bool.false_ne_true] at hst ⊢
    exact ⟨hst, fun r hr => by cases hr⟩
  · refine ⟨stays_refl g, fun r hr => ?_⟩
    obtain rfl := Glance.known.inj hr
    rfl

/-- The worker answers with the table, and it is published. -/
theorem spec_fetchTable (hat : H.attached = true) :
    Meets (under H ctx a name replace input) i (Outcome (fun r _ => r.isSome = true) fun _ => True)
      (fetchTable H a name preGen).run fun _ => True := by
  have hreq : Meets (under H ctx a name replace input) i (Outcome (fun r _ => r.1.isSome = true) fun _ => True)
      (requestTable name).run fun _ => True :=
    meets_requestTable (fun _ => stable) stable stays_refl (fun _ _ ha _ _ => ha.2) fun _ _ _ => trivial
  have hpb : ∀ e, Meets (under H ctx a name replace input) i (fun r _ => r.isSome = true)
      (publishTable (.inSchema a .table) name e preGen) fun _ => True := by
    intro e
    refine meets_critical (fun _ => stable) fun g ha _ _ => ⟨trivial, ?_⟩
    have hgn : (g.sets (.inSchema a .table)).generation = preGen := ha.2
    rw [if_neg (not_not.2 hgn)]
    rcases (g.sets (.inSchema a .table)).find name with _ | e <;> dsimp only
    · exact ⟨stays_mapSet fun _ h => h, rfl⟩
    · exact ⟨stays_refl g, rfl⟩
  rw [fetchTable, if_pos hat]
  refine hreq.tryE fun r => ?_
  obtain ⟨_ | t, sentAt⟩ := r
  · exact meets_of_false _ fun _ h => Bool.false_ne_true h
  · dsimp only
    split_ifs
    · exact ((hpb _).pre fun _ _ _ => trivial).lift fun _ => True
    · exact meets_throw fun _ _ _ => trivial

theorem spec_getTable (hat : H.attached = true) :
    Meets (under H ctx a name replace input) i (Outcome (fun r _ => r.isSome = true) fun _ => True)
      (getTable H ctx a name).run fun g => Populated (g.sets (.inSchema a .table)) := by
  refine spec_look.liftE fun gl => ?_
  rcases gl with r | ⟨eager, preGen, began⟩
  · exact meets_return fun _ _ h => h r rfl
  refine Meets.tryE (R := fun _ _ => True) (E := fun _ => True) ?_ fun r => ?_
  · split_ifs
    · exact (meets_keepsE keeps_loadTables).pre fun _ _ _ => trivial
    · exact meets_return fun _ _ _ => trivial
  · obtain ⟨_ | e, gen⟩ := r
    · exact spec_fetchTable hat
    · exact meets_return fun _ _ _ => rfl

theorem spec_createTable (hat : H.attached = true) :
    Meets (under H ctx a name replace input) i (Outcome (fun r _ => r.isSome = true) fun _ => True)
      (createTable H ctx a name replace).run fun _ => True := by
  have hmr : Meets (under H ctx a name replace input) i (fun _ g => Populated (g.sets (.inSchema a .table)))
      (markPopulated (.inSchema a .table)) fun _ => True := by
    refine meets_critical (fun _ => stable_populated) fun g _ _ _ => ⟨trivial, stays_mapSet fun _ _ => ⟨rfl, rfl⟩, ?_⟩
    rw [World.sets_mapSet_self]
    exact ⟨rfl, rfl⟩
  have hkp : ∀ {β : Type} {p : Program β}, Keeps Stays p → Meets (under H ctx a name replace input) i
      (fun _ g => Populated (g.sets (.inSchema a .table))) p fun g => Populated (g.sets (.inSchema a .table)) := by
    intro β p hp
    induction p with
    | ret b => exact fun _ _ h => h
    | act f k ih => exact ⟨fun _ g => Populated (g.sets (.inSchema a .table)), fun _ => stable_populated,
        fun g input g' b _ _ h heq => ⟨trivial, hp.1 g input g' b heq, hp.1 g input g' b heq _ h⟩,
        fun b => ih b (hp.2 b)⟩
  have hvw : Keeps Stays (harvestViews a replace) := by
    rw [harvestViews]
    split_ifs
    exacts [keeps_removeAll, keeps_pure _]
  refine (meets_keeps (keeps_removeAll (X := .inSchema a .table))).liftE fun _ => ?_
  refine hmr.liftE fun _ => ?_
  refine (hkp hvw).liftE fun _ => ?_
  refine Meets.tryE (E := fun _ => True) ?_ fun _ => spec_getTable hat
  refine (hkp keeps_requestCreate).post fun r _ _ h => ?_
  rcases r with _ | _
  exacts [trivial, h]

theorem spec_createTableAs (hat : H.attached = true) :
    Meets (under H ctx a name replace input) i (Outcome (fun r _ => r = input) fun _ => True)
      (createTableAs H ctx a name replace input).run fun _ => True := by
  have hst : Meets (under H ctx a name replace input) i
      (Outcome (fun s _ => s = { connection := true }) fun _ => True) (getGlobalSinkState H ctx a name replace).run
      fun _ => True := by
    refine (spec_createTable hat).tryE fun r => ?_
    rcases r with _ | e
    · exact meets_of_false _ fun _ h => Bool.false_ne_true h
    · exact ((meets_keepsE keeps_requestWrite).pre fun _ _ _ => trivial).tryE fun _ => meets_return fun _ _ _ => rfl
  refine hst.tryE fun s => ?_
  refine Meets.pre (meets_of_fact fun hs => ?_) fun _ _ h => ⟨trivial, h⟩
  subst hs
  refine (spec_sinkAll input { connection := true } rfl).tryE fun s => ?_
  refine Meets.pre (meets_of_fact fun hs => ?_) fun _ _ h => ⟨trivial, h⟩
  have hfn : Keeps Stays (finalize s).run := by
    rw [finalize]
    split_ifs
    exacts [keeps_requestWrite, keeps_pure _]
  exact (meets_keepsE hfn).tryE fun _ => meets_return fun _ _ _ => hs

/-- What a call returns with. -/
def Sends : WriteCall → Except Unit (List Chunk) → Prop
  | .createTableAs _ _ _ _ input, .ok sent => sent = input
  | _, _ => True

theorem spec_main (hat : H.attached = true) (i : ℕ) (call : WriteCall) :
    Meets (discipline.under (call.Answered H)) i (fun r _ => Sends call r) (call.main H i) fun _ => True := by
  rcases call with ⟨ctx, a, name, replace, input⟩ | call
  · refine (spec_createTableAs hat).post fun r _ _ h => ?_
    rcases r with _ | sent
    exacts [trivial, h]
  · exact (meets_keeps (keeps_other call)).post fun _ _ _ _ => trivial

end CreateAs

/-- In every interleaving of such statements with lookups, listings and invalidations of any kind, from any state: a
    statement that succeeds has passed on all of its input, if its table is not remembered as absent when it is looked
    up, the worker answers with it, and no other entry is published before it. -/
theorem createTableAs_sends {H : Host} (hattached : H.attached = true) {g : World}
    {acts : List (Threads.Act WriteCall Input)}
    {s : Threads.Config World (WriteCall × Program (Except Unit (List Chunk)))}
    (hrule : (writeThreads H).machine.Along (answered H).At ⟨g, []⟩ acts)
    (hrun : (writeThreads H).machine.run ⟨g, []⟩ acts = some s) {i : ℕ} {ctx : Context} {a : ℕ} {name : Bytes}
    {replace : Bool} {input sent : List Chunk}
    (hr : s.locals[i]? = some (.createTableAs ctx a name replace input, .ret (.ok sent))) : sent = input := by
  have hun : (writeThreads H).machine.Along
      (ruleUnder CreateAs.discipline (fun _ => True) fun call => call.Answered H).At ⟨g, []⟩ acts := by
    refine hrule.mono fun {s act} h => ?_
    rcases act with call | ⟨j, input⟩
    exacts [h, fun l hl => ⟨trivial, h l hl⟩]
  exact (run_meets_under (fun i call _ => CreateAs.spec_main hattached i call) trivial hun hrun).2 i _ _ hr

/-! ## A table that is looked up too early -/

def tables : SetId := .inSchema 0 .table

/-- A thread looks for the table `t`, and finds the schema. -/
def findSchema : List (Threads.Act WriteCall Input) :=
  [.spawn (.other (.getEntry {} (ascii "s") .table (ascii "t"))), .step 0 .locked, .step 0 (.look .schemas true),
    .step 0 (.look .schemas true), .step 0 .locked, .step 0 .locked, .step 0 (.schemas [{ name := ascii "s" }]),
    .step 0 .locked, .step 0 .locked, .step 0 .locked, .step 0 .locked]

/-- It is told that there is no such table. -/
def findNothing : List (Threads.Act WriteCall Input) :=
  [.step 0 (.look tables true), .step 0 .locked, .step 0 (.listing []), .step 0 .locked, .step 0 .locked,
    .step 0 (.fetched (ascii "t") none), .step 0 .locked]

/-- The statement creates `t` with one chunk. What is known of the tables is forgotten. -/
def beginCreate : List (Threads.Act WriteCall Input) :=
  [.spawn (.createTableAs {} 0 (ascii "t") false [[ascii "row"]]), .step 1 .locked, .step 1 (.invalidate tables),
    .step 1 .locked]

/-- The table is created, and looked up. -/
def create : List (Threads.Act WriteCall Input) := [.step 1 .created, .step 1 (.look tables true)]

/-- The table is found, and the input is written. -/
def write : List (Threads.Act WriteCall Input) :=
  [.step 1 .locked, .step 1 (.listing [{ name := ascii "t" }]), .step 1 .locked, .step 1 .locked, .step 1 .locked,
    .step 1 .locked, .step 1 .locked]

theorem createTableAs_sends_row : ∃ s sent, (writeThreads listing).machine.run ⟨{}, []⟩
      (findSchema ++ findNothing ++ beginCreate ++ create ++ write) = some s ∧
    s.locals[1]? = some (.createTableAs {} 0 (ascii "t") false [[ascii "row"]], .ret (.ok sent)) ∧
    sent = [[ascii "row"]] := by
  have hrl : (writeThreads listing).machine.Along (answered listing).At ⟨{}, []⟩
      (findSchema ++ findNothing ++ beginCreate ++ create ++ write) := by decide +kernel
  exact ⟨_, _, rfl, rfl, createTableAs_sends rfl hrl rfl (i := 1) rfl⟩

/-- The other thread is told before the table is created, and its absence is remembered. The statement succeeds, and
    has written nothing. -/
theorem input_discarded : ∃ s, (writeThreads listing).machine.run ⟨{}, []⟩
      (findSchema ++ beginCreate ++ findNothing ++ create) = some s ∧
    s.locals[1]? = some (.createTableAs {} 0 (ascii "t") false [[ascii "row"]], .ret (.ok [])) :=
  ⟨_, rfl, rfl⟩

end Vgi.Catalog
