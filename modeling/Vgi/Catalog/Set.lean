import Vgi.Lib.Prog
import Vgi.Lib.Text

/-!
# The catalog sets

A catalog has a set of schemas, and each schema entry has a set of tables and one of views. A set is a cache of what
the worker has: it is filled by a load of the whole listing or by lookups of single names, and emptied by the
statements that change the catalog. This is what `vgi_catalog_set.cpp` and the sets derived from it do, as programs
of atomic actions: the sections under a lock and the requests to the worker. A request and its reply are one action.

The programs run side by side. What is decided elsewhere is the input of an action: the reply of the worker, and, for
the sections that later conditions are about, which section it is.

Some of the state is not in the source, and no program depends on it: a clock that counts the invalidations that have
begun, the time at which the request was sent that an entry was built from, and the times at which the entries of a
set were last invalidated.
-/

namespace Vgi.Catalog

open Prog Function

/-! ## What the worker sends -/

/-- The sets that a schema entry has. -/
inductive EntryKind
  | table
  | view
  deriving DecidableEq

/-- `VgiTableInfo` or `VgiViewInfo`. -/
structure EntryInfo where
  name : Bytes
  definition : Bytes := []
  deriving DecidableEq

/-- `VgiSchemaInfo`. -/
structure SchemaInfo where
  name : Bytes := []
  estimatedTables : ℤ := 1
  estimatedViews : ℤ := 1
  deriving DecidableEq

def SchemaInfo.estimatedCount (info : SchemaInfo) : EntryKind → ℤ
  | .table => info.estimatedTables
  | .view => info.estimatedViews

/-- `VgiSchemaContents`. -/
structure SchemaContents where
  info : SchemaInfo
  tables : List EntryInfo := []
  views : List EntryInfo := []
  deriving DecidableEq

def SchemaContents.entries (c : SchemaContents) : EntryKind → List EntryInfo
  | .table => c.tables
  | .view => c.views

/-- `VgiCatalogContents`. -/
structure Contents where
  schemas : List SchemaContents := []
  catalogVersion : ℤ := 0
  etag : Option Bytes := none
  notModified : Bool := false
  deriving DecidableEq

/-! ## The state -/

/-- The schemas of the catalog, or what is in the schema entry at an address. -/
inductive SetId
  | schemas
  | inSchema (address : ℕ) (kind : EntryKind)
  deriving DecidableEq

/-- A catalog entry. A schema entry has an address, by which its own sets are found. -/
structure Entry where
  name : Bytes
  definition : Bytes := []
  address : ℕ := 0
  /-- When the request was sent that it was built from. -/
  sentAt : ℕ
  deriving DecidableEq

/-- `VgiCatalogSet`. The names are in lower case. -/
structure EntrySet where
  entries : List (Bytes × Entry) := []
  /-- The names that the worker does not have, with the time of the request. -/
  missing : List (Bytes × ℕ) := []
  isLoaded : Bool := false
  generation : ℕ := 0
  /-- The thread that has `load_lock_`. -/
  loadLock : Option ℕ := none
  estimatedCount : ℤ := 1
  threshold : ℤ := 1000
  eagerLoadResolved : Bool := false
  /-- The threads that have a reply, and will publish it whatever has happened to the set. -/
  fetching : List ℕ := []
  /-- When the invalidation began that was the last one for a name, and the last one at all. -/
  since : Bytes → ℕ := fun _ => 0
  invalidatedAt : ℕ := 0

/-- `VgiSchemaEntry`, but for its sets. -/
structure SchemaEntry where
  info : SchemaInfo := {}
  seed : Option SchemaContents := none
  seedTaken : List EntryKind := []
  sentAt : ℕ := 0

/-- What a lookup leads to: a schema, or something in a schema. -/
structure Path where
  schema : Bytes
  entry : Option (EntryKind × Bytes)
  deriving DecidableEq

/-- A set has been marked as loaded, by a load that began then. -/
structure Mark where
  began : ℕ
  invalidatedAt : ℕ
  deriving DecidableEq

/-- `VgiCatalog` with all its sets. -/
structure World where
  sets : SetId → EntrySet := fun _ => {}
  schemaAt : ℕ → SchemaEntry := fun _ => {}
  nextAddress : ℕ := 0
  /-- `pending_contents_`, with the time of the request. -/
  pending : Option (Contents × ℕ) := none
  contentsLoadedOnce : Bool := false
  contentsEtag : Option Bytes := none
  knownVersion : ℤ := 0
  /-- The number of invalidations that have begun. -/
  clock : ℕ := 0
  /-- When the last invalidation began that covers what is at a path, and has come to its end. -/
  floor : Path → ℕ := fun _ => 0
  /-- The threads that have a new snapshot, which they will hand over to the next load, and when they asked for it. -/
  revalidating : List (ℕ × ℕ) := []
  marks : List Mark := []

/-- What is decided elsewhere: which of the sections this is, or the reply of the worker. -/
inductive Input
  | locked
  /-- Whether a set is to be loaded. It may be taken to be empty. -/
  | look (X : SetId) (trustEmptyKinds : Bool)
  /-- An entry of this name that was fetched is published. -/
  | publish (X : SetId) (name : Bytes) (preGen : ℕ)
  | invalidate (X : SetId)
  /-- The two sections of `ClearCache`. -/
  | clearPending
  | clear
  | listing (reply : List EntryInfo)
  | fetched (name : Bytes) (reply : Option EntryInfo)
  | schemas (reply : List SchemaInfo)
  | contents (reply : Contents)
  | created
  /-- There is no reply, but an error. -/
  | failed
  deriving DecidableEq

abbrev Program := Prog World Input

/-- A program that may end with an exception. -/
abbrev M := ExceptT Unit Program

/-- `CatalogAttachResult`. -/
structure AttachResult where
  supportsTransactions : Bool := false
  supportsCatalogContents : Bool := true
  catalogVersionFrozen : Bool := false

/-- What does not change: how the catalog was attached, and how entries are built. -/
structure Host where
  attachParameters : Bool := true
  attachResult : Option AttachResult := some {}
  thresholds : EntryKind → ℤ := fun _ => 1000
  /-- A table entry can be built, and there is no exception. -/
  readable : EntryInfo → Bool := fun _ => true
  /-- The definition of a view is a `SELECT` statement. -/
  parses : EntryInfo → Bool := fun _ => true

/-- The settings and the transaction of the statement. -/
structure Context where
  trustEmptyKinds : Bool := true
  useCatalogContents : Bool := true
  inTransaction : Bool := false

/-- A section under a lock. -/
def critical {β : Type} (label : Input) (f : World → World × β) : Program β :=
  atomic fun g input => if input = label then some (f g) else none

namespace Host

variable (H : Host)

def attached : Bool := H.attachParameters && H.attachResult.isSome

def buildable : EntryKind → EntryInfo → Bool
  | .table => H.readable
  | .view => H.parses

/-- The threshold that is given for schemas does not matter. -/
def threshold : SetId → ℤ
  | .schemas => 1
  | .inSchema _ k => H.thresholds k

/-- Absence is remembered only if it cannot be that of one transaction. -/
def remembersMissing : Bool := H.attachResult.any fun r => !r.supportsTransactions

end Host

/-! ## One set -/

namespace EntrySet

variable (s : EntrySet)

def find (name : Bytes) : Option Entry := s.entries.lookup (lower name)

def isMissing (name : Bytes) : Bool := s.missing.any fun m => m.1 = lower name

/-- `ResolveEagerLoadParamsLocked`: the set of schemas has no estimate. -/
def resolve (threshold : ℤ) (estimate : Option ℤ) : EntrySet :=
  if s.eagerLoadResolved then s
  else { s with threshold, estimatedCount := estimate.getD s.estimatedCount, eagerLoadResolved := true }

def insert (key : Bytes) (e : Entry) : EntrySet :=
  { s with
    missing := s.missing.filter fun m => m.1 ≠ key
    entries := (key, e) :: s.entries
    generation := s.generation + 1 }

/-- `CreateEntryLocked`: an entry that is there is not replaced. -/
def createEntry (e : Entry) : EntrySet :=
  if (s.find e.name).isSome then { s with missing := s.missing.filter fun m => m.1 ≠ lower e.name }
  else s.insert (lower e.name) e

def maxMissingEntries : ℕ := 1024

/-- `CacheMissingEntryLocked`. -/
def cacheMissing (H : Host) (name : Bytes) (expectedGeneration sentAt : ℕ) : EntrySet :=
  if !H.remembersMissing || s.generation ≠ expectedGeneration || (s.find name).isSome then s
  else if maxMissingEntries ≤ s.missing.length then { s with missing := [(lower name, sentAt)] }
  else { s with missing := (lower name, sentAt) :: s.missing.filter fun m => m.1 ≠ lower name }

/-- `MarkPopulatedLocked`. -/
def markPopulated : EntrySet := { s with estimatedCount := 1, eagerLoadResolved := true }

/-- What an invalidation that began then leaves of the times, for a name or for all. -/
def cover (scope : Option Bytes) (began : ℕ) : EntrySet :=
  { s with
    since := fun n => if scope.all (· = n) then max (s.since n) began else s.since n
    invalidatedAt := max s.invalidatedAt began }

/-- `HarvestEntries` and `ClearEntries`, under the lock. -/
def clear : EntrySet :=
  { s with entries := [], missing := [], isLoaded := false, generation := s.generation + 1 }

/-- `DropEntry`, under the lock. -/
def drop (name : Bytes) : EntrySet :=
  { s with
    entries := s.entries.filter fun x => x.1 ≠ lower name
    missing := []
    generation := s.generation + 1 }

/-- `HarvestEntry`, under the lock. -/
def harvest (name : Bytes) : EntrySet := { s.drop name with isLoaded := false }

end EntrySet

def SchemaEntry.take (k : EntryKind) (e : SchemaEntry) : SchemaEntry := { e with seedTaken := k :: e.seedTaken }

/-! ## The sections -/

namespace World

variable (H : Host) (X : SetId) (g : World)

def mapSet (f : EntrySet → EntrySet) : World := { g with sets := update g.sets X (f (g.sets X)) }

def hasSeed : Bool :=
  match X with
  | .schemas => false
  | .inSchema a k => (g.schemaAt a).seed.isSome && decide (k ∉ (g.schemaAt a).seedTaken)

/-- The seed is not there any more for entries of this kind. -/
def takeSeed (a : ℕ) (k : EntryKind) : World :=
  { g with schemaAt := update g.schemaAt a ((g.schemaAt a).take k) }

/-- A new schema entry, published if there is none of this name. -/
def withSchema (info : SchemaInfo) (seed : Option SchemaContents) (sentAt : ℕ) : World :=
  { g.mapSet .schemas (·.createEntry { name := info.name, address := g.nextAddress, sentAt }) with
    schemaAt := update g.schemaAt g.nextAddress { info, seed, sentAt }
    nextAddress := g.nextAddress + 1 }

/-- The count that the schema of a set was sent with. -/
def estimate : Option ℤ :=
  match X with
  | .schemas => none
  | .inSchema a k => some ((g.schemaAt a).info.estimatedCount k)

/-- The parameters are resolved if they matter. -/
def resolve : World :=
  if (g.sets X).isLoaded || g.hasSeed X then g
  else g.mapSet X (·.resolve (H.threshold X) (g.estimate X))

/-- `ShouldBypassRpcLocked`, the parameters being resolved. -/
def shouldBypassRpc (trustEmptyKinds : Bool) : Bool :=
  !(g.sets X).isLoaded && !g.hasSeed X && decide ((g.sets X).estimatedCount = 0) && trustEmptyKinds

/-- `ShouldEagerLoadLocked`, the parameters being resolved. -/
def shouldEagerLoad : Bool :=
  !(g.sets X).isLoaded && (g.hasSeed X || decide ((g.sets X).estimatedCount ≤ (g.sets X).threshold))

/-- The set is marked as loaded, by a load that began then. -/
def markLoaded (began : ℕ) : World :=
  { g.mapSet X ({ · with isLoaded := true }) with marks := ⟨began, (g.sets X).invalidatedAt⟩ :: g.marks }

/-- The set is taken to be empty, as the count was zero when the schema was sent. -/
def markEmpty : World :=
  match X with
  | .schemas => g.markLoaded X 0
  | .inSchema a _ => g.markLoaded X (g.schemaAt a).sentAt

/-- An invalidation of the set covers what is at the path. -/
def covers (scope : Option Bytes) (p : Path) : Bool :=
  match X with
  | .schemas => scope.all (· = p.schema)
  | .inSchema a k => decide (p.schema = lower (g.schemaAt a).info.name) &&
      p.entry.any fun x => decide (x.1 = k) && scope.all (· = x.2)

/-- An invalidation comes to its end. -/
def invalidate (scope : Option Bytes) (began : ℕ) (f : EntrySet → EntrySet) : World :=
  { g.mapSet X (fun s => (f s).cover scope began) with
    floor := fun p => if g.covers X scope p then max (g.floor p) began else g.floor p }

/-- An invalidation begins. -/
def tick : World := { g with clock := g.clock + 1 }

end World

/-- What is known when a lookup begins. -/
inductive Glance
  /-- The entry, or that there is none. -/
  | known (r : Option Entry)
  /-- It has to be fetched. -/
  | unknown (eager : Bool) (preGen began : ℕ)

/-- What a load of the set begins with. -/
def beginLoad (H : Host) (X : SetId) (trustEmptyKinds : Bool) (g : World) : World × Bool :=
  if (g.resolve H X).shouldBypassRpc X trustEmptyKinds then ((g.resolve H X).markEmpty X, false)
  else (g.resolve H X, true)

/-- What a lookup in a set of tables or views begins with. -/
def beginLookup (H : Host) (X : SetId) (name : Bytes) (trustEmptyKinds : Bool) (g : World) : World × Glance :=
  match (g.sets X).find name with
  | some e => (g, .known (some e))
  | none =>
    if H.remembersMissing && (g.sets X).isMissing name then (g, .known none)
    else
      match beginLoad H X trustEmptyKinds g with
      | (g, false) => (g, .known none)
      | (g, true) => (g, .unknown (g.shouldEagerLoad X) (g.sets X).generation g.clock)

section Programs

variable (H : Host) (i : ℕ) (ctx : Context) (X : SetId) (name : Bytes) (a : ℕ)

def look : Program Glance :=
  critical (.look X ctx.trustEmptyKinds) (beginLookup H X name ctx.trustEmptyKinds)

/-- What is there now, or the generation. -/
def recheck : Program (Option Entry × ℕ) :=
  critical .locked fun g => (g, (g.sets X).find name, (g.sets X).generation)

/-! ## Requests -/

/-- `InvokeCatalogSchemaContentsTables` or `InvokeCatalogSchemaContentsViews`. -/
def requestListing : M (List EntryInfo × ℕ) :=
  ExceptT.mk (atomic fun g input =>
    match input with
    | .listing reply => some (g, .ok (reply, g.clock))
    | .failed => some (g, .error ())
    | _ => none)

/-- `InvokeCatalogTableGet`. -/
def requestTable : M (Option EntryInfo × ℕ) :=
  ExceptT.mk (atomic fun g input =>
    match input with
    | .fetched n reply => if n = name then some (g, .ok (reply, g.clock)) else none
    | .failed => some (g, .error ())
    | _ => none)

/-- `InvokeCatalogViewGet`. From now on the view, if it can be built, is about to be published. -/
def requestView : M (Option EntryInfo × ℕ) :=
  ExceptT.mk (atomic fun g input =>
    match input with
    | .fetched n reply =>
      if n = name then
        some (if reply.any H.parses then g.mapSet X fun s => { s with fetching := i :: s.fetching } else g,
          .ok (reply, g.clock))
      else none
    | .failed => some (g, .error ())
    | _ => none)

/-- `InvokeCatalogSchemas`. -/
def requestSchemas : M (List SchemaInfo × ℕ) :=
  ExceptT.mk (atomic fun g input =>
    match input with
    | .schemas reply => some (g, .ok (reply, g.clock))
    | .failed => some (g, .error ())
    | _ => none)

/-- `InvokeCatalogContents`. An exception is caught where it is called. -/
def requestContents : Program (Option (Contents × ℕ)) :=
  atomic fun g input =>
    match input with
    | .contents reply => some (g, some (reply, g.clock))
    | .failed => some (g, none)
    | _ => none

/-! ## Listings -/

/-- `ClaimSeed`, and what is in it. -/
def claimSeed (k : EntryKind) : Program (Option (List EntryInfo × ℕ)) :=
  critical .locked fun g =>
    match g.hasSeed (.inSchema a k), (g.schemaAt a).seed with
    | true, some seed => (g.takeSeed a k, some (seed.entries k, (g.schemaAt a).sentAt))
    | _, _ => (g, none)

/-- `TakeTables` or `TakeViews`. -/
def takeEntries (k : EntryKind) : M (List EntryInfo × ℕ) := do
  match ← claimSeed a k with
  | some seed => return seed
  | none => requestListing

def buildEntry (t : EntryInfo) (sentAt : ℕ) : Entry := { name := t.name, definition := t.definition, sentAt }

def createEntry (e : Entry) : Program Unit := critical .locked fun g => (g.mapSet X (·.createEntry e), ())

/-- A table that cannot be built is an exception, a view that cannot is left out. -/
def loadEntry (k : EntryKind) (sentAt : ℕ) (t : EntryInfo) : M Unit :=
  if H.buildable k t then createEntry (.inSchema a k) (buildEntry t sentAt)
  else if k = .table then throw () else pure ()

def loadEach (a : ℕ) (k : EntryKind) (sentAt : ℕ) : List EntryInfo → M Unit
  | [] => pure ()
  | t :: ts => do
    loadEntry H a k sentAt t
    loadEach a k sentAt ts

/-- `LoadEntries` of the tables or the views. -/
def loadEntries (k : EntryKind) : M Unit := do
  let listing ← takeEntries a k
  loadEach H a k listing.2 listing.1

/-! ## The schemas -/

/-- A schema entry is built and published. -/
def publishSchema (info : SchemaInfo) (seed : Option SchemaContents) (sentAt : ℕ) : Program Unit :=
  critical .locked fun g => (g.withSchema info seed sentAt, ())

def forgetEtag : Program Unit := critical .locked fun g => ({ g with contentsEtag := none }, ())

/-- The loop of `AdoptCatalogVersion`, which ends with one comparison. -/
def World.adoptVersion (version : ℤ) (g : World) : World × Bool :=
  if g.knownVersion ≤ version then ({ g with knownVersion := version }, true) else (g, false)

def adoptCatalogVersion (version : ℤ) : Program Bool := critical .locked (World.adoptVersion version)

/-- Zero is a version that is not known. -/
def adopt (version : ℤ) : Program Bool := if version = 0 then pure true else adoptCatalogVersion version

def knownCatalogVersion : Program ℤ := critical .locked fun g => (g, g.knownVersion)

def hasEtag : Program Bool := critical .locked fun g => (g, g.contentsEtag.isSome)

/-- `ReloadUsesCatalogContents`. -/
def reloadUsesCatalogContents (r : AttachResult) : Program Bool :=
  if r.catalogVersionFrozen then pure true
  else do
    let version ← knownCatalogVersion
    if version ≠ 0 then return true else hasEtag

/-- A snapshot that is older than what is known is asked for once more. -/
def fetchContents : ℕ → Program (Option (Contents × ℕ))
  | 0 => do
    forgetEtag
    return none
  | n + 1 => do
    match ← requestContents with
    | none => do
      forgetEtag
      return none
    | some c => do
      match ← adopt c.1.catalogVersion with
      | true => do
        critical .locked fun g => ({ g with contentsEtag := c.1.etag }, ())
        return some c
      | false => fetchContents n

def takePending : Program (Option (Contents × ℕ) × Bool) :=
  critical .locked fun g => ({ g with pending := none, contentsLoadedOnce := true }, g.pending, g.contentsLoadedOnce)

/-- A reload without a version and an etag goes by the schemas. -/
def reloadContents (r : AttachResult) (reload : Bool) : Program (Option (Contents × ℕ)) := do
  match ← (if reload then reloadUsesCatalogContents r else pure true) with
  | true => fetchContents 2
  | false => return none

/-- `TakeCatalogContents`. -/
def takeCatalogContents : Program (Option (Contents × ℕ)) :=
  match H.attachResult with
  | none => pure none
  | some r =>
    if (ctx.inTransaction && !r.catalogVersionFrozen) || !r.supportsCatalogContents then pure none
    else do
      let taken ← takePending
      match ctx.useCatalogContents, taken.1 with
      | false, _ => do
        forgetEtag
        return none
      | true, some pending => return some pending
      | true, none => reloadContents r taken.2

/-- `LoadEntries` of the schemas. -/
def loadSchemas : M Unit := do
  match ← takeCatalogContents H ctx with
  | some c => forEach c.1.schemas fun schema => publishSchema schema.info (some schema) c.2
  | none => do
    let reply ← requestSchemas
    ExceptT.lift (forEach reply.1 fun info => publishSchema info none reply.2)

/-! ## Loads -/

/-- Nothing is loaded if the catalog is not attached. -/
def load : M Unit :=
  if H.attached then
    match X with
    | .schemas => loadSchemas H ctx
    | .inSchema a k => loadEntries H a k
  else pure ()

def lockLoad : Program Unit :=
  atomic fun g input =>
    if input = .locked ∧ (g.sets X).loadLock = none then some (g.mapSet X ({ · with loadLock := some i }), ())
    else none

def unlockLoad : Program Unit := critical .locked fun g => (g.mapSet X ({ · with loadLock := none }), ())

/-- Whether another thread has loaded the set meanwhile, or the time at which this load begins. -/
def recheckLoaded : Program (Option ℕ) :=
  critical .locked fun g => (g, if (g.sets X).isLoaded then none else some g.clock)

def finishLoad (began : ℕ) : Program Unit := critical .locked fun g => (g.markLoaded X began, ())

/-- `load_lock_` is held. -/
def loadLocked : M Unit := do
  match ← recheckLoaded X with
  | none => return ()
  | some began => do
    load H ctx X
    finishLoad X began

/-- The first section of `EnsureLoaded`. -/
def needsLoad : Program Bool :=
  critical (.look X ctx.trustEmptyKinds) fun g =>
    if (g.sets X).isLoaded then (g, false) else beginLoad H X ctx.trustEmptyKinds g

/-- `EnsureLoaded`. -/
def ensureLoaded : M Unit := do
  match ← needsLoad H ctx X with
  | false => return ()
  | true => holding (lockLoad i X) (unlockLoad X) (loadLocked H ctx X)

def listed : Program (List (Bytes × Entry)) := critical .locked fun g => (g, (g.sets X).entries)

/-- `Scan`: the entries with their names. -/
def scan : M (List (Bytes × Entry)) := do
  ensureLoaded H i ctx X
  listed X

/-! ## Lookups -/

/-- The first section of `VgiCatalogSet::GetEntry`. -/
def lookSchema : Program (Option (Option Entry)) :=
  critical (.look .schemas ctx.trustEmptyKinds) fun g =>
    match (g.sets .schemas).find name with
    | some e => (g, some (some e))
    | none =>
      match beginLoad H .schemas ctx.trustEmptyKinds g with
      | (g, false) => (g, some none)
      | (g, true) => (g, none)

/-- `VgiCatalogSet::GetEntry`, for the schemas. -/
def getSchema : M (Option Entry) := do
  match ← lookSchema H ctx name with
  | some r => return r
  | none => do
    ensureLoaded H i ctx .schemas
    let found ← recheck .schemas name
    return found.1

/-- All tables of the listing are built before the first is published. -/
def buildAll : M (List EntryInfo × ℕ) := do
  let listing ← takeEntries a .table
  if listing.1.all H.readable then return listing else throw ()

/-- The listing is published, if nothing has happened to the set. -/
def publishAll (listing : List EntryInfo × ℕ) (preGen began : ℕ) : Program Unit :=
  critical .locked fun g =>
    if (g.sets X).generation = preGen && !(g.sets X).isLoaded then
      ((g.mapSet X fun s => listing.1.foldl (fun s t => s.createEntry (buildEntry t listing.2)) s).markLoaded X began,
        ())
    else (g, ())

variable (name : Bytes)

/-- The bulk path of `VgiTableSet::GetEntry`: what is found then, or the generation. -/
def loadTables (preGen began : ℕ) : M (Option Entry × ℕ) := do
  let listing ← buildAll H a
  publishAll (.inSchema a .table) listing preGen began
  recheck (.inSchema a .table) name

def publishTable (e : Entry) (preGen : ℕ) : Program (Option Entry) :=
  critical (.publish X name preGen) fun g =>
    if (g.sets X).generation ≠ preGen then (g, none)
    else
      match (g.sets X).find name with
      | some e => (g, some e)
      | none => (g.mapSet X (·.insert (lower name) e), some e)

def cacheMissing (preGen sentAt : ℕ) : Program Unit :=
  critical .locked fun g => (g.mapSet X (·.cacheMissing H name preGen sentAt), ())

/-- A single table is fetched. -/
def fetchTable (preGen : ℕ) : M (Option Entry) :=
  if H.attached then do
    match ← requestTable name with
    | (none, sentAt) => do
      cacheMissing H (.inSchema a .table) name preGen sentAt
      return none
    | (some t, sentAt) =>
      if H.readable t then publishTable (.inSchema a .table) name (buildEntry t sentAt) preGen else throw ()
  else pure none

/-- `VgiTableSet::GetEntry`. -/
def getTable : M (Option Entry) := do
  match ← look H ctx (.inSchema a .table) name with
  | .known r => return r
  | .unknown eager preGen began =>
    match ← (if eager && H.attached then loadTables H a name preGen began else pure (none, preGen)) with
    | (some e, _) => return some e
    | (none, preGen) => fetchTable H a name preGen

/-- A view is published whatever has happened since it was asked for. -/
def publishView (e : Entry) : Program (Option Entry) :=
  critical .locked fun g =>
    match (g.sets X).find name with
    | some e => (g.mapSet X fun s =>
        { s with missing := s.missing.filter (fun m => m.1 ≠ lower name), fetching := s.fetching.erase i }, some e)
    | none => (g.mapSet X fun s => { s.insert (lower name) e with fetching := s.fetching.erase i }, some e)

/-- A single view is fetched. -/
def fetchView (preGen : ℕ) : M (Option Entry) :=
  if H.attached then do
    match ← requestView H i (.inSchema a .view) name with
    | (none, sentAt) => do
      cacheMissing H (.inSchema a .view) name preGen sentAt
      return none
    | (some t, sentAt) =>
      if H.parses t then publishView i (.inSchema a .view) name (buildEntry t sentAt) else return none
  else pure none

/-- `EnsureLoaded`, and what is found then, or the generation. -/
def loadViews : M (Option Entry × ℕ) := do
  ensureLoaded H i ctx (.inSchema a .view)
  recheck (.inSchema a .view) name

/-- `VgiViewSet::GetEntry`. -/
def getView : M (Option Entry) := do
  match ← look H ctx (.inSchema a .view) name with
  | .known r => return r
  | .unknown eager preGen _ =>
    match ← (if eager then loadViews H i ctx a name else pure (none, preGen)) with
    | (some e, _) => return some e
    | (none, preGen) => fetchView H i a name preGen

def getEntry : EntryKind → Bytes → M (Option Entry)
  | .table => getTable H ctx a
  | .view => getView H i ctx a

/-! ## Invalidations -/

/-- `DiscardSeed`, with which an invalidation begins. The set of schemas has no seed. -/
def discardSeed : Program ℕ :=
  critical .locked fun g =>
    match X with
    | .schemas => (g.tick, g.clock + 1)
    | .inSchema a k => (g.tick.takeSeed a k, g.clock + 1)

/-- All entries are removed. -/
def removeAll : Program Unit := do
  let began ← discardSeed X
  critical (.invalidate X) fun g => (g.invalidate X none began (·.clear), ())

def harvestEntries : Program Unit := removeAll X

def clearEntries : Program Unit := removeAll X

def harvestEntry : Program Unit := do
  let began ← discardSeed X
  critical (.invalidate X) fun g => (g.invalidate X (some (lower name)) began (·.harvest name), ())

/-- `DropEntry`: neither is the seed discarded nor is a load asked for. -/
def dropEntry : Program Unit :=
  critical (.invalidate X) fun g =>
    (g.tick.invalidate X (some (lower name)) (g.clock + 1) (·.drop name), ())

/-- `MarkPopulatedLocked`. -/
def markPopulated : Program Unit := critical .locked fun g => (g.mapSet X (·.markPopulated), ())

/-- The first section of `ClearCache`. A revalidation begins when it sends its request. -/
def clearPending (began : Option ℕ) : Program ℕ :=
  critical .clearPending fun g =>
    match began with
    | some b => ({ g with pending := none }, b)
    | none => ({ g.tick with pending := none }, g.clock + 1)

/-- `ClearCache`. -/
def clearCache (began : Option ℕ) : Program Unit := do
  let began ← clearPending began
  critical .clear fun g => (g.invalidate .schemas none began (·.clear), ())

/-- The request of `RevalidateContents`. From now on a snapshot that is not the same is about to be handed over. -/
def requestRevalidation : Program (Option (Contents × ℕ)) :=
  atomic fun g input =>
    match input with
    | .contents reply =>
      some (if reply.notModified then g else { g with revalidating := (i, g.clock) :: g.revalidating },
        some (reply, g.clock))
    | .failed => some (g, none)
    | _ => none

/-- The snapshot is for the next load, unless it is older than what is known. -/
def handOver (c : Contents × ℕ) (current : Bool) : Program Unit :=
  critical .locked fun g =>
    ({ g with
        contentsEtag := if current then c.1.etag else none
        pending := if current then some c else g.pending
        revalidating := g.revalidating.erase (i, c.2) }, ())

/-- `RevalidateContents`. -/
def revalidateContents : Program Unit := do
  match ← requestRevalidation i with
  | none => forgetEtag
  | some c =>
    if c.1.notModified then do
      let _ ← adopt c.1.catalogVersion
      return ()
    else do
      let current ← adopt c.1.catalogVersion
      clearCache (some c.2)
      handOver i c current

end Programs

/-! ## Rules for the actions -/

section Rules

variable {D : Discipline World Input} {i : ℕ} {P E : World → Prop} {β : Type}

theorem meets_critical {label : Input} {f : World → World × β} {Q : β → World → Prop} (hQ : ∀ b, D.Stable i (Q b))
    (h : ∀ g, D.allowed i g label → D.inv g → P g → D.inv (f g).1 ∧ D.guar i g (f g).1 ∧ Q (f g).2 (f g).1) :
    Meets D i Q (critical label f) P := by
  refine meets_allowed hQ fun g input g' b ha hg hp heq => ?_
  obtain ⟨rfl, hf⟩ := Option.ite_none_right_eq_some.1 heq
  obtain ⟨rfl, rfl⟩ := Prod.mk.inj (Option.some.inj hf)
  exact h g ha hg hp

theorem meets_requestListing {R : List EntryInfo × ℕ → World → Prop} (hR : ∀ r, D.Stable i (R r)) (hE : D.Stable i E)
    (hgr : ∀ g, D.guar i g g)
    (hok : ∀ g reply, D.allowed i g (.listing reply) → D.inv g → P g → R (reply, g.clock) g)
    (hfl : ∀ g, D.inv g → P g → E g) : Meets D i (Outcome R E) requestListing.run P := by
  refine meets_allowed (fun r => ?_) fun g input g' r ha hg hp heq => ?_
  · rcases r with e | r
    exacts [hE, hR r]
  cases input with
  | listing reply =>
    cases heq
    exact ⟨hg, hgr g, hok g reply ha hg hp⟩
  | failed =>
    cases heq
    exact ⟨hg, hgr g, hfl g hg hp⟩
  | _ => cases heq

theorem meets_requestTable {name : Bytes} {R : Option EntryInfo × ℕ → World → Prop} (hR : ∀ r, D.Stable i (R r))
    (hE : D.Stable i E) (hgr : ∀ g, D.guar i g g)
    (hok : ∀ g reply, D.allowed i g (.fetched name reply) → D.inv g → P g → R (reply, g.clock) g)
    (hfl : ∀ g, D.inv g → P g → E g) : Meets D i (Outcome R E) (requestTable name).run P := by
  refine meets_allowed (fun r => ?_) fun g input g' r ha hg hp heq => ?_
  · rcases r with e | r
    exacts [hE, hR r]
  cases input with
  | fetched n reply =>
    obtain ⟨rfl, hf⟩ := Option.ite_none_right_eq_some.1 heq
    cases hf
    exact ⟨hg, hgr g, hok g reply ha hg hp⟩
  | failed =>
    cases heq
    exact ⟨hg, hgr g, hfl g hg hp⟩
  | _ => cases heq

end Rules

end Vgi.Catalog
