import Vgi.Lib.Text
import Vgi.Lib.Fallible
import Vgi.Cache.Memory

/-!
# The key of a scan

How the program builds the key of a table scan: the gates that make a scan
ineligible for the cache, and the canonical texts of what the key is made of.

The options of the attach and the settings of the function are maps, written as
`name=value;` one after the other. Nothing is escaped, so that two maps may have
one text: exactly when they are confused in the sense of `Vgi.Confused`
(`separates_iff`), e.g., `a = "x;b=y", b = "z"` and `a = "x", b = "y;b=z"`.
-/

namespace Vgi

/-! ## Canonical texts -/

/-- A `std::map` with string keys: the entries in the order of their keys. -/
structure StringMap (V : Type*) where
  entries : List (Bytes × V)
  sorted : (entries.map Prod.fst).Pairwise (· < ·)

namespace StringMap

variable {V W : Type*}

theorem sorted_nil : (([] : List (Bytes × V)).map Prod.fst).Pairwise (· < ·) := List.Pairwise.nil

theorem ext_entries {m m' : StringMap V} (h : m.entries = m'.entries) : m = m' := by
  cases m
  cases m'
  cases h
  rfl

/-- The map with each value replaced by its image. -/
def mapValues (f : V → W) (m : StringMap V) : StringMap W where
  entries := m.entries.map fun kv => (kv.1, f kv.2)
  sorted := by
    rw [List.map_map]
    exact m.sorted

end StringMap

/-- The text `name=value` of an entry. -/
def optionText (kv : Bytes × Bytes) : Bytes := kv.1 ++ ascii "=" ++ kv.2

/-- The entries one after the other, each followed by `;`. -/
def joinOptions (entries : List (Bytes × Bytes)) : Bytes :=
  entries.foldl (fun out kv => out ++ kv.1 ++ ascii "=" ++ kv.2 ++ ascii ";") []

/-- The canonical text of the options of an attach. -/
def canonicalAttachOptions (keyOptions : StringMap Bytes) : Bytes := joinOptions keyOptions.entries

/-- The canonical text of the settings of a function, `toStr` being the text of a value. -/
def serializeSettingsForKey {V : Type*} (toStr : V → Bytes) (settings : StringMap V) : Bytes :=
  joinOptions (settings.mapValues toStr).entries

/-- The canonical text of a projection. -/
def serializeProjectionForKey (projectionIds : List ℤ) : Bytes :=
  projectionIds.foldl (fun out id => out ++ decimal id ++ ascii ",") []

theorem joinOptions_eq_joined (entries : List (Bytes × Bytes)) :
    joinOptions entries = joined 59 (entries.map optionText) :=
  foldl_eq_joined (fun out kv => by simp [optionText, ascii]) entries

/-! ## The key of a scan -/

/-- Why a scan is not cached. -/
inductive IneligibleReason
  | queryScopedRepeatability
  | expressionProjection
  | disabledGlobal
  | disabledAttach
  | secretFingerprintMissing
  | notVgi
  | unknownVersion
  | identityUnresolved
  | dynamicFilter
  | unserializableFilter
  | unseededSample
  deriving DecidableEq

/-- The catalog of a table. -/
structure CatalogRef where
  catalogType : Bytes
  knownCatalogVersion : ℤ

/-- A top-n hint. -/
structure OrderByHint where
  columnName : Bytes
  direction : Bytes
  nullOrder : Bytes
  rowLimit : ℤ

/-- A sampling hint; the percentage is given by its text. -/
structure TableSampleHint where
  samplePercentage : Bytes
  seed : ℤ

/-- What a scan is keyed on: the bind data, the attach parameters and the pushed-down filters, of type `F`. The
    fingerprint of the caller is empty when it cannot be resolved. -/
structure ScanInput (V F : Type*) where
  stableWithinQuery : Bool
  projectionResponse : Bytes
  resultCacheSetting : Option Bool
  attachCache : Bool
  secretDependent : Bool
  secretScope : Bytes
  table : Option CatalogRef
  catalogName : Bytes
  identityFingerprint : Bytes
  workerPath : Bytes
  functionName : Bytes
  schemaName : Bytes
  canonicalArguments : Bytes
  settings : StringMap V
  attachOptions : StringMap Bytes
  projectionIds : List ℤ
  dataVersionSpec : Bytes
  implementationVersion : Bytes
  atUnit : Bytes
  atValue : Bytes
  filters : Option (List F)
  orderByHint : Option OrderByHint
  tableSampleHint : Option TableSampleHint
  transactionId : Bytes

/-- The parts of the engine a key is built with: the text of a setting, whether a filter is dynamic, and the serialised
    filters with the buffers of their join keys, if they can be represented. -/
structure KeyContext (V F : Type*) where
  toStr : V → Bytes
  containsDynamicFilter : F → Bool
  serializeFilters : List F → Option (Option Bytes × List Bytes)

/-- The outcome for a scan that is eligible. -/
structure CacheEligibility where
  key : ResultCacheKey
  catalogName : Bytes
  transactionId : Bytes
  deriving DecidableEq

/-- `BuildCatalogIdentityScope`: empty when the caller cannot be resolved. -/
def buildCatalogIdentityScope (catalogName fingerprint : Bytes) : Bytes :=
  if fingerprint = [] then [] else catalogName ++ [31] ++ fingerprint

namespace ScanInput

variable {V F : Type*} (ctx : KeyContext V F) (scan : ScanInput V F)

/-- The identity, the catalog version and the label of the catalog. -/
def identity : Except IneligibleReason (Bytes × ℤ × Bytes) :=
  match scan.table with
  | some catalog =>
    if catalog.catalogType ≠ ascii "vgi" then .error .notVgi
    else if catalog.knownCatalogVersion = 0 then .error .unknownVersion
    else
      let scope := buildCatalogIdentityScope scan.catalogName scan.identityFingerprint
      if scope = [] then .error .identityUnresolved
      else .ok (scope, catalog.knownCatalogVersion, scan.catalogName)
  | none =>
    if scan.identityFingerprint = [] then .error .identityUnresolved
    else .ok (ascii "worker:" ++ scan.workerPath ++ [31] ++ scan.identityFingerprint, 0,
      scan.workerPath)

/-- The filters, as a component of the key. -/
def filterKey : Except IneligibleReason Bytes :=
  match scan.filters with
  | none => .ok []
  | some fs =>
    if fs.any ctx.containsDynamicFilter then .error .dynamicFilter
    else if fs.isEmpty then .ok []
    else
      match ctx.serializeFilters fs with
      | none => .error .unserializableFilter
      | some (bytes, joinKeys) =>
        .ok (joinKeys.foldl (fun out jk => out ++ ascii "|" ++ jk) (bytes.getD []))

/-- The top-n hint, as a component of the key. -/
def orderKey : Bytes :=
  match scan.orderByHint with
  | none => []
  | some o => o.columnName ++ ascii "/" ++ o.direction ++ ascii "/" ++ o.nullOrder ++ ascii "/" ++
      decimal o.rowLimit

/-- The sampling hint, as a component of the key. -/
def sampleKey : Except IneligibleReason Bytes :=
  match scan.tableSampleHint with
  | none => .ok []
  | some s =>
    if s.seed < 0 then .error .unseededSample
    else .ok (s.samplePercentage ++ ascii "/" ++ decimal s.seed)

/-- The gates before anything of the key is built. -/
def gate : Except IneligibleReason Unit :=
  if scan.stableWithinQuery then .error .queryScopedRepeatability
  else if scan.projectionResponse ≠ [] then .error .expressionProjection
  else if scan.resultCacheSetting = some false then .error .disabledGlobal
  else if !scan.attachCache then .error .disabledAttach
  else if scan.secretDependent && scan.secretScope = [] then .error .secretFingerprintMissing
  else .ok ()

/-- The key built from its components. -/
def buildKey (identityScope : Bytes) (version : ℤ) (filterKey sampleKey : Bytes) : ResultCacheKey where
  identityScope := identityScope
  workerPath := scan.workerPath
  functionName := scan.functionName
  schemaName := scan.schemaName
  canonicalArguments := scan.canonicalArguments
  canonicalSettings := serializeSettingsForKey ctx.toStr scan.settings
  attachOptions := canonicalAttachOptions scan.attachOptions
  projection := serializeProjectionForKey scan.projectionIds
  attachedDataVersion := scan.dataVersionSpec
  implementationVersion := scan.implementationVersion
  catalogVersion := version
  atUnit := scan.atUnit
  atValue := scan.atValue
  filterBytes := filterKey
  orderByHint := scan.orderKey
  sampleHint := sampleKey
  transactionId := []
  inputHash := []
  shapeKey := []
  secretScope := if scan.secretDependent then scan.secretScope else []

/-- Whether the scan is a candidate for the cache, and its key. -/
def evaluateCacheEligibility : Except IneligibleReason CacheEligibility := do
  scan.gate
  let (scope, version, label) ← scan.identity
  let filters ← scan.filterKey ctx
  let sample ← scan.sampleKey
  return { key := scan.buildKey ctx scope version filters sample
           catalogName := label
           transactionId := scan.transactionId }

end ScanInput

/-! ## What a key tells apart -/

/-- One of the maps is confused with the other. -/
def MapsConfused (m m' : StringMap Bytes) : Prop :=
  Confused 59 optionText m.entries m'.entries ∨ Confused 59 optionText m'.entries m.entries

variable {m m' : StringMap Bytes}

theorem joinOptions_eq_iff : joinOptions m.entries = joinOptions m'.entries ↔ m = m' ∨ MapsConfused m m' := by
  rw [joinOptions_eq_joined, joinOptions_eq_joined, joined_map_eq_iff, MapsConfused]
  exact or_congr_left ⟨StringMap.ext_entries, fun h => h ▸ rfl⟩

theorem MapsConfused.ne (h : MapsConfused m m') : m ≠ m' := by
  rintro rfl
  rcases h with h | h <;> exact h.ne rfl

/-- Two maps have different texts unless they are confused. -/
theorem joinOptions_separates_iff : (m ≠ m' → joinOptions m.entries ≠ joinOptions m'.entries) ↔ ¬MapsConfused m m' := by
  constructor
  · intro h hc
    exact h hc.ne (joinOptions_eq_iff.2 (.inr hc))
  · intro hc hne e
    rcases joinOptions_eq_iff.1 e with h | h
    · exact hne h
    · exact hc h

/-- The text of an entry whose name has no `=` determines it. -/
theorem optionText_inj {kv kv' : Bytes × Bytes} (h : 61 ∉ kv.1) (h' : 61 ∉ kv'.1)
    (e : optionText kv = optionText kv') : kv = kv' := by
  have hsp : ∀ kv : Bytes × Bytes, 61 ∉ kv.1 → splitFirst 61 (optionText kv) = some kv := by
    intro kv hkv
    rw [optionText, List.append_assoc]
    exact splitFirst_append hkv kv.2
  exact Option.some.inj ((hsp kv h).symm.trans ((congrArg _ e).trans (hsp kv' h')))

/-- Names and values without separators are never confused. -/
theorem not_mapsConfused_of_plain (h : ∀ kv ∈ m.entries, 61 ∉ kv.1 ∧ 59 ∉ kv.1 ∧ 59 ∉ kv.2)
    (h' : ∀ kv ∈ m'.entries, 61 ∉ kv.1 ∧ 59 ∉ kv.1 ∧ 59 ∉ kv.2) : ¬MapsConfused m m' := by
  have hsep : ∀ m : StringMap Bytes, (∀ kv ∈ m.entries, 61 ∉ kv.1 ∧ 59 ∉ kv.1 ∧ 59 ∉ kv.2) →
      ∀ kv ∈ m.entries, 59 ∉ optionText kv := by
    intro m hm kv hkv
    have := hm kv hkv
    simp only [optionText, List.mem_append, not_or]
    exact ⟨⟨this.2.1, by decide⟩, this.2.2⟩
  rintro (hc | hc)
  · exact not_confused_of_notMem (hsep m h) (fun a ha b hb => optionText_inj (h a ha).1 (h' b hb).1) hc
  · exact not_confused_of_notMem (hsep m' h') (fun a ha b hb => optionText_inj (h' a ha).1 (h b hb).1) hc

section Scans

variable {V F : Type*} (ctx : KeyContext V F)

/-- The key of an eligible scan is built from its identity and the other components. -/
theorem ScanInput.exists_key_eq {ctx : KeyContext V F} {scan : ScanInput V F} {e : CacheEligibility}
    (h : scan.evaluateCacheEligibility ctx = .ok e) :
    ∃ i filters sample, scan.identity = .ok i ∧ e.key = scan.buildKey ctx i.1 i.2.1 filters sample := by
  obtain ⟨-, -, h⟩ := bind_eq_ok.1 h
  obtain ⟨i, hid, h⟩ := bind_eq_ok.1 h
  obtain ⟨filters, -, h⟩ := bind_eq_ok.1 h
  obtain ⟨sample, -, h⟩ := bind_eq_ok.1 h
  cases h
  exact ⟨i, filters, sample, hid, rfl⟩

/-- If both scans are eligible, their keys differ. -/
def ScansSeparated (scan scan' : ScanInput V F) : Prop :=
  ∀ e e', scan.evaluateCacheEligibility ctx = .ok e → scan'.evaluateCacheEligibility ctx = .ok e' →
    e.key ≠ e'.key

/-- Different options and different settings have different texts, and scans that differ only in them different keys, if
    and only if neither the options nor the settings are confused. -/
theorem separates_iff (scan : ScanInput V F) (opts opts' : StringMap Bytes) (settings settings' : StringMap V) :
    ((opts ≠ opts' → canonicalAttachOptions opts ≠ canonicalAttachOptions opts') ∧
      (settings.mapValues ctx.toStr ≠ settings'.mapValues ctx.toStr →
        serializeSettingsForKey ctx.toStr settings ≠ serializeSettingsForKey ctx.toStr settings') ∧
      (opts ≠ opts' ∨ settings.mapValues ctx.toStr ≠ settings'.mapValues ctx.toStr →
        ScansSeparated ctx { scan with attachOptions := opts, settings := settings }
          { scan with attachOptions := opts', settings := settings' })) ↔
      ¬MapsConfused opts opts' ∧
        ¬MapsConfused (settings.mapValues ctx.toStr) (settings'.mapValues ctx.toStr) := by
  constructor
  · rintro ⟨ho, hs, -⟩
    exact ⟨joinOptions_separates_iff.1 ho, joinOptions_separates_iff.1 hs⟩
  rintro ⟨ho, hs⟩
  have ho := joinOptions_separates_iff.2 ho
  have hs := joinOptions_separates_iff.2 hs
  refine ⟨ho, hs, fun hne e e' he he' hk => ?_⟩
  obtain ⟨_, _, _, -, hkey⟩ := ScanInput.exists_key_eq he
  obtain ⟨_, _, _, -, hkey'⟩ := ScanInput.exists_key_eq he'
  rw [hkey, hkey'] at hk
  rcases hne with hne | hne
  · exact ho hne (congrArg ResultCacheKey.attachOptions hk)
  · exact hs hne (congrArg ResultCacheKey.canonicalSettings hk)

end Scans

/-- A direct scan with the given attach options. -/
def scanWith (opts : StringMap Bytes) : ScanInput Bytes Unit where
  stableWithinQuery := false
  projectionResponse := []
  resultCacheSetting := none
  attachCache := true
  secretDependent := false
  secretScope := []
  table := none
  catalogName := []
  identityFingerprint := ascii "anonymous"
  workerPath := ascii "w"
  functionName := ascii "f"
  schemaName := ascii "s"
  canonicalArguments := []
  settings := ⟨[], StringMap.sorted_nil⟩
  attachOptions := opts
  projectionIds := []
  dataVersionSpec := []
  implementationVersion := []
  atUnit := []
  atValue := []
  filters := none
  orderByHint := none
  tableSampleHint := none
  transactionId := []

/-- The engine of scans without filters. -/
def plainContext : KeyContext Bytes Unit where
  toStr := id
  containsDynamicFilter _ := false
  serializeFilters _ := none

/-- Two scans with different attach options and one key: the cache serves the second the entry of the first. -/
theorem scans_share_key :
    ∃ opts opts' : StringMap Bytes, opts ≠ opts' ∧
      canonicalAttachOptions opts = canonicalAttachOptions opts' ∧
      ∃ e e', (scanWith opts).evaluateCacheEligibility plainContext = .ok e ∧
        (scanWith opts').evaluateCacheEligibility plainContext = .ok e' ∧
        e.key = e'.key ∧
        (((MemoryTier.init.insertLocked
          { key := e.key, streams := (), totalBytes := 1, neverExpires := true } false).1.probe
            e'.key 0).2).isSome := by
  refine ⟨⟨[(ascii "a", ascii "x;b=y"), (ascii "b", ascii "z")], by decide⟩,
    ⟨[(ascii "a", ascii "x"), (ascii "b", ascii "y;b=z")], by decide⟩, ?_, by decide, _, _, rfl, rfl,
    by decide, by decide⟩
  intro h
  exact absurd (congrArg StringMap.entries h) (by decide)

end Vgi
