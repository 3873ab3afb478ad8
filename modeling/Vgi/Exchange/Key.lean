import Vgi.Cache.Key
import Vgi.Lib.Delimited
import Vgi.Lib.Fallible

/-!
# The static key of an exchange

Functions that are sent rows share one way to build the key of what is stored for them: buffered table
functions, LATERAL calls and scalars, told apart by their operator kind (`ExchangeCall.staticKey`). What
the rows are goes into the key later, or into the slot of a memo.

* `staticKey_eq_iff`: what two calls with one key agree in;
* `fingerprintText_inj`: the fingerprint of a key, by which the memos of a function are found, is the
  SHA-256 of a text that determines the key;
* `digested_texts_inj`: so is that of the secrets of a call, which goes into the key.
-/

namespace Vgi

/-! ## Fingerprints -/

namespace ResultCacheKey

/-- The components of the fingerprint, that of a secret only if there is one. -/
def fingerprintFields (k : ResultCacheKey) : List Bytes :=
  [k.identityScope, k.workerPath, k.functionName, k.schemaName, k.canonicalArguments, k.canonicalSettings,
    k.attachOptions, k.projection, k.attachedDataVersion, k.implementationVersion, decimal k.catalogVersion,
    k.atUnit, k.atValue, k.filterBytes, k.orderByHint, k.sampleHint, k.transactionId, k.inputHash, k.shapeKey] ++
    if k.secretScope = [] then [] else [k.secretScope]

/-- The text that is digested. -/
def fingerprintText (k : ResultCacheKey) : Bytes := k.fingerprintFields.flatMap lengthPrefixed

def fingerprint (sha256Hex : Bytes → Bytes) (k : ResultCacheKey) : Bytes := sha256Hex k.fingerprintText

theorem fingerprintFields_inj {k k' : ResultCacheKey} (h : k.fingerprintFields = k'.fingerprintFields) : k = k' := by
  obtain ⟨hfd, hsec⟩ := List.append_inj h rfl
  have hsc : k.secretScope = k'.secretScope := by
    split_ifs at hsec with hk hk' hk'
    · exact hk.trans hk'.symm
    · exact (List.cons.inj hsec).1
  cases k
  cases k'
  simp only [List.cons.injEq, and_true] at hfd
  simp only [mk.injEq]
  obtain ⟨h₁, h₂, h₃, h₄, h₅, h₆, h₇, h₈, h₉, h₁₀, h₁₁, h₁₂, h₁₃, h₁₄, h₁₅, h₁₆, h₁₇, h₁₈, h₁₉⟩ := hfd
  exact ⟨h₁, h₂, h₃, h₄, h₅, h₆, h₇, h₈, h₉, h₁₀, decimal_inj h₁₁, h₁₂, h₁₃, h₁₄, h₁₅, h₁₆, h₁₇, h₁₈, h₁₉, hsc⟩

theorem fingerprintText_inj {k k' : ResultCacheKey} (h : k.fingerprintText = k'.fingerprintText) : k = k' :=
  fingerprintFields_inj (flatMap_lengthPrefixed_inj h)

end ResultCacheKey

/-- A value of a secret is told by its type and its text; NULL has none. -/
structure SecretValue where
  typeName : Bytes
  text : Option Bytes

def SecretValue.component (v : SecretValue) : Bytes := v.text.elim (ascii "N") (ascii "V" ++ ·)

/-- The fields of a secret, after their number. -/
def secretFields (fields : List (Bytes × SecretValue)) : List Bytes :=
  [decimal fields.length] ++ fields.flatMap fun f => [f.1, f.2.typeName, f.2.component]

def secretComponents (secrets : List (Bytes × StringMap SecretValue)) : List Bytes :=
  [decimal secrets.length] ++ secrets.flatMap fun s => [s.1] ++ secretFields s.2.entries

/-- The text that is digested for the credential. -/
def credentialMaterial (kind credential : Bytes) : Bytes :=
  ascii "vgi-cache-credential:v2" ++ [31] ++ kind ++ [31] ++ credential

/-- The text that `ComputeSecretCacheFingerprint` digests. -/
def secretText (secrets : StringMap (StringMap SecretValue)) : Bytes :=
  credentialMaterial (ascii "secrets") ((secretComponents secrets.entries).flatMap lengthPrefixed)

theorem delimits_singleton {α β : Type*} {f : α → β} (h : Function.Injective f) : Delimits fun a => [f a] := by
  intro a a' t t' heq
  obtain ⟨hhd, htl⟩ := List.cons.inj heq
  exact ⟨h hhd, htl⟩

theorem delimits_secretFields : Delimits secretFields := by
  refine Delimits.counted (delimits_singleton fun _ _ => decimal_natCast_inj) ?_
  rintro ⟨k, ty, text⟩ ⟨k', ty', text'⟩ t t' heq
  obtain ⟨rfl, rfl, htx, rfl⟩ : k = k' ∧ ty = ty' ∧ _ ∧ t = t' := by simpa using heq
  refine ⟨?_, rfl⟩
  rcases text with _ | s <;> rcases text' with _ | s'
  · rfl
  · exact absurd htx (by simp [SecretValue.component, ascii])
  · exact absurd htx (by simp [SecretValue.component, ascii])
  · rw [List.append_cancel_left htx]

theorem delimits_secretComponents : Delimits secretComponents := by
  refine Delimits.counted (delimits_singleton fun _ _ => decimal_natCast_inj) ?_
  intro s s' t t' heq
  have hpr := (delimits_singleton Function.injective_id).prod delimits_secretFields
  obtain ⟨h, ht⟩ := @hpr (s.1, s.2.entries) (s'.1, s'.2.entries) t t' heq
  obtain ⟨hnm, hen⟩ := Prod.mk.inj h
  exact ⟨Prod.ext hnm (StringMap.ext_entries hen), ht⟩

/-- The texts that are digested for keys and for secrets are those of one key, and of the same secrets. -/
theorem digested_texts_inj :
    (∀ k k' : ResultCacheKey, k.fingerprintText = k'.fingerprintText ↔ k = k') ∧
      ∀ secrets secrets', secretText secrets = secretText secrets' ↔ secrets = secrets' := by
  refine ⟨fun k k' => ⟨ResultCacheKey.fingerprintText_inj, fun h => h ▸ rfl⟩, fun secrets secrets' =>
    ⟨fun h => ?_, fun h => h ▸ rfl⟩⟩
  have hcm := flatMap_lengthPrefixed_inj (List.append_cancel_left h)
  exact StringMap.ext_entries (delimits_secretComponents.injective hcm)

/-! ## Projections -/

theorem serializeProjectionForKey_eq (ids : List ℤ) : serializeProjectionForKey ids = joined 44 (ids.map decimal) :=
  foldl_eq_joined (fun _ _ => rfl) ids

/-- There is no comma in a number, so a projection is told by its text. -/
theorem serializeProjectionForKey_inj {ids ids' : List ℤ}
    (h : serializeProjectionForKey ids = serializeProjectionForKey ids') : ids = ids' := by
  rw [serializeProjectionForKey_eq, serializeProjectionForKey_eq, joined_map_eq_iff] at h
  have hcm : ∀ id, 44 ∉ decimal id := notMem_decimal
  rcases h with h | h | h
  · exact h
  · exact absurd h (not_confused_of_notMem (fun id _ => hcm id) fun _ _ _ _ => decimal_inj)
  · exact absurd h (not_confused_of_notMem (fun id _ => hcm id) fun _ _ _ _ => decimal_inj)

/-! ## The key -/

/-- What a key has of an attached worker. The fingerprint of the caller is empty when it cannot be resolved. -/
structure ExchangeAttach where
  workerPath : Bytes
  dataVersionSpec : Bytes := []
  implementationVersion : Bytes := []
  attachOptions : StringMap Bytes := ⟨[], StringMap.sorted_nil⟩
  cache : Bool := true
  catalogName : Bytes := []
  identityFingerprint : Bytes

/-- A call that exchanges rows with a worker: what its key is built from. -/
structure ExchangeCall (V : Type*) where
  resultCacheSetting : Option Bool := none
  attach : ExchangeAttach
  /-- The catalog of that name. -/
  catalog : Option CatalogRef := none
  functionName : Bytes
  schemaName : Bytes := []
  canonicalArguments : Bytes := []
  settings : StringMap V := ⟨[], StringMap.sorted_nil⟩
  projectionIds : List ℤ := []
  secretDependent : Bool := false
  secretScope : Bytes := []
  operatorKind : Bytes

namespace ExchangeCall

variable {V : Type*} (toStr : V → Bytes) (c : ExchangeCall V)

def gate : Except IneligibleReason Unit :=
  if c.resultCacheSetting = some false then .error .disabledGlobal
  else if !c.attach.cache then .error .disabledAttach
  else if c.secretDependent && c.secretScope = [] then .error .secretFingerprintMissing
  else .ok ()

/-- The catalog whose version counts: one of this extension, with a name. -/
def versioned : Option CatalogRef :=
  if c.attach.catalogName = [] then none else c.catalog.filter fun catalog => catalog.catalogType = ascii "vgi"

/-- The identity, the catalog version and the label of the catalog. -/
def identity : Except IneligibleReason (Bytes × ℤ × Bytes) :=
  match c.versioned with
  | some catalog =>
    if catalog.knownCatalogVersion = 0 then .error .unknownVersion
    else
      let scope := buildCatalogIdentityScope c.attach.catalogName c.attach.identityFingerprint
      if scope = [] then .error .identityUnresolved
      else .ok (scope, catalog.knownCatalogVersion, c.attach.catalogName)
  | none =>
    if c.attach.identityFingerprint = [] then .error .identityUnresolved
    else .ok (ascii "worker:" ++ c.attach.workerPath ++ [31] ++ c.attach.identityFingerprint, 0, c.attach.workerPath)

/-- The key built from its components; what only scans have stays empty. -/
def buildKey (identityScope : Bytes) (version : ℤ) : ResultCacheKey where
  identityScope := identityScope
  workerPath := c.attach.workerPath
  functionName := c.functionName
  schemaName := c.schemaName
  canonicalArguments := c.canonicalArguments
  canonicalSettings := serializeSettingsForKey toStr c.settings
  attachOptions := canonicalAttachOptions c.attach.attachOptions
  projection := serializeProjectionForKey c.projectionIds
  attachedDataVersion := c.attach.dataVersionSpec
  implementationVersion := c.attach.implementationVersion
  catalogVersion := version
  atUnit := []
  atValue := []
  filterBytes := []
  orderByHint := []
  sampleHint := []
  transactionId := []
  inputHash := []
  shapeKey := c.operatorKind
  secretScope := if c.secretDependent then c.secretScope else []

/-- `BuildExchangeCacheKeyStaticFields`: the key, and the label of the catalog. -/
def staticKey : Except IneligibleReason (ResultCacheKey × Bytes) := do
  c.gate
  let (scope, version, label) ← c.identity
  return (c.buildKey toStr scope version, label)

variable {toStr c}

theorem staticKey_eq_ok {key : ResultCacheKey} {label : Bytes} :
    c.staticKey toStr = .ok (key, label) ↔
      c.gate = .ok () ∧ ∃ scope version, c.identity = .ok (scope, version, label) ∧
        key = c.buildKey toStr scope version := by
  rw [staticKey, bind_eq_ok]
  constructor
  · rintro ⟨_, hgt, h⟩
    obtain ⟨⟨scope, version, label'⟩, hid, h⟩ := bind_eq_ok.1 h
    cases h
    exact ⟨hgt, scope, version, hid, rfl⟩
  · rintro ⟨hgt, scope, version, hid, rfl⟩
    exact ⟨(), hgt, bind_eq_ok.2 ⟨_, hid, rfl⟩⟩

/-- A key is built: caching is on, the secrets can be told apart, and the caller and the version are known. -/
structure Eligible (c : ExchangeCall V) : Prop where
  setting : c.resultCacheSetting ≠ some false
  cache : c.attach.cache = true
  secrets : c.secretDependent = true → c.secretScope ≠ []
  caller : c.attach.identityFingerprint ≠ []
  version : ∀ catalog ∈ c.versioned, catalog.knownCatalogVersion ≠ 0

/-- The caller, within a catalog or else a worker. -/
def scope (c : ExchangeCall V) : Bytes :=
  c.versioned.elim (ascii "worker:" ++ c.attach.workerPath) (fun _ => c.attach.catalogName) ++ [31] ++
    c.attach.identityFingerprint

def version (c : ExchangeCall V) : ℤ := c.versioned.elim 0 (·.knownCatalogVersion)

/-- The key is that of the fields, whenever there is one. -/
theorem exists_staticKey_iff {key : ResultCacheKey} :
    (∃ label, c.staticKey toStr = .ok (key, label)) ↔ c.Eligible ∧ key = c.buildKey toStr c.scope c.version := by
  have hgt : c.gate = .ok () ↔ c.resultCacheSetting ≠ some false ∧ c.attach.cache = true ∧
      (c.secretDependent = true → c.secretScope ≠ []) := by
    rw [gate]
    split_ifs <;> simp_all
  have hid : ∀ scope version, (∃ label, c.identity = .ok (scope, version, label)) ↔
      (c.attach.identityFingerprint ≠ [] ∧ ∀ catalog ∈ c.versioned, catalog.knownCatalogVersion ≠ 0) ∧
        scope = c.scope ∧ version = c.version := by
    intro scope version
    rw [identity, ExchangeCall.scope, ExchangeCall.version, buildCatalogIdentityScope]
    rcases c.versioned with _ | catalog
    · split_ifs with hfp <;> simp [hfp, @eq_comm _ scope, @eq_comm _ version]
    · by_cases hv : catalog.knownCatalogVersion = 0
      · simp [hv]
      · split_ifs with hfp <;> simp [hfp, hv, @eq_comm _ scope, @eq_comm _ version]
  simp only [staticKey_eq_ok, hgt, exists_and_left]
  constructor
  · rintro ⟨⟨hset, hch, hsec⟩, label, scope, version, hlb, rfl⟩
    obtain ⟨⟨hfp, hv⟩, rfl, rfl⟩ := (hid scope version).1 ⟨label, hlb⟩
    exact ⟨⟨hset, hch, hsec, hfp, hv⟩, rfl⟩
  · rintro ⟨h, rfl⟩
    obtain ⟨label, hlb⟩ := (hid _ _).2 ⟨⟨h.caller, h.version⟩, rfl, rfl⟩
    exact ⟨⟨h.setting, h.cache, h.secrets⟩, label, _, _, hlb, rfl⟩

/-- What calls with one key agree in. -/
structure Agrees (toStr : V → Bytes) (c c' : ExchangeCall V) : Prop where
  identity : ∀ i i', c.identity = .ok i → c'.identity = .ok i' → i.1 = i'.1 ∧ i.2.1 = i'.2.1
  workerPath : c.attach.workerPath = c'.attach.workerPath
  functionName : c.functionName = c'.functionName
  schemaName : c.schemaName = c'.schemaName
  arguments : c.canonicalArguments = c'.canonicalArguments
  settings : serializeSettingsForKey toStr c.settings = serializeSettingsForKey toStr c'.settings
  attachOptions : canonicalAttachOptions c.attach.attachOptions = canonicalAttachOptions c'.attach.attachOptions
  projection : c.projectionIds = c'.projectionIds
  dataVersion : c.attach.dataVersionSpec = c'.attach.dataVersionSpec
  implementationVersion : c.attach.implementationVersion = c'.attach.implementationVersion
  operatorKind : c.operatorKind = c'.operatorKind
  secretScope : (if c.secretDependent then c.secretScope else []) = if c'.secretDependent then c'.secretScope else []

theorem staticKey_eq_iff {c c' : ExchangeCall V} {key key' : ResultCacheKey} {label label' : Bytes}
    (h : c.staticKey toStr = .ok (key, label)) (h' : c'.staticKey toStr = .ok (key', label')) :
    key = key' ↔ c.Agrees toStr c' := by
  obtain ⟨-, scope, version, hid, rfl⟩ := staticKey_eq_ok.1 h
  obtain ⟨-, scope', version', hid', rfl⟩ := staticKey_eq_ok.1 h'
  simp only [buildKey, ResultCacheKey.mk.injEq, true_and]
  constructor
  · rintro ⟨hscp, hpt, hfn, hsc, har, hset, hop, hpr, hdt, him, hver, hkn, hsec⟩
    refine ⟨fun i i' hi hi' => ?_, hpt, hfn, hsc, har, hset, hop,
      serializeProjectionForKey_inj hpr, hdt, him, hkn, hsec⟩
    obtain rfl := Except.ok.inj (hid.symm.trans hi)
    obtain rfl := Except.ok.inj (hid'.symm.trans hi')
    exact ⟨hscp, hver⟩
  · intro hag
    obtain ⟨hscp, hver⟩ := hag.identity _ _ hid hid'
    exact ⟨hscp, hag.workerPath, hag.functionName, hag.schemaName, hag.arguments, hag.settings,
      hag.attachOptions, congrArg _ hag.projection, hag.dataVersion, hag.implementationVersion, hver,
      hag.operatorKind, hag.secretScope⟩

end ExchangeCall

end Vgi
