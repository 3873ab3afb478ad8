import Vgi.Lib.Frame

/-!
# Stored logins

The refresh token of a login is stored under the key of the context that the server's documents give, in
a record that names the context of the login. It is loaded only if the record names what the documents
give, and deleted under the key of the context of the login.

A login by device code may be of a client of its own. Its record is then never loaded, and stays when the
user logs out (`deviceClient_lost`). Every other login is kept and forgotten (`login_kept_iff`).
-/

namespace Vgi

namespace Oauth

open Cursor Function

/-- What a challenge says, and the two documents behind it. A document without an issuer or a token
    endpoint is refused. -/
structure ServerMetadata where
  resourceMetadataUrl : Bytes
  challengeClientId : Bytes
  clientId : Bytes
  deviceCodeClientId : Bytes
  resourceTokenEndpoint : Bytes
  scopesSupported : List Bytes
  resource : Bytes
  issuer : Bytes
  tokenEndpoint : Bytes
  issuer_ne : issuer ≠ []
  tokenEndpoint_ne : tokenEndpoint ≠ []

structure RefreshContext where
  tokenEndpoint : Bytes
  clientId : Bytes
  scope : Bytes
  issuer : Bytes
  resource : Bytes
  resourceMetadataUrl : Bytes

/-- What a key and a record have of a context. -/
def RefreshContext.names (ctx : RefreshContext) : List Bytes :=
  [ctx.issuer, if ctx.resource.isEmpty then ctx.resourceMetadataUrl else ctx.resource, ctx.clientId, ctx.scope]

/-- `OAuthSessionKey`. -/
def oauthSessionKey (profile : Bytes) (ctx : RefreshContext) : Bytes := [31].intercalate (profile :: ctx.names)

def ordinaryClient (md : ServerMetadata) : Bytes := if md.clientId = [] then md.challengeClientId else md.clientId

def buildScopeString (scopes : List Bytes) : Bytes :=
  if scopes = [] then ascii "openid" else [32].intercalate scopes

/-- `DiscoverRefreshContext`. -/
def discoverRefreshContext (md : ServerMetadata) : RefreshContext where
  tokenEndpoint := if md.resourceTokenEndpoint = [] then md.tokenEndpoint else md.resourceTokenEndpoint
  clientId := ordinaryClient md
  scope := buildScopeString md.scopesSupported
  issuer := md.issuer
  resource := md.resource
  resourceMetadataUrl := md.resourceMetadataUrl

/-- How a user signs in. -/
inductive Flow
  | pkce
  | deviceCode
  | pkceThenDeviceCode
deriving DecidableEq

/-- The context that `PerformAuthFlow` gives. -/
def Flow.context (md : ServerMetadata) : Flow → RefreshContext
  | .pkce => discoverRefreshContext md
  | .deviceCode | .pkceThenDeviceCode =>
    { discoverRefreshContext md with
      clientId := if md.deviceCodeClientId = [] then ordinaryClient md else md.deviceCodeClientId }

/-! ## Records -/

def appendField (value : Bytes) : Bytes := putLE 4 value.length ++ value

def encodeRecord (ctx : RefreshContext) (token : Bytes) : Bytes :=
  ascii "VGI1" ++ (ctx.names ++ [token]).flatMap appendField

def readFields : ℕ → Cursor (List Bytes)
  | 0 => pure []
  | n + 1 => do
    let value ← text
    (value :: ·) <$> readFields n

def decodeRecord (data : Bytes) (expected : RefreshContext) : Option Bytes :=
  match (do expect (ascii "VGI1"); readFields 5 : Cursor (List Bytes)) data 0 with
  | some ([issuer, resource, client, scope, token], off) =>
    if off = data.length ∧ [issuer, resource, client, scope] = expected.names ∧ token ≠ [] then some token else none
  | _ => none

theorem reads_fields {fields : List Bytes} (h : ∀ f ∈ fields, f.length < 2 ^ 32) :
    Reads (readFields fields.length) (fields.flatMap appendField) fields := by
  induction fields with
  | nil => exact fun _ _ => rfl
  | cons f fields ih =>
    obtain ⟨hf, h⟩ := List.forall_mem_cons.1 h
    exact (reads_text hf).bind ((ih h).map _)

variable {expected : RefreshContext}

/-- A record is read in the contexts that it names. -/
theorem decodeRecord_encodeRecord {ctx : RefreshContext} {token : Bytes} (htok : token ≠ [])
    (h : ∀ f ∈ ctx.names ++ [token], f.length < 2 ^ 32) :
    decodeRecord (encodeRecord ctx token) expected = if ctx.names = expected.names then some token else none := by
  have hrd := (reads_expect (ascii "VGI1")).bind (f := fun _ => readFields 5) (reads_fields h) [] []
  rw [List.nil_append, List.append_nil] at hrd
  rw [decodeRecord, encodeRecord]
  erw [hrd]
  simp [RefreshContext.names, htok]

/-! ## The store -/

/-- `LoadOAuthRefreshToken`: a record of another context is dropped. -/
def loadOAuthRefreshToken (key : Bytes) (expected : RefreshContext) (store : Bytes → Option Bytes) :
    Option Bytes × (Bytes → Option Bytes) :=
  match store key with
  | none => (none, store)
  | some data =>
    match decodeRecord data expected with
    | none => (none, update store key none)
    | some token => (some token, store)

theorem load_fst {key data : Bytes} {store : Bytes → Option Bytes} (h : store key = some data) :
    (loadOAuthRefreshToken key expected store).1 = decodeRecord data expected := by
  rw [loadOAuthRefreshToken, h]
  dsimp only
  cases decodeRecord data expected <;> rfl

/-- The session of a catalog, and the credential store of the machine. -/
structure AuthState where
  refreshToken : Bytes
  context : RefreshContext
  store : Bytes → Option Bytes

variable (profile : Bytes) (md : ServerMetadata) (flow : Flow) (leased : Bool) (granted : Bytes) (s : AuthState)

/-- The key of the session that the documents give. -/
def canonicalKey : Bytes := oauthSessionKey profile (discoverRefreshContext md)

/-- What is loaded before a login, if the lease of the key is held. -/
def persisted : Option Bytes × (Bytes → Option Bytes) :=
  if leased then loadOAuthRefreshToken (canonicalKey profile md) (discoverRefreshContext md) s.store
  else (none, s.store)

/-- The context of a login, and the token that it refreshes if the user need not sign in. -/
def refreshOrFullAuth : RefreshContext × Bytes :=
  match (persisted profile md leased s).1 with
  | some token => (discoverRefreshContext md, token)
  | none =>
    if s.refreshToken = [] then (flow.context md, [])
    else (if s.context.tokenEndpoint = [] then discoverRefreshContext md else s.context, s.refreshToken)

/-- `HandleUnauthorized`, for a login that succeeds and is answered with the refresh token `granted`. -/
def handleUnauthorized : AuthState :=
  let (context, old) := refreshOrFullAuth profile md flow leased s
  let token := if granted = [] then old else granted
  let store := (persisted profile md leased s).2
  { refreshToken := token, context
    store := if token = [] then store
      else update store (canonicalKey profile md) (some (encodeRecord context token)) }

/-- `ClearTokens`. -/
def clearTokens : Bytes → Option Bytes :=
  if s.context.issuer = [] then s.store else update s.store (oauthSessionKey profile s.context) none

/-! ## Logins -/

/-- A later process loads the token of the login that led to `s'`, and a logout leaves its record at no
    key, those apart that had it before. -/
def Kept (s' : AuthState) : Prop :=
  (loadOAuthRefreshToken (canonicalKey profile md) (discoverRefreshContext md) s'.store).1 = some s'.refreshToken ∧
    ∀ key, clearTokens profile s' key = some (encodeRecord s'.context s'.refreshToken) →
      key ≠ canonicalKey profile md ∧ s.store key = some (encodeRecord s'.context s'.refreshToken)

/-- A login refreshes the stored token, or one that was got in a context of the same names, or is made
    with the client that the documents name. -/
def Agrees : Prop :=
  (persisted profile md leased s).1 ≠ none ∨
    (s.refreshToken ≠ [] ∧ (s.context.tokenEndpoint = [] ∨ s.context.names = (discoverRefreshContext md).names)) ∨
    (s.refreshToken = [] ∧ (flow = .pkce ∨ md.deviceCodeClientId = [] ∨ md.deviceCodeClientId = ordinaryClient md))

variable {profile md flow leased granted s}

theorem agrees_iff : Agrees profile md flow leased s ↔
    (refreshOrFullAuth profile md flow leased s).1.names = (discoverRefreshContext md).names := by
  rw [Agrees, refreshOrFullAuth]
  cases (persisted profile md leased s).1 with
  | some token => simp
  | none =>
    by_cases htok : s.refreshToken = []
    · cases flow <;> by_cases hdv : md.deviceCodeClientId = [] <;>
        simp [htok, hdv, Flow.context, RefreshContext.names, discoverRefreshContext]
    · by_cases hend : s.context.tokenEndpoint = [] <;> simp [htok, hend]

/-- What is loaded changes the store at its key only. -/
theorem persisted_of_ne {key : Bytes} (h : key ≠ canonicalKey profile md) :
    (persisted profile md leased s).2 key = s.store key := by
  rw [persisted, loadOAuthRefreshToken]
  split_ifs
  · split
    · rfl
    · split
      · exact update_of_ne h _ _
      · rfl
  · rfl

/-- A login whose refresh token is stored is loaded again and forgotten exactly if its context names
    what the documents name. -/
theorem login_kept_iff (hstored : (handleUnauthorized profile md flow leased granted s).refreshToken ≠ [])
    (hfits : ∀ f ∈ (handleUnauthorized profile md flow leased granted s).context.names ++
      [(handleUnauthorized profile md flow leased granted s).refreshToken], f.length < 2 ^ 32) :
    Kept profile md s (handleUnauthorized profile md flow leased granted s) ↔ Agrees profile md flow leased s := by
  have hcn : (handleUnauthorized profile md flow leased granted s).context =
      (refreshOrFullAuth profile md flow leased s).1 := rfl
  rw [agrees_iff, ← hcn]
  generalize hs' : handleUnauthorized profile md flow leased granted s = s' at hstored hfits ⊢
  have hst : s'.store = update (persisted profile md leased s).2 (canonicalKey profile md)
      (some (encodeRecord s'.context s'.refreshToken)) := by
    subst hs'
    exact if_neg hstored
  rw [Kept, load_fst (hst ▸ update_self ..), decodeRecord_encodeRecord hstored hfits]
  constructor
  · intro h
    by_contra hnm
    rw [if_neg hnm] at h
    cases h.1
  · intro hnm
    refine ⟨if_pos hnm, fun key hkey => ?_⟩
    have his : s'.context.issuer ≠ [] := (List.cons.inj hnm).1.trans_ne md.issuer_ne
    have hsm : oauthSessionKey profile s'.context = canonicalKey profile md := by
      rw [oauthSessionKey, hnm]
      rfl
    rw [clearTokens, if_neg his, hsm] at hkey
    have hne : key ≠ canonicalKey profile md := by
      rintro rfl
      rw [update_self] at hkey
      cases hkey
    rw [update_of_ne hne, hst, update_of_ne hne, persisted_of_ne hne] at hkey
    exact ⟨hne, hkey⟩

/-- A server with a client of its own for device codes. -/
def tvServer : ServerMetadata where
  resourceMetadataUrl := ascii "https://a/m"
  challengeClientId := []
  clientId := ascii "web"
  deviceCodeClientId := ascii "tv"
  resourceTokenEndpoint := []
  scopesSupported := []
  resource := ascii "https://a"
  issuer := ascii "https://i"
  tokenEndpoint := ascii "https://i/t"
  issuer_ne := by decide
  tokenEndpoint_ne := by decide

def noSession : AuthState := ⟨[], ⟨[], [], [], [], [], []⟩, fun _ => none⟩

/-- A login with the client that the documents name. -/
theorem login_kept_pkce :
    Kept [] tvServer noSession (handleUnauthorized [] tvServer .pkce true (ascii "r") noSession) :=
  (login_kept_iff (by decide +kernel) (by decide +kernel)).2 (.inr (.inr ⟨rfl, .inl rfl⟩))

/-- The token of a device code is dropped when it is looked for, and left when the user logs out. -/
theorem deviceClient_lost : let s' := handleUnauthorized [] tvServer .deviceCode true (ascii "r") noSession
    s'.refreshToken = ascii "r" ∧ (s'.store (canonicalKey [] tvServer)).isSome ∧
    (loadOAuthRefreshToken (canonicalKey [] tvServer) (discoverRefreshContext tvServer) s'.store).1 = none ∧
    clearTokens [] s' (canonicalKey [] tvServer) = some (encodeRecord s'.context (ascii "r")) := by
  decide +kernel

end Oauth

end Vgi
