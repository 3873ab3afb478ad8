import Vgi.Lib.Text

/-!
# LOCATION strings

A worker is named by a LOCATION: a URL of one of a dozen schemes, or a command. Each scheme has its test, some of them
with either case of the letters and some not, and there are three chains of these tests: `classifyLocationForPolicy`,
which says under which transport the policy is asked about a LOCATION, and the two dispatchers, which say by which one a
worker is then reached (`createFunctionConnection`, `invokeUnaryRpcOnTransport`). What reaches none of the branches of a
dispatcher is started as a process (`spawnWorker`), which has tests of its own.

* `createFunctionConnection_le`: what the one dispatcher uses, the other one uses too;
* `invoke_eq_classify`: the dispatchers agree with the classification, except on `database://`, which is not for them,
  and where the file that a `github://` LOCATION is resolved to has the name of something else.
-/

namespace Vgi

open Option List
variable (location : Bytes) (s : Bytes)

/-! ## The schemes -/

def isHttpTransport : Bool :=
  startsWith (lower s) (ascii "http://") || startsWith (lower s) (ascii "https://")

def isHttpiTransport : Bool := startsWith s (ascii "httpi://")

def isIrohTransport : Bool := startsWith s (ascii "iroh://")

def isTcpTransport : Bool := startsWith (lower s) (ascii "tcp://")

def isLaunchLocation : Bool := startsWith s (ascii "launch:")

def isUnixLocation : Bool := startsWith s (ascii "unix://")

def isGithubLocation : Bool := startsWith (lower s) (ascii "github://")

def isGithubAutoLocation : Bool := startsWith (lower s) (ascii "github-auto://")

def isContainerLocation : Bool :=
  startsWith (lower s) (ascii "oci://") || startsWith (lower s) (ascii "docker://")

def isDatabaseLocation : Bool := startsWith (lower s) (ascii "database://")

/-- The token ATTACH puts in the place of a `database://` LOCATION. -/
def isResolvedWorkerLocation : Bool := startsWith s (ascii "vgi-artifact:")

/-- The token ATTACH puts in the place of a container that is shared. -/
def isContainerSharedLocation : Bool := startsWith s (ascii "container-shared:")

variable {s : Bytes}

/-- A LOCATION with one of the schemes `ps` has none that they exclude, whether its letters may have
    either case or not. -/
theorem not_startsWith_of_scheme {q : Bytes} {ps : List Bytes} (h : ∃ p ∈ ps, startsWith (lower s) p = true)
    (hq : lower q = q) (hps : ps.all fun p => !startsWith q p && !startsWith p q) :
    startsWith (lower s) q = false ∧ startsWith s q = false := by
  obtain ⟨p, hp, hs⟩ := h
  have hpq := List.all_eq_true.1 hps p hp
  rw [Bool.and_eq_true, Bool.not_eq_true', Bool.not_eq_true'] at hpq
  have hlw : startsWith (lower s) q = false := startsWith_unique hs hpq.1 hpq.2
  refine ⟨hlw, Bool.eq_false_iff.2 fun hs' => ?_⟩
  rw [startsWith_lower hq hs'] at hlw
  cases hlw

/-- No scheme that is connected to in some other way than by starting a process, and no token. -/
structure NoBranch (s : Bytes) : Prop where
  http : isHttpTransport s = false
  httpi : isHttpiTransport s = false
  iroh : isIrohTransport s = false
  shared : isContainerSharedLocation s = false
  tcp : isTcpTransport s = false
  launch : isLaunchLocation s = false
  unix : isUnixLocation s = false
  artifact : isResolvedWorkerLocation s = false

theorem NoBranch.of_scheme {ps : List Bytes} (h : ∃ p ∈ ps, startsWith (lower s) p = true)
    (hps : ∀ q ∈ [ascii "http://", ascii "https://", ascii "httpi://", ascii "iroh://",
      ascii "container-shared:", ascii "tcp://", ascii "launch:", ascii "unix://", ascii "vgi-artifact:"],
      lower q = q ∧ ps.all fun p => !startsWith q p && !startsWith p q) :
    NoBranch s := by
  simp only [forall_mem_cons] at hps
  obtain ⟨http, https, httpi, iroh, shared, tcp, launch, unix, artifact, -⟩ := hps
  refine ⟨?_, (not_startsWith_of_scheme h httpi.1 httpi.2).2, (not_startsWith_of_scheme h iroh.1 iroh.2).2,
    (not_startsWith_of_scheme h shared.1 shared.2).2, (not_startsWith_of_scheme h tcp.1 tcp.2).1,
    (not_startsWith_of_scheme h launch.1 launch.2).2, (not_startsWith_of_scheme h unix.1 unix.2).2,
    (not_startsWith_of_scheme h artifact.1 artifact.2).2⟩
  rw [isHttpTransport, (not_startsWith_of_scheme h http.1 http.2).1,
    (not_startsWith_of_scheme h https.1 https.2).1, Bool.or_false]

theorem exists_container_scheme (h : isContainerLocation s = true) :
    ∃ p ∈ [ascii "oci://", ascii "docker://"], startsWith (lower s) p = true :=
  (Bool.or_eq_true_iff.1 h).elim (fun hs => ⟨_, mem_cons_self, hs⟩) fun hs => ⟨_, mem_cons_of_mem _ mem_cons_self, hs⟩

theorem exists_github_scheme (h : isGithubLocation s || isGithubAutoLocation s) :
    ∃ p ∈ [ascii "github://", ascii "github-auto://"], startsWith (lower s) p = true :=
  (Bool.or_eq_true_iff.1 h).elim (fun hs => ⟨_, mem_cons_self, hs⟩) fun hs => ⟨_, mem_cons_of_mem _ mem_cons_self, hs⟩

theorem noBranch_of_container (h : isContainerLocation s = true) : NoBranch s :=
  .of_scheme (exists_container_scheme h) (by decide)

theorem noBranch_of_database (h : isDatabaseLocation s = true) : NoBranch s :=
  .of_scheme ⟨_, mem_singleton_self _, h⟩ (by decide)

theorem noBranch_of_github (h : isGithubLocation s || isGithubAutoLocation s) : NoBranch s :=
  .of_scheme (exists_github_scheme h) (by decide)

theorem not_database_of_container (h : isContainerLocation s = true) : isDatabaseLocation s = false :=
  (not_startsWith_of_scheme (exists_container_scheme h) rfl rfl).1

/-- What ATTACH replaces is no release. -/
theorem not_github_of_replaced (h : isContainerLocation s ∨ isDatabaseLocation s) :
    ¬(isGithubLocation s || isGithubAutoLocation s) := by
  intro hgt
  have hgs := exists_github_scheme hgt
  rcases h with h | h
  · rw [isContainerLocation, (not_startsWith_of_scheme hgs rfl rfl).1, (not_startsWith_of_scheme hgs rfl rfl).1] at h
    cases h
  · rw [isDatabaseLocation, (not_startsWith_of_scheme hgs rfl rfl).1] at h
    cases h

/-- A container keeps its scheme under another name that begins alike. -/
theorem isContainerLocation_append (h : isContainerLocation s = true) (t : Bytes) :
    isContainerLocation (s ++ t) = true := by
  rw [isContainerLocation, lower_append]
  exact Bool.or_eq_true_iff.2 ((Bool.or_eq_true_iff.1 h).imp (startsWith_append · _) (startsWith_append · _))

/-! ## The policy's view -/

/-- The transports the policy knows. -/
inductive PolicyTransport
  | subprocess | launch | unix | oci | github | database | http | https | tcp | httpi | iroh | worker
  deriving DecidableEq

/-- Where a LOCATION enters. -/
inductive LocationEntryPoint
  | attach | vgiCatalogs | vgiProtocols
  deriving DecidableEq

def locationEntryPointName : LocationEntryPoint → Bytes
  | .attach => ascii "attach"
  | .vgiCatalogs => ascii "vgi_catalogs"
  | .vgiProtocols => ascii "vgi_protocols"

/-- The tokens are not for users: they would skip the resolution that produced them. -/
def internalTokenRefusal : Bytes :=
  ascii ("vgi: this LOCATION uses an internal VGI token prefix ('vgi-artifact:' / 'container-shared:') and " ++
    "cannot be given directly; use the original database:// or oci:// LOCATION")

/-- Only ATTACH resolves `database://`; elsewhere it would be handed to the shell. -/
def unresolvedDatabaseRefusal (entry : LocationEntryPoint) : Bytes :=
  ascii "vgi: " ++ locationEntryPointName entry ++
    ascii "() does not resolve database:// LOCATIONs; ATTACH the database:// LOCATION instead"

/-- The transport of a LOCATION, or why there is none under any policy. -/
def classifyLocationForPolicy (entry : LocationEntryPoint) : Except Bytes PolicyTransport :=
  if isResolvedWorkerLocation location || isContainerSharedLocation location then
    .error internalTokenRefusal
  else if isHttpTransport location then
    .ok (if startsWith (lower location) (ascii "https://") then .https else .http)
  else if isHttpiTransport location then .ok .httpi
  else if isIrohTransport location then .ok .iroh
  else if isTcpTransport location then .ok .tcp
  else if isLaunchLocation location then .ok .launch
  else if isUnixLocation location then .ok .unix
  else if isGithubLocation location || isGithubAutoLocation location then .ok .github
  else if isContainerLocation location then .ok .oci
  else if isDatabaseLocation location then
    if entry = .attach then .ok .database else .error (unresolvedDatabaseRefusal entry)
  else .ok .subprocess

/-! ## The dispatchers -/

/-- What the dispatchers find: the configuration of the catalog, and what other parts of the program
    answer (`none` where they throw). -/
structure Session where
  /-- ATTACH left a configuration for Iroh. -/
  iroh : Bool
  /-- The shared containers ATTACH registered. -/
  lookupSharedContainer : Bytes → Bool
  /-- The file a worker of a release is unpacked to. -/
  resolveGithubWorker : Bytes → Option Bytes
  /-- The artifacts ATTACH registered. -/
  acquireResolvedWorkerLaunch : Bytes → Bool
  /-- The spec ATTACH makes for a container: whether it is shared, and its hash. -/
  containerSpec : Bytes → Option (Bool × Bytes)
  /-- The artifact of a `database://` LOCATION: the hash of its cache and its name there. -/
  resolveDatabaseWorker : Bytes → Option (Bytes × Bytes)

/-- The processes there are. -/
inductive Launched
  | artifact | container | command
  deriving DecidableEq

/-- What the policy calls a process; a command that was resolved from a release is `github`. -/
def Launched.transport : Launched → PolicyTransport
  | .artifact => .database
  | .container => .oci
  | .command =>
    if isGithubLocation location || isGithubAutoLocation location then .github else .subprocess

namespace Session

variable (c : Session)

def resolveWorkerPath : Option Bytes :=
  if isGithubLocation location || isGithubAutoLocation location then c.resolveGithubWorker location
  else some location

def spawnWorker (path : Bytes) : Option Launched :=
  if isResolvedWorkerLocation path then
    if c.acquireResolvedWorkerLaunch path then some .artifact else none
  else if isContainerLocation path then some .container
  else some .command

/-- Start the worker of a LOCATION as a process. -/
def runProcess : Option PolicyTransport :=
  (c.resolveWorkerPath location).bind fun path => (c.spawnWorker path).map (·.transport location)

/-- The transport of a new connection, `none` if the LOCATION is refused. -/
def createFunctionConnection : Option PolicyTransport :=
  if isHttpTransport location then
    some (if startsWith (lower location) (ascii "https://") then .https else .http)
  else if isHttpiTransport location then if c.iroh then some .httpi else none
  else if isIrohTransport location then if c.iroh then some .iroh else none
  else if isContainerSharedLocation location then
    if c.lookupSharedContainer location then some .oci else none
  else if isTcpTransport location then some .tcp
  else if isLaunchLocation location || isUnixLocation location then
    -- one branch for both; a socket that is named is connected to, any other is launched
    some (if isUnixLocation location then .unix else .launch)
  else if isGithubLocation location || isGithubAutoLocation location then c.runProcess location
  else c.runProcess location

/-- The transport of a call, `none` if the LOCATION is refused. -/
def invokeUnaryRpcOnTransport : Option PolicyTransport :=
  if isHttpTransport location then
    some (if startsWith (lower location) (ascii "https://") then .https else .http)
  else if isHttpiTransport location then some .httpi
  else if isIrohTransport location then if c.iroh then some .iroh else none
  else if isContainerSharedLocation location then
    if c.lookupSharedContainer location then some .oci else none
  else if isTcpTransport location then some .tcp
  else if isLaunchLocation location || isUnixLocation location then
    some (if isUnixLocation location then .unix else .launch)
  else c.runProcess location

/-- The LOCATION under which ATTACH runs a worker. -/
def attachLocation : Option Bytes :=
  (if isContainerLocation location then
      (c.containerSpec location).map fun spec =>
        if spec.1 then ascii "container-shared:" ++ location ++ ascii "#" ++ spec.2
        else location ++ ascii "#" ++ spec.2
    else some location).bind fun path =>
  if isDatabaseLocation path then
    (c.resolveDatabaseWorker path).map fun artifact =>
      ascii "vgi-artifact:" ++ artifact.1 ++ ascii ":" ++ artifact.2
  else some path

/-- The LOCATION that gets to the dispatchers; only ATTACH replaces it. -/
def dispatched (entry : LocationEntryPoint) (location : Bytes) : Option Bytes :=
  if entry = .attach then c.attachLocation location else some location

/-- The file that the LOCATION is resolved to, if it names a release, is a command: it is not named
    like a container, nor like an artifact that there is. -/
def ResolvesToCommand : Prop :=
  ∀ path, c.resolveWorkerPath location = some path →
    isGithubLocation location || isGithubAutoLocation location →
    isContainerLocation path = false ∧
      (isResolvedWorkerLocation path = true → c.acquireResolvedWorkerLaunch path = false)

variable {c}

/-! ## They agree -/

variable {location : Bytes} {t : PolicyTransport}

/-- Both dispatchers use one transport. -/
theorem createFunctionConnection_le
    (h : c.createFunctionConnection location = some t) : c.invokeUnaryRpcOnTransport location = some t := by
  rw [createFunctionConnection] at h
  rw [invokeUnaryRpcOnTransport]
  split_ifs at h ⊢ <;> exact h

/-- A process that is started for a LOCATION that is neither a token nor `database://`. -/
theorem runProcess_eq (hpl : c.ResolvesToCommand location)
    (har : isResolvedWorkerLocation location = false) (h : c.runProcess location = some t) :
    t = if isGithubLocation location || isGithubAutoLocation location then .github
      else if isContainerLocation location then .oci else .subprocess := by
  obtain ⟨path, hpt, hsp⟩ := bind_eq_some_iff.1 h
  obtain ⟨launched, hln, rfl⟩ := map_eq_some_iff.1 hsp
  split_ifs with hgt hct
  · -- the file of a release: it is a command, so it is started as one
    obtain ⟨hno, hno'⟩ := hpl path hpt hgt
    rw [spawnWorker, if_neg (Bool.eq_false_iff.1 hno)] at hln
    split_ifs at hln with hrs haq
    · rw [hno' hrs] at haq
      cases haq
    · cases hln
      exact if_pos hgt
  all_goals
    obtain rfl : location = path := by rwa [resolveWorkerPath, if_neg hgt, some_inj] at hpt
    simp only [spawnWorker, har, hct, Bool.false_eq_true, if_true, if_false] at hln
    cases hln
  · rfl
  · exact if_neg hgt

variable {entry : LocationEntryPoint}

/-- The dispatchers use the transport of the classification, but for `database://`. -/
theorem invoke_eq_classify {t' : PolicyTransport} (hpl : c.ResolvesToCommand location)
    (hdb : isDatabaseLocation location = false) (hcl : classifyLocationForPolicy location entry = .ok t)
    (h : c.invokeUnaryRpcOnTransport location = some t') : t' = t := by
  rw [classifyLocationForPolicy] at hcl
  rw [invokeUnaryRpcOnTransport] at h
  by_cases htok : isResolvedWorkerLocation location || isContainerSharedLocation location
  · rw [if_pos htok] at hcl
    cases hcl
  rw [if_neg htok] at hcl
  rw [Bool.or_eq_true, not_or] at htok
  -- from here on the two chains are walked down together
  by_cases hht : isHttpTransport location
  · rw [if_pos hht] at hcl h
    exact (some.inj h).symm.trans (Except.ok.inj hcl)
  rw [if_neg hht] at hcl h
  by_cases hhtp : isHttpiTransport location
  · rw [if_pos hhtp] at hcl h
    exact (some.inj h).symm.trans (Except.ok.inj hcl)
  rw [if_neg hhtp] at hcl h
  by_cases hir : isIrohTransport location
  · rw [if_pos hir] at hcl h
    obtain ⟨-, hsm⟩ := ite_none_right_eq_some.1 h
    exact (some.inj hsm).symm.trans (Except.ok.inj hcl)
  rw [if_neg hir] at hcl h
  rw [if_neg htok.2] at h
  by_cases htc : isTcpTransport location
  · rw [if_pos htc] at hcl h
    exact (some.inj h).symm.trans (Except.ok.inj hcl)
  rw [if_neg htc] at hcl h
  by_cases hln : isLaunchLocation location
  · -- no LOCATION is both launched and connected to
    have hun : isUnixLocation location = false := startsWith_unique hln rfl rfl
    rw [if_pos hln] at hcl
    rw [hln, hun, Bool.true_or, if_pos rfl] at h
    exact (some.inj h).symm.trans (Except.ok.inj hcl)
  rw [if_neg hln] at hcl
  rw [Bool.not_eq_true] at hln
  rw [hln, Bool.false_or] at h
  by_cases hun : isUnixLocation location
  · rw [if_pos hun] at hcl h
    rw [if_pos hun] at h
    exact (some.inj h).symm.trans (Except.ok.inj hcl)
  rw [if_neg hun] at hcl h
  -- what is left is started as a process
  rw [hdb, if_neg Bool.false_ne_true] at hcl
  have ht := runProcess_eq hpl (Bool.not_eq_true _ ▸ htok.1) h
  split_ifs at hcl ht with hgt hct
  all_goals exact ht.trans (Except.ok.inj hcl)

/-! ## What ATTACH replaces -/

theorem invoke_containerShared {x : Bytes}
    (h : c.invokeUnaryRpcOnTransport (ascii "container-shared:" ++ x) = some t) : t = .oci := by
  have hst : c.invokeUnaryRpcOnTransport (ascii "container-shared:" ++ x) =
      if c.lookupSharedContainer (ascii "container-shared:" ++ x) then some .oci else none := rfl
  rw [hst] at h
  exact (some.inj (ite_none_right_eq_some.1 h).2).symm

theorem invoke_artifact {x : Bytes}
    (h : c.invokeUnaryRpcOnTransport (ascii "vgi-artifact:" ++ x) = some t) : t = .database := by
  have hst : c.invokeUnaryRpcOnTransport (ascii "vgi-artifact:" ++ x) =
      (if c.acquireResolvedWorkerLaunch (ascii "vgi-artifact:" ++ x) then some Launched.artifact
        else none).map (·.transport (ascii "vgi-artifact:" ++ x)) := rfl
  rw [hst] at h
  obtain ⟨launched, hln, rfl⟩ := map_eq_some_iff.1 h
  obtain rfl := some.inj (ite_none_right_eq_some.1 hln).2
  rfl

/-- A LOCATION that no branch claims is started as a process. -/
theorem invoke_of_noBranch {w : Bytes} (hw : NoBranch w) : c.invokeUnaryRpcOnTransport w = c.runProcess w := by
  simp only [invokeUnaryRpcOnTransport, hw.http, hw.httpi, hw.iroh, hw.shared, hw.tcp, hw.launch,
    hw.unix, Bool.false_eq_true, if_false, Bool.or_false]

theorem invoke_container {w : Bytes} (hw : isContainerLocation w = true)
    (h : c.invokeUnaryRpcOnTransport w = some t) : t = .oci := by
  have hno := noBranch_of_container hw
  have hgt := not_github_of_replaced (.inl hw)
  have hpl : c.ResolvesToCommand w := fun _ _ h' => absurd h' hgt
  rw [invoke_of_noBranch hno] at h
  rw [runProcess_eq hpl hno.artifact h, if_neg hgt, if_pos hw]

/-- Of a LOCATION that is connected to by starting a process, the classification asks what process that is. -/
theorem classify_of_noBranch {s : Bytes} (hs : NoBranch s) (entry : LocationEntryPoint) :
    classifyLocationForPolicy s entry = if isGithubLocation s || isGithubAutoLocation s then .ok .github
      else if isContainerLocation s then .ok .oci
      else if isDatabaseLocation s then
        if entry = .attach then .ok .database else .error (unresolvedDatabaseRefusal entry)
      else .ok .subprocess := by
  simp only [classifyLocationForPolicy, hs.http, hs.httpi, hs.iroh, hs.shared, hs.tcp, hs.launch,
    hs.unix, hs.artifact, Bool.false_eq_true, if_false, Bool.or_false]

/-- A release whose file is named like something else is checked as a release, and that is run. -/
theorem exists_of_not_command (h : ¬c.ResolvesToCommand location) (entry : LocationEntryPoint) :
    classifyLocationForPolicy location entry = .ok .github ∧ c.dispatched entry location = some location ∧
      ∃ t, (t = .oci ∨ t = .database) ∧ c.invokeUnaryRpcOnTransport location = some t := by
  simp only [ResolvesToCommand, not_forall] at h
  obtain ⟨path, hpt, hgt, hno⟩ := h
  have hnb := noBranch_of_github hgt
  refine ⟨by rw [classify_of_noBranch hnb, if_pos hgt], ?_, ?_⟩
  · rw [dispatched, attachLocation, if_neg fun hct => not_github_of_replaced (.inl hct) hgt, bind_some,
      if_neg fun hdb => not_github_of_replaced (.inr hdb) hgt, ite_self]
  · rw [invoke_of_noBranch hnb, runProcess, hpt, bind_some, spawnWorker]
    by_cases hct : isContainerLocation path = true
    · rw [(noBranch_of_container hct).artifact, if_pos hct]
      exact ⟨_, .inl rfl, rfl⟩
    · obtain ⟨hrs, haq⟩ : isResolvedWorkerLocation path = true ∧ c.acquireResolvedWorkerLaunch path = true := by
        simpa [hct] using hno
      rw [if_pos hrs, if_pos haq]
      exact ⟨_, .inr rfl, rfl⟩

/-- For what gets to the dispatchers, they use the transport under which the policy was asked. -/
theorem dispatched_eq_classify {w : Bytes} {t' : PolicyTransport} (hpl : c.ResolvesToCommand location)
    (hcl : classifyLocationForPolicy location entry = .ok t) (hw : c.dispatched entry location = some w)
    (h : c.createFunctionConnection w = some t' ∨ c.invokeUnaryRpcOnTransport w = some t') : t' = t := by
  replace h : c.invokeUnaryRpcOnTransport w = some t' := h.elim createFunctionConnection_le id
  rw [dispatched] at hw
  by_cases hct : isContainerLocation location
  · rw [classify_of_noBranch (noBranch_of_container hct), if_neg (not_github_of_replaced (.inl hct)), if_pos hct] at hcl
    have ht' : t' = .oci := by
      split_ifs at hw with hent
      · -- ATTACH gives the container another name, or the token of a shared one
        obtain ⟨path, hpt, hw⟩ := bind_eq_some_iff.1 hw
        rw [if_pos hct] at hpt
        obtain ⟨spec, -, rfl⟩ := map_eq_some_iff.1 hpt
        split_ifs at hw with hsh hdb hdb
        · cases hdb
        · cases hw
          rw [append_assoc, append_assoc] at h
          exact invoke_containerShared h
        · rw [append_assoc] at hdb
          rw [not_database_of_container (isContainerLocation_append hct _)] at hdb
          cases hdb
        · cases hw
          rw [append_assoc] at h
          exact invoke_container (isContainerLocation_append hct _) h
      · cases hw
        exact invoke_container hct h
    exact ht'.trans (Except.ok.inj hcl)
  by_cases hdb : isDatabaseLocation location
  · rw [classify_of_noBranch (noBranch_of_database hdb), if_neg (not_github_of_replaced (.inr hdb)), if_neg hct,
      if_pos hdb] at hcl
    split_ifs at hw hcl with hent
    · -- the token of the artifact
      rw [attachLocation, if_neg hct, bind_some, if_pos hdb] at hw
      obtain ⟨artifact, -, rfl⟩ := map_eq_some_iff.1 hw
      rw [append_assoc, append_assoc] at h
      exact (invoke_artifact h).trans (Except.ok.inj hcl)
  · -- any other LOCATION gets there as it is
    have hsm : location = w := by
      split_ifs at hw with hent
      · rwa [attachLocation, if_neg hct, bind_some, if_neg hdb, some_inj] at hw
      · exact some.inj hw
    subst hsm
    exact invoke_eq_classify hpl (Bool.not_eq_true _ ▸ hdb) hcl h

end Session

end Vgi
