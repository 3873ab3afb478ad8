import Vgi.Github.Resolve
import Vgi.Lib.Threads

/-!
# The location policy

A database has a set of transports that its users may reach, a bit for each
(`vgi_allowed_transports`). It is checked where a LOCATION enters (`checkLocationPolicy`), and it can
only be narrowed: `Narrow` loads the set, refuses what would add to it, and puts the new set in its
place with a compare-and-swap, which it tries again when another call came first. Its calls are
threads, so the runs of `narrow` are all their interleavings.

* `narrow_shrinks`: the set only shrinks;
* `narrow_returned`: after a call has returned, the set is one of what it was asked to narrow to;
* `location_policy`: these, and no LOCATION that passes the check reaches a transport outside of the
  set. This rests on the directory into which workers of releases are unpacked: it is a setting that
  the policy does not govern, and if it is named like a container, a container is what is run.
-/

namespace Vgi

open PolicyTransport

/-! ## Sets of transports -/

/-- The bit of a transport. -/
def PolicyTransport.bit : PolicyTransport → BitVec 32
  | .subprocess => 1#32 <<< 0
  | .launch => 1#32 <<< 1
  | .unix => 1#32 <<< 2
  | .oci => 1#32 <<< 3
  | .github => 1#32 <<< 4
  | .database => 1#32 <<< 5
  | .http => 1#32 <<< 6
  | .https => 1#32 <<< 7
  | .tcp => 1#32 <<< 8
  | .httpi => 1#32 <<< 9
  | .iroh => 1#32 <<< 10
  | .worker => 1#32 <<< 11

def policyTransportName : PolicyTransport → Bytes
  | .subprocess => ascii "subprocess"
  | .launch => ascii "launch"
  | .unix => ascii "unix"
  | .oci => ascii "oci"
  | .github => ascii "github"
  | .database => ascii "database"
  | .http => ascii "http"
  | .https => ascii "https"
  | .tcp => ascii "tcp"
  | .httpi => ascii "httpi"
  | .iroh => ascii "iroh"
  | .worker => ascii "worker"

/-- Transports that start a process or connect to one of this machine. -/
def localTransports : List PolicyTransport := [.subprocess, .launch, .unix, .oci, .github, .database]

/-- All of them, in the order in which they are written. -/
def allTransports : List PolicyTransport := localTransports ++ [.http, .https, .tcp, .httpi, .iroh, .worker]

def maskOf (ts : List PolicyTransport) : BitVec 32 := ts.foldl (fun mask t => mask ||| t.bit) 0#32

def formatAllowedTransports (mask : BitVec 32) : Bytes :=
  if mask = maskOf allTransports then ascii "all"
  else if mask = 0#32 then ascii "none"
  else [44].intercalate ((allTransports.filter fun t => mask &&& t.bit ≠ 0#32).map policyTransportName)

/-- The transport is in the set. -/
def Allows (mask : BitVec 32) (t : PolicyTransport) : Prop := mask &&& t.bit ≠ 0#32

/-- The set adds nothing to the other one. -/
def Narrows (mask mask' : BitVec 32) : Prop := mask &&& ~~~mask' = 0#32

theorem narrows_iff {a b : BitVec 32} : Narrows a b ↔ ∀ i < 32, a.getLsbD i = true → b.getLsbD i = true := by
  rw [Narrows, BitVec.eq_of_getLsbD_eq_iff]
  refine forall₂_congr fun i hi => ?_
  rw [BitVec.getLsbD_and, BitVec.getLsbD_not, BitVec.getLsbD_zero, Bool.and_eq_false_imp]
  simp [hi]

theorem Narrows.refl (a : BitVec 32) : Narrows a a := narrows_iff.2 fun _ _ h => h

theorem Narrows.trans {a b c : BitVec 32} (hab : Narrows a b) (hbc : Narrows b c) : Narrows a c :=
  narrows_iff.2 fun i hi h => narrows_iff.1 hbc i hi (narrows_iff.1 hab i hi h)

/-! ## The check -/

def settingName : Bytes := ascii "vgi_allowed_transports"

/-- Whether a LOCATION may be used, under the set that is allowed now. -/
def checkLocationPolicy (allowed : BitVec 32) (externalAccess : Bool) (location : Bytes)
    (entry : LocationEntryPoint) : Except Bytes Unit := do
  let transport ← classifyLocationForPolicy location entry
  if allowed &&& transport.bit = 0#32 then
    .error (ascii "vgi: LOCATION transport '" ++ policyTransportName transport ++
      ascii "' is not permitted by " ++ settingName ++ ascii " (allowed: " ++
      formatAllowedTransports allowed ++ ascii ")")
  else if transport.bit &&& maskOf localTransports ≠ 0#32 ∧ ¬externalAccess then
    .error (ascii "vgi: LOCATION transport '" ++ policyTransportName transport ++
      ascii "' is local (it can start a process or connect to local IPC) and is not permitted while " ++
      ascii "enable_external_access is false")
  else .ok ()

variable {allowed : BitVec 32}

theorem allows_of_check {externalAccess : Bool} {location : Bytes} {entry : LocationEntryPoint}
    (h : checkLocationPolicy allowed externalAccess location entry = .ok ()) :
    ∃ t, classifyLocationForPolicy location entry = .ok t ∧ Allows allowed t := by
  obtain ⟨t, ht, h⟩ := bind_eq_ok.1 h
  refine ⟨t, ht, fun hzr => ?_⟩
  rw [if_pos hzr] at h
  cases h

/-! ## Narrowing -/

/-- Where a call of `Narrow` is. -/
inductive NarrowStage
  | load
  | loaded (current : BitVec 32)
  | returned
  | threw (message : Bytes)
  deriving DecidableEq

/-- A call of `Narrow`. -/
structure NarrowCall where
  requested : BitVec 32
  stage : NarrowStage
  deriving DecidableEq

def widenRefusal (current requested : BitVec 32) : Bytes :=
  ascii "Cannot widen " ++ settingName ++ ascii " while the database is running (currently '" ++
    formatAllowedTransports current ++ ascii "'; '" ++ formatAllowedTransports requested ++
    ascii "' would add '" ++ formatAllowedTransports (requested &&& ~~~current) ++
    ascii "'). The restriction lasts for the life of the database instance."

/-- The calls of `Narrow` over the set that is allowed. A step is told whether its compare-and-swap
    fails without reason, as a weak one may. -/
def narrow : Threads (BitVec 32) NarrowCall (BitVec 32) Bool where
  spawn allowed _ requested := some (allowed, ⟨requested, .load⟩)
  step allowed _ call spurious :=
    match call.stage with
    | .load => some (allowed, { call with stage := .loaded allowed })
    | .loaded current =>
      if call.requested &&& ~~~current ≠ 0#32 then
        some (allowed, { call with stage := .threw (widenRefusal current call.requested) })
      else if allowed = current ∧ ¬spurious then
        some (call.requested, { call with stage := .returned })
      else some (allowed, { call with stage := .loaded allowed })
    | .returned | .threw _ => none

/-- A step leaves the set alone, or it is the one in which a call returns and narrows it. -/
theorem narrow_step {allowed' : BitVec 32} {i : ℕ} {call call' : NarrowCall} {spurious : Bool}
    (h : narrow.step allowed i call spurious = some (allowed', call')) :
    call'.requested = call.requested ∧
      (allowed' = allowed ∧ call'.stage ≠ .returned ∨ allowed' = call.requested ∧ Narrows call.requested allowed) := by
  rcases call with ⟨requested, stage⟩
  rw [narrow] at h
  match stage, h with
  | .load, h =>
    cases h
    exact ⟨rfl, .inl ⟨rfl, nofun⟩⟩
  | .loaded current, h =>
    dsimp only at h
    split_ifs at h with had hsw
    · cases h
      exact ⟨rfl, .inl ⟨rfl, nofun⟩⟩
    · -- the set is still the one that was loaded, to which the new one adds nothing
      cases h
      rw [hsw.1]
      exact ⟨rfl, .inr ⟨rfl, not_not.1 had⟩⟩
    · cases h
      exact ⟨rfl, .inl ⟨rfl, nofun⟩⟩

variable {s : Threads.Config (BitVec 32) NarrowCall} {acts : List (Threads.Act (BitVec 32) Bool)}

/-- The set only shrinks. -/
theorem narrow_shrinks {s' : Threads.Config (BitVec 32) NarrowCall} (h : narrow.machine.run s acts = some s') :
    Narrows s'.shared s.shared := by
  refine Machine.run_invariant (I := fun s₁ => Narrows s₁.shared s.shared)
    (fun {s₁ a s₂} hs₁ hst => ?_) (Narrows.refl _) h
  rcases a with requested | ⟨i, spurious⟩
  · obtain ⟨g, l, hgl, rfl⟩ := Threads.machine_spawn hst
    cases hgl
    exact hs₁
  · obtain ⟨l, g, l', -, hgl, rfl⟩ := Threads.machine_step hst
    rcases (narrow_step hgl).2 with ⟨rfl, -⟩ | ⟨rfl, hnr⟩
    · exact hs₁
    · exact hnr.trans hs₁

/-- What has returned has narrowed the set, and no other call widens it again. -/
theorem narrow_outline :
    narrow.Outline {} (fun _ _ => True) fun allowed _ call =>
      call.stage = .returned → Narrows allowed call.requested where
  spawn := by
    intro allowed n requested allowed' call _ _ h
    cases h
    exact ⟨trivial, nofun, fun _ _ _ hcl => hcl⟩
  step := by
    intro allowed n i call spurious allowed' call' _ _ _ _ h
    obtain ⟨hrq, ⟨rfl, hst⟩ | ⟨rfl, hnr⟩⟩ := narrow_step h
    · exact ⟨trivial, fun hrt => absurd hrt hst, fun _ _ _ hcl => hcl⟩
    · refine ⟨trivial, fun _ => hrq ▸ Narrows.refl _, fun j other _ hcl hrt => ?_⟩
      exact hnr.trans (hcl hrt)

theorem narrow_returned (h : narrow.machine.run ⟨allowed, []⟩ acts = some s) {i : ℕ} {call : NarrowCall}
    (hcl : s.locals[i]? = some call) (hstg : call.stage = .returned) : Narrows s.shared call.requested := by
  have hst : Threads.Config.Meets (fun _ _ => True)
      (fun allowed _ (call : NarrowCall) => call.stage = .returned → Narrows allowed call.requested)
      ⟨allowed, []⟩ := ⟨trivial, nofun⟩
  have hmt := narrow_outline.run hst (Machine.along_of_forall Threads.Rule.at_any _ _) h
  exact hmt.locals i call hcl hstg

/-! ## The policy holds -/

/-- The dispatchers use the transport under which a LOCATION was checked, and so one that passes reaches
    none outside of the set, exactly if the file of a release is started as a command. In all
    interleavings of calls of `Narrow` the set only shrinks, and once a call has returned, it is one of
    what the call was asked for. -/
theorem location_policy (c : Session) (location : Bytes) (entry : LocationEntryPoint) :
    ((∀ t w t', classifyLocationForPolicy location entry = .ok t → c.dispatched entry location = some w →
      (c.createFunctionConnection w = some t' ∨ c.invokeUnaryRpcOnTransport w = some t') → t' = t) ↔
      c.ResolvesToCommand location) ∧
    ((∀ allowed externalAccess, checkLocationPolicy allowed externalAccess location entry = .ok () →
      ∀ w t', c.dispatched entry location = some w →
        (c.createFunctionConnection w = some t' ∨ c.invokeUnaryRpcOnTransport w = some t') →
          Allows allowed t') ↔ c.ResolvesToCommand location) ∧
    (∀ s acts s', narrow.machine.run s acts = some s' → Narrows s'.shared s.shared) ∧
    ∀ allowed acts s, narrow.machine.run ⟨allowed, []⟩ acts = some s → ∀ (i : ℕ) call, s.locals[i]? = some call →
      call.stage = .returned → Narrows s.shared call.requested := by
  refine ⟨⟨fun h => ?_, fun hcm t w t' => Session.dispatched_eq_classify hcm⟩,
    ⟨fun h => ?_, fun hcm allowed ext hch w t' hw h => ?_⟩,
    fun s acts s' h => narrow_shrinks h, fun allowed acts s h i call hcl hst => narrow_returned h hcl hst⟩
  · by_contra hno
    obtain ⟨hcls, hw, t, ht, hinv⟩ := Session.exists_of_not_command hno entry
    obtain rfl := h _ _ _ hcls hw (.inr hinv)
    rcases ht with ht | ht <;> cases ht
  · by_contra hno
    obtain ⟨hcls, hw, t, ht, hinv⟩ := Session.exists_of_not_command hno entry
    have hch : checkLocationPolicy github.bit true location entry = .ok () := by
      rw [checkLocationPolicy, hcls]
      decide
    have hal := h _ _ hch _ _ hw (.inr hinv)
    rcases ht with rfl | rfl <;> exact hal rfl
  · obtain ⟨t, hcls, hal⟩ := allows_of_check hch
    exact Session.dispatched_eq_classify hcm hcls hw h ▸ hal

/-- A session in which the workers of a release are unpacked as the host says. -/
def releaseSession (P : GithubHost) : Session where
  iroh := false
  lookupSharedContainer _ := false
  resolveGithubWorker location := (P.resolveGithubWorker {} ⟨0, 0, location⟩).1.toOption
  acquireResolvedWorkerLaunch _ := false
  containerSpec _ := none
  resolveDatabaseWorker _ := none

/-- The LOCATION of a member of an archive. -/
def memberLocation : Bytes := ascii "GitHub://o/r@t/w.tar#path=a"

/-- Where only workers of releases are allowed, one is run. -/
theorem member_allowed :
    checkLocationPolicy github.bit true memberLocation .vgiCatalogs = .ok () ∧
    (releaseSession .twoMembers).invokeUnaryRpcOnTransport memberLocation = some .github ∧
    Allows github.bit .github := by
  have hch : checkLocationPolicy github.bit true memberLocation .vgiCatalogs = .ok () := by
    decide +kernel
  have hinv : (releaseSession .twoMembers).invokeUnaryRpcOnTransport memberLocation = some .github := by
    decide +kernel
  have hcm : (releaseSession .twoMembers).ResolvesToCommand memberLocation := by
    rintro path hpt -
    obtain rfl : ascii "/cache/ab/a" = path := Option.some.inj hpt
    decide +kernel
  have hpl := (location_policy _ _ .vgiCatalogs).2.1.2 hcm
  exact ⟨hch, hinv, hpl _ _ hch memberLocation .github rfl (Or.inr hinv)⟩

/-- The same release, where the cache directory is named like a container. -/
def containerCache : Session := releaseSession { GithubHost.twoMembers with cacheDir := ascii "oci://img" }

/-- If workers of releases are unpacked into a directory that is named like a container, then where
    only they are allowed a container is run. -/
theorem containerCache_runs_container :
    checkLocationPolicy github.bit true memberLocation .attach = .ok () ∧
    containerCache.dispatched .attach memberLocation = some memberLocation ∧
    containerCache.createFunctionConnection memberLocation = some .oci ∧
    containerCache.invokeUnaryRpcOnTransport memberLocation = some .oci ∧
    ¬Allows github.bit .oci := by
  refine ⟨by decide +kernel, by decide +kernel, by decide +kernel, by decide +kernel, ?_⟩
  exact fun h => h rfl

end Vgi
