import Vgi.Lib.Flock
import Vgi.Lib.Prog
import Vgi.Lib.Text

/-!
# The cache of worker artifacts

Packages with workers are unpacked into a directory that many processes share. An artifact has a directory of its
own there, with a manifest, and two lock files: one that is held while the directory is worked on, and one, the lease,
that is held by all who use it. The package is unpacked into a staging directory, which is then moved to its place.

Here are the programs that work on it, as they take one lock or one file after the other: `install`, `launch`
(`AcquireResolvedWorkerLaunch`), `pruneWorkerCache` with `cleanupStaging` and `listWorkerCache`, and the end of a lease.
The names of locks and directories are made from a hash, which is taken to tell artifacts apart.
-/

namespace Vgi

variable (H : ArtifactHost)

/-! ## Artifacts -/

/-- The arguments of `Install`, and the limits that are set. -/
structure InstallRequest where
  source : Bytes := []
  contents : Bytes
  format : Bytes
  entrypoint : Bytes
  maxExtractedBytes : ℕ := 1073741824
  maxEntries : ℕ := 10000

/-- What an artifact is identified by. -/
structure ArtifactId where
  digest : Bytes
  format : Bytes
  entrypoint : Bytes
  deriving DecidableEq

/-- The files that unpacking writes, one after the other, and the path of the entrypoint; `none` where it throws
    after these files. -/
structure Unpacked where
  files : List (Bytes × Bytes)
  entry : Option Bytes

structure ArtifactHost where
  sha256Hex : Bytes → Bytes
  /-- `ExtractWorkerPackage`. -/
  unpack : InstallRequest → Unpacked

namespace ArtifactHost

variable (H : ArtifactHost)

def artifactId (req : InstallRequest) : ArtifactId := ⟨H.sha256Hex req.contents, req.format, req.entrypoint⟩

/-- The text of an id. -/
def idText (a : ArtifactId) : Bytes :=
  H.sha256Hex (ascii "vgi-worker-artifact-v1" ++ [0] ++ a.digest ++ [0] ++ a.format ++ [0] ++ a.entrypoint)

end ArtifactHost

/-! ## Manifests -/

def manifestName : Bytes := ascii ".vgi-manifest"

/-- The file that a new manifest is written to. -/
def touchName (k : ℕ) : Bytes := manifestName ++ ascii ".touch-" ++ decimal k

def cleanMeta (value : Bytes) : Bytes := value.filter fun c => c ≠ 10 && c ≠ 13

/-- `ParseMeta(contents)[key]`: of a key that is there more than once, the last value. -/
def metaValue (contents key : Bytes) : Bytes := ((fields contents).reverse.lookup key).getD []

def manifestBody (source : Bytes) (a : ArtifactId) (sizeBytes : ℕ) (now : ℤ) : Bytes :=
  ascii "manifest_version=1\nartifact_id=" ++ cleanMeta (H.idText a) ++ ascii "\nsource=" ++ cleanMeta source ++
    ascii "\ndigest=" ++ cleanMeta a.digest ++ ascii "\npackage_format=" ++ cleanMeta a.format ++
    ascii "\nentrypoint=" ++ cleanMeta a.entrypoint ++ ascii "\nsize_bytes=" ++ decimal sizeBytes ++
    ascii "\ninstalled_at=" ++ decimal now ++ ascii "\nlast_used=" ++ decimal now ++ ascii "\n"

def manifestMatches (a : ArtifactId) (contents : Bytes) : Bool :=
  metaValue contents (ascii "manifest_version") = ascii "1" &&
    metaValue contents (ascii "artifact_id") = H.idText a &&
    metaValue contents (ascii "digest") = a.digest &&
    metaValue contents (ascii "package_format") = a.format &&
    metaValue contents (ascii "entrypoint") = a.entrypoint

/-- The time after the first `last_used=`, wherever it is, up to the end of the line. -/
def replaceLastUsed (now : ℤ) : Bytes → Option Bytes
  | [] => none
  | c :: s =>
    let key := ascii "last_used="
    if startsWith (c :: s) key then some (key ++ decimal now ++ ((c :: s).drop key.length).dropWhile (· ≠ 10))
    else (replaceLastUsed now s).map (c :: ·)

section

open List

/-- `TouchLastUsed`, when the file can be written. -/
def touch (contents : Bytes) (now : ℤ) : Bytes := (replaceLastUsed now contents).getD contents

/-- The lines `x` of a manifest, and the last one. -/
def stamped (x : Bytes) (now : ℤ) : Bytes := x ++ 10 :: (ascii "last_used=" ++ (decimal now ++ [10]))

theorem fields_stamped (x : Bytes) (now : ℤ) :
    fields (stamped x now) = fields x ++ [(ascii "last_used", decimal now)] := by
  have hln : 10 ∉ ascii "last_used=" ++ decimal now := by
    rw [mem_append, not_or]
    exact ⟨by decide, notMem_decimal now⟩
  rw [fields, stamped, splitOn_append_cons_self, ← append_assoc, splitOn_append_cons_self,
    splitOn_eq_singleton hln, filterMap_append]
  rfl

/-- The time is written into the lines `x` if `last_used=` is found there, and else into the last one. -/
theorem replaceLastUsed_stamped (x : Bytes) (s t : ℤ) :
    (ascii "last_used=" <:+: x ∧ ∃ x', replaceLastUsed t (stamped x s) = some (stamped x' s)) ∨
      ¬ascii "last_used=" <:+: x ∧ replaceLastUsed t (stamped x s) = some (stamped x t) := by
  induction x with
  | nil =>
    have hdr : (decimal s ++ [10]).dropWhile (· ≠ 10) = [10] := dropWhile_append_of_pos fun b hb =>
      decide_eq_true (ne_of_mem_of_not_mem hb (notMem_decimal s))
    exact .inr ⟨by decide, by simpa [stamped, replaceLastUsed, startsWith, ascii] using hdr⟩
  | cons c x ih =>
    have hst : startsWith (stamped (c :: x) s) (ascii "last_used=") = true ↔ ascii "last_used=" <+: c :: x :=
      startsWith_iff.trans (prefix_append_cons_iff (by decide) _ _)
    have hcn : c :: stamped x s = stamped (c :: x) s := rfl
    rw [← hcn] at hst ⊢
    rw [replaceLastUsed, infix_cons_iff]
    by_cases hc : ascii "last_used=" <+: c :: x
    · obtain ⟨m, hm⟩ := id hc
      refine .inl ⟨.inl hc, ascii "last_used=" ++ (decimal t ++ m.dropWhile (· ≠ 10)), ?_⟩
      rw [if_pos (hst.2 hc), hcn, ← hm, stamped, append_assoc _ m, drop_left, dropWhile_append]
      split <;> simp_all [stamped]
    rw [if_neg (hst.not.2 hc)]
    rcases ih with ⟨hin, x', hx⟩ | ⟨hout, hx⟩
    · exact .inl ⟨.inr hin, c :: x', by rw [hx]; rfl⟩
    · exact .inr ⟨not_or.2 ⟨hc, hout⟩, by rw [hx]; rfl⟩

/-- The lines before the last one, and the last. -/
theorem manifestBody_eq (source : Bytes) (a : ArtifactId) (size : ℕ) (now : ℤ) :
    ∃ x, manifestBody H source a size now = stamped x now ∧ (ascii "last_used=" <:+: x ↔
      ∃ v ∈ [H.idText a, source, a.digest, a.format, a.entrypoint], ascii "last_used=" <:+: cleanMeta v) := by
  have hcut := @infix_append_cons_iff 10 (ascii "last_used=") (by decide)
  have hnm n : ¬ascii "last_used=" <:+: decimal n := fun h =>
    @notMem_decimal 108 n (by decide) (by decide) (h.subset (by decide))
  refine ⟨ascii "manifest_version=1\nartifact_id=" ++ cleanMeta (H.idText a) ++ ascii "\nsource=" ++ cleanMeta source ++
    ascii "\ndigest=" ++ cleanMeta a.digest ++ ascii "\npackage_format=" ++ cleanMeta a.format ++
    ascii "\nentrypoint=" ++ cleanMeta a.entrypoint ++ ascii "\nsize_bytes=" ++ decimal size ++
    ascii "\ninstalled_at=" ++ decimal now, by simp [manifestBody, stamped, ascii], ?_⟩
  simp [ascii] at hcut hnm ⊢
  simp [hcut, hnm, infix_cons_iff]

/-- In a manifest, touches change the time and nothing else, as long as no string in it contains `last_used=`. -/
theorem touched_iff (source : Bytes) (a : ArtifactId) (size : ℕ) (now : ℤ) : (∀ times : List ℤ,
      let body := manifestBody H source a size now
      let touched := times.foldl touch body
      metaValue touched (ascii "last_used") = decimal (times.getLastD now) ∧
        ∀ key ≠ ascii "last_used", (fields touched).reverse.lookup key = (fields body).reverse.lookup key) ↔
      ∀ v ∈ [H.idText a, source, a.digest, a.format, a.entrypoint], ¬ascii "last_used=" <:+: cleanMeta v := by
  obtain ⟨x, hbd, hx⟩ := manifestBody_eq H source a size now
  have hls x now : metaValue (stamped x now) (ascii "last_used") = decimal now := by
    rw [metaValue, fields_stamped, reverse_append]
    rfl
  constructor
  · intro h v hv hfn
    obtain ⟨-, x', hx'⟩ := (replaceLastUsed_stamped x now (now + 1)).resolve_right fun hout =>
      hout.1 (hx.2 ⟨v, hv, hfn⟩)
    have htc := (h [now + 1]).1
    rw [hbd, foldl_cons, touch, hx', foldl_nil, Option.getD_some, hls] at htc
    exact absurd (decimal_inj htc) (by simp)
  · intro h times
    have hno : ¬ascii "last_used=" <:+: x := fun hfn => by
      obtain ⟨v, hv, hfn⟩ := hx.1 hfn
      exact h v hv hfn
    have htc : times.foldl touch (stamped x now) = stamped x (times.getLastD now) := by
      clear hbd hx
      induction times generalizing now with
      | nil => rfl
      | cons t times ih =>
        obtain ⟨-, hx'⟩ := (replaceLastUsed_stamped x now t).resolve_left fun hin => hno hin.1
        rw [foldl_cons, touch, hx', getLastD_cons]
        exact ih t
    dsimp only
    rw [hbd, htc, hls, fields_stamped, fields_stamped, reverse_append, reverse_append]
    refine ⟨rfl, fun key hkey => ?_⟩
    simp [lookup_cons, beq_false_of_ne hkey]

/-- A source that contains `last_used=`: the time is written there. -/
theorem touch_source :
    let body := manifestBody ⟨id, fun _ => ⟨[], none⟩⟩ (ascii "/last_used=/w") ⟨[], [], []⟩ 1 5
    metaValue (touch body 9) (ascii "last_used") = ascii "5" ∧
      metaValue (touch body 9) (ascii "source") = ascii "/last_used=9" := by
  decide +kernel

end

/-! ## Files -/

/-- The files below a directory, by their paths, with their contents. -/
abbrev StoredFiles := List (Bytes × Bytes)

namespace StoredFiles

variable (t : StoredFiles)

def write (path contents : Bytes) : StoredFiles := (path, contents) :: t.filter fun f => f.1 ≠ path

def remove (path : Bytes) : StoredFiles := t.filter fun f => f.1 ≠ path

/-- The path is the other one or leads to something below it. -/
def under (path p : Bytes) : Bool := p = path || startsWith p (path ++ [47])

/-- Remove a file, or a directory with all below it. -/
def removeAll (path : Bytes) : StoredFiles := t.filter fun f => !under path f.1

def isDirectory (path : Bytes) : Bool := t.any fun f => startsWith f.1 (path ++ [47])

def writeAll (files : List (Bytes × Bytes)) : StoredFiles := files.foldl (fun t f => t.write f.1 f.2) t

/-- The sum of the sizes. -/
def size : ℕ := (t.map fun f => f.2.length).sum

end StoredFiles

/-- The directory of an artifact, and what it was made from. -/
structure ArtifactDir where
  request : InstallRequest
  files : StoredFiles

/-- The directories for what is not finished, or to be removed. -/
inductive StagingName
  | unpacked (a : ArtifactId) (k : ℕ)
  | trash (a : ArtifactId)
  deriving DecidableEq

def StagingName.id : StagingName → ArtifactId
  | unpacked a _ => a
  | trash a => a

/-! ## The state -/

/-- A pointer of a thread to a lease, which is an open lock file. -/
structure LeaseOwner where
  handle : ℕ
  id : ArtifactId
  thread : ℕ
  deriving DecidableEq

/-- A lease that was returned to a caller: by `Install` or not, and the files that were there then, of those that
    had been unpacked. -/
structure HeldLease where
  owner : LeaseOwner
  installed : Bool
  files : List (Bytes × Bytes)
  deriving DecidableEq

structure ArtifactWorld where
  artifacts : ArtifactId → Option ArtifactDir := fun _ => none
  staging : StagingName → Option StoredFiles := fun _ => none
  /-- The lock files, and how often one of the leases was opened so far. -/
  install : ArtifactId → Flock := fun _ => .free
  lease : ArtifactId → Flock := fun _ => .free
  nextHandle : ℕ := 0
  /-- The pointers that keep a lease open. -/
  owners : List LeaseOwner := []
  /-- In each process, the lease that was last registered for an artifact. It is not kept open by this. -/
  registry : ℕ → ArtifactId → Option ℕ := fun _ _ => none
  registryMutex : ℕ → Option ℕ := fun _ => none
  stagingCounter : ℕ → ℕ := fun _ => 0
  leases : List HeldLease := []

/-- What is decided elsewhere: if an operation fails, what is found in a directory and in which order, the time. -/
structure ArtifactInput where
  fails : Bool := false
  names : List StagingName := []
  ids : List ArtifactId := []
  paths : List Bytes := []
  now : ℤ := 0

inductive ArtifactError
  /-- An operation on files or locks. -/
  | io
  /-- The limits are not greater than zero. -/
  | limits
  /-- The package cannot be unpacked. -/
  | package
  /-- The entrypoint is not the one that was asked for. -/
  | entrypoint
  /-- There is no entrypoint when the lease has been acquired. -/
  | disappeared
  | notRegistered
  deriving DecidableEq

abbrev ArtifactProg := Prog ArtifactWorld ArtifactInput

abbrev ArtifactM := ExceptT ArtifactError ArtifactProg

open Prog Function

/-- A directory that can be removed. -/
inductive Location
  | artifact (a : ArtifactId)
  | staging (s : StagingName)

/-- Change the files in a directory that is there. -/
def ArtifactWorld.mapFiles (g : ArtifactWorld) (f : StoredFiles → StoredFiles) : Location → ArtifactWorld
  | .artifact a => { g with
      artifacts := update g.artifacts a ((g.artifacts a).map fun dir => { dir with files := f dir.files }) }
  | .staging s => { g with staging := update g.staging s ((g.staging s).map f) }

/-- Remove a directory that is empty. -/
def ArtifactWorld.rmdir (g : ArtifactWorld) : Location → ArtifactWorld
  | .artifact a => { g with artifacts := update g.artifacts a ((g.artifacts a).filter fun dir => dir.files ≠ []) }
  | .staging s => { g with staging := update g.staging s ((g.staging s).filter (· ≠ [])) }

/-- The files of a directory that were unpacked, but for the manifest. -/
def ArtifactDir.extracted (dir : ArtifactDir) : List (Bytes × Bytes) :=
  ((H.unpack dir.request).files.map (·.1)).filterMap fun path =>
    if path = manifestName then none else (dir.files.lookup path).map (path, ·)

variable (a : ArtifactId)

namespace Artifact

/-- An operation that may also fail for other reasons. -/
def attempt {β : Type} (f : ArtifactWorld → Option (ArtifactWorld × Except ArtifactError β)) : ArtifactM β :=
  ExceptT.mk (atomic fun g input => if input.fails then some (g, .error .io) else f g)

/-- Exceptions do not matter. -/
def ignoreErrors {β : Type} (x : ArtifactM β) : ArtifactProg Unit := do
  let _ ← x.run
  return ()

/-! ## Locks -/

section Locks

variable (i : ℕ) (a : ArtifactId)

def lockInstall : ArtifactM Unit :=
  attempt fun g => ((g.install a).lockExclusive i).map fun l => ({ g with install := update g.install a l }, .ok ())

def unlockInstall : ArtifactProg Unit :=
  modify fun g => { g with install := update g.install a ((g.install a).unlockExclusive i) }

def lockLease : ArtifactM Unit :=
  attempt fun g => ((g.lease a).lockExclusive i).map fun l => ({ g with lease := update g.lease a l }, .ok ())

/-- The lease is locked exclusively if this is possible at once. -/
def tryLease : ArtifactM Bool :=
  attempt fun g =>
    match (g.lease a).lockExclusive i with
    | none => some (g, .ok false)
    | some l => some ({ g with lease := update g.lease a l }, .ok true)

def unlockLease : ArtifactProg Unit :=
  modify fun g => { g with lease := update g.lease a ((g.lease a).unlockExclusive i) }

/-- Open the lease, together with others. -/
def acquireShared : ArtifactM ℕ :=
  attempt fun g => ((g.lease a).lockShared g.nextHandle).map fun l =>
    ({ g with
        lease := update g.lease a l
        nextHandle := g.nextHandle + 1
        owners := ⟨g.nextHandle, a, i⟩ :: g.owners }, .ok g.nextHandle)

/-- One pointer less to a lease. Is it the last one? -/
def dropOwner (h : ℕ) : ArtifactProg Bool :=
  atomic fun g _ =>
    let owners := g.owners.filter (· ≠ ⟨h, a, i⟩)
    some ({ g with owners, leases := g.leases.filter fun l => l.owner ≠ ⟨h, a, i⟩ },
      !owners.any fun o => o.handle = h && o.id = a)

def unlockShared (h : ℕ) : ArtifactProg Unit :=
  modify fun g => { g with lease := update g.lease a ((g.lease a).unlockShared h) }

def closeIf (last : Bool) (h : ℕ) : ArtifactProg Unit := if last then unlockShared a h else pure ()

/-- The end of a lease. The file is closed with the last pointer to it. -/
def dropLease (h : ℕ) : ArtifactProg Unit := do
  let last ← dropOwner i a h
  closeIf a last h

end Locks

/-! ## Operations on files -/

def fileExists (path : Bytes) : ArtifactProg Bool :=
  read fun g => (g.artifacts a).any fun dir => (dir.files.lookup path).isSome

/-- An empty text if there is no such file. -/
def readFile (path : Bytes) : ArtifactProg Bytes :=
  read fun g => ((g.artifacts a).bind fun dir => dir.files.lookup path).getD []

def directorySize : ArtifactProg ℕ :=
  read fun g => ((g.artifacts a).map fun dir => dir.files.size).getD 0

def currentTime : ArtifactProg ℤ := ask (·.now)

/-- `RmRf`: the files are removed one by one, in an order that is not known. Nothing is said if this stops before the
    end. -/
def rmRf (l : Location) : ArtifactProg Unit := do
  let paths ← ask (·.paths)
  forEach paths fun path => modify (·.mapFiles (·.remove path) l)
  modify (·.rmdir l)

def fetchCounter (p : ℕ) : ArtifactProg ℕ :=
  atomic fun g _ =>
    some ({ g with stagingCounter := update g.stagingCounter p (g.stagingCounter p + 1) }, g.stagingCounter p)

def makeStaging (s : StagingName) : ArtifactM Unit :=
  attempt fun g => some ({ g with staging := update g.staging s (some ((g.staging s).getD [])) }, .ok ())

/-- A file that was there is written over. -/
def writeStaging (s : StagingName) (path contents : Bytes) : ArtifactM Unit :=
  attempt fun g =>
    if (g.staging s).any (·.isDirectory path) then some (g, .error .io)
    else some (g.mapFiles (·.write path contents) (.staging s), .ok ())

def writeAllStaging (s : StagingName) : List (Bytes × Bytes) → ArtifactM Unit
  | [] => pure ()
  | f :: files => do
    writeStaging s f.1 f.2
    writeAllStaging s files

/-- The size of what is staged, if the entrypoint is there. -/
def sizeStaging (s : StagingName) (entrypoint : Bytes) : ArtifactProg (Option ℕ) :=
  read fun g => (g.staging s).bind fun t => (t.lookup entrypoint).map fun _ => t.size

/-- Move a directory to where there is none, or an empty one. -/
def publish (s : StagingName) (req : InstallRequest) (a : ArtifactId) : ArtifactM Unit :=
  attempt fun g =>
    match g.staging s with
    | none => some (g, .error .io)
    | some files =>
      if (g.artifacts a).any fun dir => dir.files ≠ [] then some (g, .error .io)
      else some ({ g with
        artifacts := update g.artifacts a (some ⟨req, files⟩)
        staging := update g.staging s none }, .ok ())

/-- The same the other way. -/
def moveToTrash : ArtifactM Unit :=
  attempt fun g =>
    match g.artifacts a with
    | none => some (g, .error .io)
    | some dir =>
      if (g.staging (.trash a)).any (· ≠ []) then some (g, .error .io)
      else some ({ g with
        artifacts := update g.artifacts a none
        staging := update g.staging (.trash a) (some dir.files) }, .ok ())

def writePrivateFile (path contents : Bytes) : ArtifactM Unit :=
  attempt fun g =>
    match g.artifacts a with
    | none => some (g, .error .io)
    | some dir =>
      if dir.files.isDirectory path then some (g, .error .io)
      else some (g.mapFiles (·.write path contents) (.artifact a), .ok ())

def moveToManifest (path : Bytes) : ArtifactM Unit :=
  attempt fun g =>
    match (g.artifacts a).bind fun dir => dir.files.lookup path with
    | none => some (g, .error .io)
    | some contents =>
      some (g.mapFiles (fun t => (t.remove path).write manifestName contents) (.artifact a), .ok ())

def removePath (path : Bytes) : ArtifactProg Unit :=
  modify (·.mapFiles (·.removeAll path) (.artifact a))

/-! ## Install -/

section Install

variable (H : ArtifactHost) (p i : ℕ) (a : ArtifactId)

/-- What was unpacked is there, with a manifest that says so. -/
def cacheValid : ArtifactProg Bool := do
  let entry ← fileExists a a.entrypoint
  let manifest ← fileExists a manifestName
  let contents ← readFile a manifestName
  return entry && manifest && manifestMatches H a contents

def require (e : ArtifactError) (b : Bool) : ArtifactM Unit := if b then pure () else throw e

def requireSome {β : Type} (e : ArtifactError) : Option β → ArtifactM β
  | none => throw e
  | some b => pure b

/-- Unpack into the staging directory, and move it to its place. -/
def unpackAndPublish (req : InstallRequest) (s : StagingName) : ArtifactM Unit := do
  let unpacked := H.unpack req
  writeAllStaging s unpacked.files
  let entry ← requireSome .package unpacked.entry
  require .entrypoint (entry = req.entrypoint)
  let size ← sizeStaging s req.entrypoint
  let size ← requireSome .entrypoint size
  let now ← currentTime
  writeStaging s manifestName (manifestBody H req.source (H.artifactId req) size now)
  publish s req (H.artifactId req)

/-- Replace what is there, which is not valid. -/
def repair (req : InstallRequest) : ArtifactM Unit := do
  rmRf (.artifact (H.artifactId req))
  let k ← fetchCounter p
  let s := .unpacked (H.artifactId req) k
  rmRf (.staging s)
  makeStaging s
  onError (unpackAndPublish H req s) (rmRf (.staging s))

def repairIf (valid : Bool) (req : InstallRequest) : ArtifactM Unit := if valid then pure () else repair H p req

/-- Another process may have repaired it meanwhile. -/
def repairLeased (valid : Bool) (req : InstallRequest) : ArtifactM Unit :=
  if valid then pure ()
  else holding (lockLease i (H.artifactId req)) (unlockLease i (H.artifactId req)) do
    let valid ← cacheValid H (H.artifactId req)
    repairIf H p valid req

/-- Write the new manifest, and move it to its place. What was written is removed if there is an exception. -/
def writeTouched (path contents : Bytes) : ArtifactM Unit :=
  onError (do
    writePrivateFile a path contents
    moveToManifest a path) (removePath a path)

def touchWith : Option Bytes → ArtifactProg Unit
  | none => pure ()
  | some contents => do
    let k ← fetchCounter p
    ignoreErrors (writeTouched a (touchName k) contents)

def touchLastUsed : ArtifactProg Unit := do
  let contents ← readFile a manifestName
  let now ← currentTime
  touchWith p a (replaceLastUsed now contents)

def register (h : ℕ) : ArtifactProg Unit :=
  modify fun g => { g with registry := update g.registry p (update (g.registry p) a (some h)) }

/-- The registry is locked by one thread of a process at a time. -/
def lockRegistry : ArtifactProg Unit :=
  atomic fun g _ =>
    if g.registryMutex p = none then some ({ g with registryMutex := update g.registryMutex p (some i) }, ()) else none

def unlockRegistry : ArtifactProg Unit := modify fun g => { g with registryMutex := update g.registryMutex p none }

def registerLocked (h : ℕ) : ArtifactProg Unit := do
  lockRegistry p i
  register p a h
  unlockRegistry p

/-- The lease is returned, if the entrypoint is there. -/
def leaseIf (h : ℕ) (found : Bool) : ArtifactM ℕ :=
  if found then pure h
  else do
    dropLease i a h
    throw .disappeared

def installLocked (req : InstallRequest) : ArtifactM ℕ := do
  let a := H.artifactId req
  require .limits (req.maxExtractedBytes ≠ 0 && req.maxEntries ≠ 0)
  let valid ← cacheValid H a
  repairLeased H p i valid req
  let h ← acquireShared i a
  touchLastUsed p a
  let found ← fileExists a a.entrypoint
  let h ← leaseIf i a h found
  registerLocked p i a h
  return h

end Install

/-! ## Removal -/

section Prune

variable (i : ℕ) (c : PruneSettings) (st : PruneState) (e : WorkerCacheEntry) (a : ArtifactId)

def removeStaging (s : StagingName) (got : Bool) : ArtifactProg Unit :=
  if got then do
    rmRf (.staging s)
    unlockLease i s.id
  else pure ()

def cleanupName (s : StagingName) : ArtifactM Unit :=
  holding (lockInstall i s.id) (unlockInstall i s.id) do
    let got ← tryLease i s.id
    removeStaging i s got

def cleanupNames : List StagingName → ArtifactM Unit
  | [] => pure ()
  | s :: names => do
    cleanupName i s
    cleanupNames names

def cleanupStaging : ArtifactProg Unit := do
  let names ← ask (·.names)
  ignoreErrors (cleanupNames i names)

structure WorkerCacheEntry where
  id : ArtifactId
  sizeBytes : ℕ
  ageSeconds : ℤ
  inUse : Bool

/-- What the manifest says. -/
def cacheEntry (contents : Bytes) (dirSize : ℕ) (now : ℤ) (inUse : Bool) : WorkerCacheEntry :=
  let lastUsed := (stoll (metaValue contents (ascii "last_used"))).getD 0
  { id := a
    sizeBytes := ((stoull (metaValue contents (ascii "size_bytes"))).map (·.1)).getD dirSize
    ageSeconds := if 0 < lastUsed then max 0 (now - lastUsed) else 0
    inUse }

def unlockIf (got : Bool) : ArtifactProg Unit := if got then unlockLease i a else pure ()

/-- An entry is in use if its lease cannot be locked at once. -/
def listEntry (contents : Bytes) (now : ℤ) : ArtifactM WorkerCacheEntry := do
  let dirSize ← directorySize a
  let got ← tryLease i a
  unlockIf i a got
  return cacheEntry a contents dirSize now !got

def listEntryIf (contents : Bytes) (now : ℤ) : ArtifactM (List WorkerCacheEntry) :=
  if metaValue contents (ascii "manifest_version") ≠ ascii "1" then pure []
  else do
    let entry ← listEntry i a contents now
    return [entry]

def listEntries (now : ℤ) : List ArtifactId → ArtifactM (List WorkerCacheEntry)
  | [] => pure []
  | a :: ids => do
    let contents ← readFile a manifestName
    let entry ← listEntryIf i a contents now
    let entries ← listEntries now ids
    return entry ++ entries

/-- What is found in the directory of all artifacts. -/
def listedIds : ArtifactProg (List ArtifactId) := ask (·.ids)

def listWorkerCache : ArtifactM (List WorkerCacheEntry) := do
  let now ← currentTime
  let ids ← listedIds
  listEntries i now ids

structure PruneSettings where
  maxBytes : ℕ := 5368709120
  ttlSeconds : ℤ := 2592000
  flushAll : Bool := false

structure PruneState where
  total : ℕ
  reduceToLowWater : Bool
  removed : ℕ := 0
  bytesRemoved : ℕ := 0
  skippedInUse : ℕ := 0

def PruneSettings.lowWater : ℕ := if c.maxBytes = 0 then 0 else c.maxBytes - c.maxBytes / 5

def PruneState.remove : PruneState :=
  let total := if e.sizeBytes < st.total then st.total - e.sizeBytes else 0
  { st with
    removed := st.removed + 1
    bytesRemoved := st.bytesRemoved + e.sizeBytes
    total
    reduceToLowWater := if total ≤ c.lowWater then false else st.reduceToLowWater }

/-- Move the directory away, and remove it then. -/
def emptyTrash : ArtifactM Unit := do
  moveToTrash a
  rmRf (.staging (.trash a))

def pruneLeased (got : Bool) : ArtifactProg PruneState :=
  if got then do
    rmRf (.staging (.trash e.id))
    let r ← (emptyTrash e.id).run
    unlockLease i e.id
    return if r.isOk then st.remove c e else st
  else pure { st with skippedInUse := st.skippedInUse + 1 }

def pruneEntry : ArtifactM PruneState :=
  holding (lockInstall i e.id) (unlockInstall i e.id) do
    let got ← tryLease i e.id
    pruneLeased i c st e got

/-- An entry that is kept, if not all are flushed. -/
def PruneSettings.keeps : Bool :=
  !c.flushAll && !(0 < c.ttlSeconds && c.ttlSeconds ≤ e.ageSeconds) && !(st.reduceToLowWater && c.lowWater < st.total)

def pruneEntryUnless : ArtifactM PruneState :=
  if c.keeps st e then pure st else pruneEntry i c st e

def pruneEntries (c : PruneSettings) (st : PruneState) : List WorkerCacheEntry → ArtifactM PruneState
  | [] => pure st
  | e :: entries => do
    let st ← pruneEntryUnless i c st e
    pruneEntries c st entries

def pruneWorkerCache : ArtifactM PruneState := do
  cleanupStaging i
  let entries ← listWorkerCache i
  let total := (entries.map (·.sizeBytes)).sum
  pruneEntries i c { total, reduceToLowWater := 0 < c.maxBytes && c.maxBytes < total }
    (entries.mergeSort fun x y => y.ageSeconds ≤ x.ageSeconds)

end Prune

/-! ## Calls -/

section Calls

variable (H : ArtifactHost) (p i : ℕ) (a : ArtifactId)

def install (req : InstallRequest) (c : PruneSettings) : ArtifactM ℕ := do
  let h ← holding (lockInstall i (H.artifactId req)) (unlockInstall i (H.artifactId req)) (installLocked H p i req)
  ignoreErrors (pruneWorkerCache i c)
  return h

/-- The lease that is registered, if some pointer keeps it open: there is one more now. -/
def lockRegistered : ArtifactProg (Option ℕ) :=
  atomic fun g _ =>
    match g.registry p a with
    | none => some (g, none)
    | some h =>
      if g.owners.any fun o => o.handle = h && o.id = a then
        some ({ g with owners := ⟨h, a, i⟩ :: g.owners }, some h)
      else some (g, none)

def acquireUnless : Option ℕ → ArtifactM ℕ
  | some h => pure h
  | none => do
    let h ← acquireShared i a
    register p a h
    return h

def isRegistered : ArtifactProg Bool := read fun g => (g.registry p a).isSome

def launchLocked : ArtifactM ℕ := do
  let registered ← isRegistered p a
  require .notRegistered registered
  let h ← lockRegistered p i a
  let h ← acquireUnless p i a h
  let found ← fileExists a a.entrypoint
  leaseIf i a h found

/-- `AcquireResolvedWorkerLaunch`. -/
def launch : ArtifactM ℕ := holding (lockRegistry p i) (unlockRegistry p) (launchLocked p i a)

/-- The lease is returned to the caller. -/
def returnLease (h : ℕ) (installed : Bool) : ArtifactProg Unit :=
  modify fun g => { g with
    leases := ⟨⟨h, a, i⟩, installed, ((g.artifacts a).map (·.extracted H)).getD []⟩ :: g.leases }

/-- The caller has the lease for some time, and drops it. -/
def useLease (installed : Bool) (h : ℕ) : ArtifactProg Unit := do
  returnLease H i a h installed
  dropLease i a h

inductive Op
  | install (req : InstallRequest) (c : PruneSettings)
  | launch (a : ArtifactId)
  | prune (c : PruneSettings)
  | cleanupStaging
  | listWorkerCache

/-- A call in a process. -/
structure Call where
  process : ℕ
  op : Op

def Call.main (i : ℕ) (call : Call) : ArtifactProg (Except ArtifactError Unit) :=
  match call.op with
  | .install req c => ExceptT.run do
      let h ← Artifact.install H call.process i req c
      useLease H i (H.artifactId req) true h
  | .launch a => ExceptT.run do
      let h ← Artifact.launch call.process i a
      useLease H i a false h
  | .prune c => ExceptT.run do
      let _ ← pruneWorkerCache i c
  | .cleanupStaging => ExceptT.run do
      Artifact.cleanupStaging i
  | .listWorkerCache => ExceptT.run do
      let _ ← Artifact.listWorkerCache i

end Calls

end Artifact

/-- Any number of calls in any number of processes. -/
def ArtifactHost.threads :
    Threads ArtifactWorld (Artifact.Call × ArtifactProg (Except ArtifactError Unit)) Artifact.Call ArtifactInput :=
  Prog.threads (Artifact.Call.main H)

end Vgi
