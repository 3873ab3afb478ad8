import Vgi.Lib.Fallible
import Vgi.Transport.Location

/-!
# Worker packages of GitHub releases

A `github://` LOCATION names a file of a release, its *asset*, and `#path=` may name the member of it
that is to be run (`GithubCoords`). An asset is an archive, or a single file. It is unpacked as a
whole; the member that is run is the one that is named, or the only executable there is
(`extractFullTree`).

* `extractFullTree_selects`: the member is the named one if the asset is an archive, and the only
  executable if none is named. A name is not looked at if the asset is a single file.
-/

namespace Vgi

open List Option

/-! ## Coordinates -/

structure GithubCoords where
  owner : Bytes
  repo : Bytes
  tag : Bytes
  asset : Bytes
  /-- The digest the asset must have; empty for any. -/
  expectedSha256 : Bytes
  /-- The member to be run; empty for the only executable. -/
  memberHint : Bytes
  isAuto : Bool
  deriving DecidableEq

/-- What the fragments of a LOCATION say. -/
structure Fragments where
  sha256 : Bytes := []
  path : Bytes := []

def Fragments.add (f : Fragments) (frag : Bytes) : Except Bytes Fragments :=
  match splitFirst 61 frag with
  | none => .error (ascii "github: malformed fragment '#" ++ frag ++ ascii "' (expected key=value)")
  | some (key, val) =>
    if key = ascii "sha256" then .ok { f with sha256 := lower val }
    else if key = ascii "path" then .ok { f with path := val }
    else .error (ascii "github: unknown fragment key '" ++ key ++ ascii "' (expected sha256 or path)")

/-- Owner, repository, the text after `@`, and the fragments. -/
def splitCommon (body : Bytes) : Except Bytes (Bytes × Bytes × Bytes × Fragments) := do
  let parts := body.splitOn 35
  -- fragments are taken off from the right, so of two of a kind the left one is used
  let fragments ← parts.tail.reverse.foldlM Fragments.add {}
  match splitFirst 47 (parts.headD []) with
  | none | some ([], _) => .error (ascii "github: missing owner/repo in '" ++ body ++ ascii "'")
  | some (owner, afterOwner) =>
    match splitFirst 64 afterOwner with
    | none | some ([], _) => .error (ascii "github: missing @tag in '" ++ body ++ ascii "'")
    | some (repo, rest) => .ok (owner, repo, rest, fragments)

def parseGithubLocation (location : Bytes) : Except Bytes GithubCoords := do
  let (owner, repo, rest, fragments) ← splitCommon (location.drop 9)
  match splitLast 47 rest with
  | none => .error (ascii "github://: missing /asset in '" ++ location ++
      ascii "' (use github://owner/repo@tag/asset)")
  | some (tag, asset) =>
    if tag = [] ∨ asset = [] then
      .error (ascii "github://: empty tag or asset in '" ++ location ++ ascii "'")
    else .ok ⟨owner, repo, tag, asset, fragments.sha256, fragments.path, false⟩

/-- Here the LOCATION has the beginning of the asset's name at most; the rest is the platform's. -/
def parseGithubAutoLocation (location platform : Bytes) : Except Bytes GithubCoords := do
  let (owner, repo, rest, fragments) ← splitCommon (location.drop 14)
  let (tag, start) := match splitLast 47 rest with
    | none => (rest, repo)
    | some (tag, start) => (tag, if start = [] then repo else start)
  if tag = [] then .error (ascii "github-auto://: empty tag in '" ++ location ++ ascii "'")
  else if platform = [] then .error (ascii "github-auto://: empty platform string")
  else
    let ext := if startsWith platform (ascii "windows") then ascii ".zip" else ascii ".tar.gz"
    .ok ⟨owner, repo, tag, start ++ ascii "-" ++ tag ++ ascii "-" ++ platform ++ ext,
      fragments.sha256, fragments.path, true⟩

/-! ## Archives -/

/-- The entries of a tar file, but for those that only lengthen names. -/
inductive TarKind
  | directory | file (executable : Bool) | symlink (target : Bytes) | hardlink | other
  deriving DecidableEq

structure TarEntry where
  name : Bytes
  kind : TarKind
  deriving DecidableEq

structure ZipEntry where
  name : Bytes
  isDirectory : Bool
  deriving DecidableEq

/-- What is at a path. -/
inductive FileNode
  | directory | file | symlink (target : Bytes)
  deriving DecidableEq

/-- A directory that was unpacked: what was put at which path in it, in this order. -/
abbrev FileTree := List (Bytes × FileNode)

def isAlpha (b : UInt8) : Bool := (65 ≤ b && b ≤ 90) || (97 ≤ b && b ≤ 122)

/-- A component of a path that may lead out of the directory it is in. -/
def unsafeComponent (comp : Bytes) : Bool := comp = [] || comp = [46] || comp = [46, 46]

/-- `C:` and the like. -/
def hasDrive : Bytes → Bool
  | c :: 58 :: _ => isAlpha c
  | _ => false

/-- The name of a member, if it stays in its directory. -/
def sanitizeMember (name : Bytes) : Except Bytes Bytes :=
  let comps := name.splitOn 47
  -- a slash at the end has no component after it
  let comps := if comps.getLast? = some [] then comps.dropLast else comps
  if name = [] then .error (ascii "github: archive entry with empty name")
  else if name.head? = some 47 ∨ (92 : UInt8) ∈ name then
    .error (ascii "github: archive entry has an absolute path: " ++ name)
  else if (0 : UInt8) ∈ name then .error (ascii "github: archive entry contains NUL")
  else if comps.any unsafeComponent || hasDrive (comps.headD []) then
    .error (ascii "github: archive entry has an unsafe path: " ++ name)
  else .ok name

/-- What the resolver has from outside: the platform, the releases, the formats, the file system. An
    error is the text of what is thrown. -/
structure GithubHost where
  platform : Bytes
  /-- `vgi_github_cache_dir`, or what stands for it. -/
  cacheDir : Bytes
  sha256Hex : Bytes → Bytes
  /-- A digest is written with digits and letters. -/
  sha256Hex_hex : ∀ bytes, ∀ b ∈ sha256Hex bytes, isDigit b || isAlpha b
  /-- The assets of a release by their names; each download of one has the same bytes. -/
  release : Bytes → Bytes → Bytes → Except Bytes (List (Bytes × Bytes))
  gunzip : Bytes → Except Bytes Bytes
  unzstd : Bytes → Except Bytes Bytes
  tarEntries : Bytes → Except Bytes (List TarEntry)
  zipEntries : Bytes → Except Bytes (List ZipEntry)
  /-- The path leads to a file in the directory, links being followed. -/
  isFile : FileTree → Bytes → Bool
  /-- The files outside of the cache. -/
  otherFile : Bytes → Bool

/-- An asset, decompressed. -/
inductive Package
  | tar (entries : List TarEntry)
  | zip (entries : List ZipEntry)
  | single (name : Bytes)

/-- The name of the file that an asset is, if it is not an archive. -/
def singleName (asset : Bytes) : Option Bytes :=
  if endsWith asset (ascii ".tar.gz") || endsWith asset (ascii ".tgz") ||
      endsWith asset (ascii ".tar.zst") || endsWith asset (ascii ".tar") then none
  else if endsWith asset (ascii ".gz") then some (asset.take (asset.length - 3))
  else if endsWith asset (ascii ".zst") then some (asset.take (asset.length - 4))
  else if endsWith asset (ascii ".zip") then none
  else some asset

/-- A member that tar marks as executable. -/
def TarEntry.executable (e : TarEntry) : Option Bytes :=
  if e.kind = .file true then some e.name else none

namespace Package

/-- The regular files of a zip file. -/
def zipFiles (entries : List ZipEntry) : List Bytes :=
  entries.filterMap fun e => if e.isDirectory then none else some e.name

/-- The executables of a zip file. -/
def zipExes (entries : List ZipEntry) : List Bytes :=
  (zipFiles entries).filter (endsWith · (ascii ".exe"))

/-- The only executable of a package, or its only file. -/
def OnlyExecutable (m : Bytes) : Package → Prop
  | .tar entries => entries.filterMap (·.executable) = [m]
  | .zip entries => zipExes entries = [m] ∨ zipExes entries = [] ∧ zipFiles entries = [m]
  | .single name => name = m

/-- The names in the package. -/
def names : Package → List Bytes
  | .tar entries => entries.map (·.name)
  | .zip entries => entries.map (·.name)
  | .single name => [name]

theorem OnlyExecutable.mem_names {m : Bytes} {p : Package} (h : p.OnlyExecutable m) : m ∈ p.names := by
  match p, h with
  | .tar entries, h =>
    obtain ⟨e, he, hm⟩ := mem_filterMap.1 (h ▸ mem_singleton_self m)
    rw [TarEntry.executable, ite_none_right_eq_some] at hm
    exact List.mem_map.2 ⟨e, he, some.inj hm.2⟩
  | .zip entries, h =>
    have hfl : m ∈ zipFiles entries := by
      rcases h with h | ⟨-, h⟩
      · exact mem_of_mem_filter (h ▸ mem_singleton_self m)
      · exact h ▸ mem_singleton_self m
    obtain ⟨e, he, hm⟩ := mem_filterMap.1 hfl
    rw [ite_none_left_eq_some] at hm
    exact List.mem_map.2 ⟨e, he, some.inj hm.2⟩
  | .single name, h => exact mem_singleton.2 h.symm

end Package

namespace GithubHost

variable (P : GithubHost)

/-- Decompress an asset; its name says what it is. -/
def unpack (asset bytes : Bytes) : Except Bytes Package := do
  if endsWith asset (ascii ".tar.gz") || endsWith asset (ascii ".tgz") then
    return .tar (← P.tarEntries (← P.gunzip bytes))
  else if endsWith asset (ascii ".tar.zst") then
    return .tar (← P.tarEntries (← P.unzstd bytes))
  else if endsWith asset (ascii ".tar") then
    return .tar (← P.tarEntries bytes)
  else if endsWith asset (ascii ".gz") then
    let _ ← P.gunzip bytes
    return .single (asset.take (asset.length - 3))
  else if endsWith asset (ascii ".zst") then
    let _ ← P.unzstd bytes
    return .single (asset.take (asset.length - 4))
  else if endsWith asset (ascii ".zip") then
    return .zip (← P.zipEntries bytes)
  else
    return .single asset

/-- An entry of a tar file is put into the directory; the executables are collected. -/
def tarStep (st : FileTree × List Bytes) (e : TarEntry) : Except Bytes (FileTree × List Bytes) := do
  let rel ← sanitizeMember e.name
  match e.kind with
  | .directory => return (st.1 ++ [(rel, .directory)], st.2)
  | .file executable => return (st.1 ++ [(rel, .file)], if executable then st.2 ++ [rel] else st.2)
  | .symlink target =>
    if target = [] ∨ target.head? = some 47 ∨ ([46, 46] : Bytes) <:+: target then
      .error (ascii "github: unsafe symlink " ++ rel ++ ascii " -> " ++ target)
    else return (st.1 ++ [(rel, .symlink target)], st.2)
  | .hardlink => .error (ascii "github: hardlinks in release archives are not supported (" ++ rel ++ ascii ")")
  | .other => return st

def notFound (hint : Bytes) : Bytes := ascii "github: #path=" ++ hint ++ ascii " not found in archive"

def walkTar (entries : List TarEntry) (hint : Bytes) : Except Bytes (FileTree × Bytes) := do
  let (tree, execFiles) ← entries.foldlM tarStep ([], [])
  if hint ≠ [] then
    let rel ← sanitizeMember hint
    if P.isFile tree rel then return (tree, rel) else .error (notFound hint)
  else
    match execFiles with
    | [] => .error (ascii "github: no executable file found in archive; pin one with #path=<member>")
    | [m] => return (tree, m)
    | ms => .error (ascii "github: multiple executable files in archive; pin one with #path=<member>:" ++
        ms.flatMap (ascii "\n  " ++ ·))

/-- An entry of a zip file; a path must not be repeated. -/
def zipStep (st : FileTree × List Bytes) (e : ZipEntry) : Except Bytes (FileTree × List Bytes) := do
  let rel ← sanitizeMember e.name
  if st.1.any (·.1 = rel) then .error (ascii "vgi: worker archive repeats path " ++ rel)
  else if e.isDirectory then return (st.1 ++ [(rel, .directory)], st.2)
  else return (st.1 ++ [(rel, .file)], st.2 ++ [rel])

def walkZip (entries : List ZipEntry) (hint : Bytes) : Except Bytes (FileTree × Bytes) := do
  let (tree, files) ← entries.foldlM zipStep ([], [])
  if hint ≠ [] then
    let rel ← sanitizeMember hint
    if P.isFile tree rel then return (tree, rel) else .error (notFound hint)
  else
    match files.filter (endsWith · (ascii ".exe")), files with
    | [m], _ => return (tree, m)
    | [], [m] => return (tree, m)
    | _, _ => .error (ascii "github: ambiguous entrypoint in .zip; pin one with #path=<member>")

/-- Unpack an asset: the directory, and the member to be run. -/
def extractFullTree (asset bytes hint : Bytes) : Except Bytes (FileTree × Bytes) := do
  match ← P.unpack asset bytes with
  | .tar entries => P.walkTar entries hint
  | .zip entries => P.walkZip entries hint
  | .single name =>
    let rel ← sanitizeMember name
    return ([(rel, .file)], name)

end GithubHost

/-! ## The member that is run -/

variable {m : Bytes}

theorem sanitizeMember_eq {name : Bytes} (h : sanitizeMember name = .ok m) : m = name := by
  rw [sanitizeMember] at h
  split_ifs at h
  all_goals exact (Except.ok.inj h).symm

namespace GithubHost

variable {st st' : FileTree × List Bytes}

theorem tarStep_executables {e : TarEntry} (h : tarStep st e = .ok st') : st'.2 = st.2 ++ e.executable.toList := by
  obtain ⟨rel, hrl, h⟩ := bind_eq_ok.1 h
  obtain rfl := sanitizeMember_eq hrl
  rcases e with ⟨name, _ | ⟨_ | _⟩ | target | _ | _⟩
  · cases h
    exact (append_nil _).symm
  · cases h
    exact (append_nil _).symm
  · cases h
    rfl
  · dsimp only at h
    split_ifs at h
    cases h
    exact (append_nil _).symm
  · cases h
  · cases h
    exact (append_nil _).symm

theorem zipStep_files {e : ZipEntry} (h : zipStep st e = .ok st') :
    st'.2 = st.2 ++ (if e.isDirectory then none else some e.name).toList := by
  obtain ⟨rel, hrl, h⟩ := bind_eq_ok.1 h
  obtain rfl := sanitizeMember_eq hrl
  split_ifs at h ⊢
  · cases h
    exact (append_nil _).symm
  · cases h
    rfl

variable {P : GithubHost} {tree : FileTree} {hint : Bytes}

theorem sanitized_of_bind {α : Type} {name : Bytes} {f : Bytes → Except Bytes α} {a : α}
    (h : (sanitizeMember name >>= f) = .ok a) : sanitizeMember name = .ok name := by
  obtain ⟨rel, hrl, -⟩ := bind_eq_ok.1 h
  obtain rfl := sanitizeMember_eq hrl
  exact hrl

/-- A member that is named must be there, and is the one to be run. -/
theorem eq_hint {tree' : FileTree} (h : (do
      let rel ← sanitizeMember hint
      if P.isFile tree rel then return (tree, rel) else .error (notFound hint)) = .ok (tree', m)) :
    sanitizeMember m = .ok m ∧ m = hint := by
  obtain ⟨rel, hrl, h⟩ := bind_eq_ok.1 h
  obtain rfl := sanitizeMember_eq hrl
  split_ifs at h
  obtain rfl : rel = m := congrArg Prod.snd (Except.ok.inj h)
  exact ⟨hrl, rfl⟩

theorem walkTar_selects {entries : List TarEntry} (h : P.walkTar entries hint = .ok (tree, m)) :
    sanitizeMember m = .ok m ∧ if hint ≠ [] then m = hint else (Package.tar entries).OnlyExecutable m := by
  obtain ⟨⟨tree₁, execFiles⟩, hfl, h⟩ := bind_eq_ok.1 h
  split_ifs at h ⊢ with hhn
  · exact eq_hint h
  have hex : execFiles = entries.filterMap (·.executable) := by
    rw [filterMap_eq_flatMap_toList]
    exact foldlM_append (f := tarStep) (fun _ _ _ => tarStep_executables) hfl
  have hon : (Package.tar entries).OnlyExecutable m := by
    rw [Package.OnlyExecutable, ← hex]
    match execFiles, h with
    | [m'], h =>
      obtain rfl : m' = m := congrArg Prod.snd (Except.ok.inj h)
      rfl
  obtain ⟨e, he, hnm⟩ := List.mem_map.1 hon.mem_names
  obtain ⟨_, _, hst⟩ := ok_of_foldlM hfl he
  exact ⟨hnm ▸ sanitized_of_bind hst, hon⟩

theorem walkZip_selects {entries : List ZipEntry} (h : P.walkZip entries hint = .ok (tree, m)) :
    sanitizeMember m = .ok m ∧ if hint ≠ [] then m = hint else (Package.zip entries).OnlyExecutable m := by
  obtain ⟨⟨tree₁, files⟩, hfl, h⟩ := bind_eq_ok.1 h
  split_ifs at h ⊢ with hhn
  · exact eq_hint h
  have hfls : files = Package.zipFiles entries := by
    rw [Package.zipFiles, filterMap_eq_flatMap_toList]
    exact foldlM_append (f := zipStep) (fun _ _ _ => zipStep_files) hfl
  have hon : (Package.zip entries).OnlyExecutable m := by
    rw [Package.OnlyExecutable, Package.zipExes, ← hfls]
    dsimp only at h
    split at h
    · next m' hex =>
      obtain rfl : m' = m := congrArg Prod.snd (Except.ok.inj h)
      exact .inl hex
    · next m' hex =>
      obtain rfl : m' = m := congrArg Prod.snd (Except.ok.inj h)
      exact .inr ⟨hex, rfl⟩
    · cases h
  obtain ⟨e, he, hnm⟩ := List.mem_map.1 hon.mem_names
  obtain ⟨_, _, hst⟩ := ok_of_foldlM hfl he
  exact ⟨hnm ▸ sanitized_of_bind hst, hon⟩

variable {asset bytes : Bytes}

/-- An asset is a single file just if its name says so. -/
theorem unpack_single {pkg : Package} (h : P.unpack asset bytes = .ok pkg) :
    (∃ entries, pkg = .tar entries ∧ singleName asset = none) ∨
      (∃ entries, pkg = .zip entries ∧ singleName asset = none) ∨
        ∃ name, pkg = .single name ∧ singleName asset = some name := by
  rw [unpack] at h
  rw [singleName]
  by_cases hgz : endsWith asset (ascii ".tar.gz") || endsWith asset (ascii ".tgz")
  · rw [if_pos hgz] at h
    obtain ⟨tar, -, h⟩ := bind_eq_ok.1 h
    obtain ⟨entries, -, h⟩ := bind_eq_ok.1 h
    exact .inl ⟨entries, (Except.ok.inj h).symm, by rw [hgz]; rfl⟩
  rw [if_neg hgz] at h
  rw [Bool.not_eq_true] at hgz
  rw [hgz, Bool.false_or]
  by_cases hzs : endsWith asset (ascii ".tar.zst")
  · rw [if_pos hzs] at h
    obtain ⟨tar, -, h⟩ := bind_eq_ok.1 h
    obtain ⟨entries, -, h⟩ := bind_eq_ok.1 h
    exact .inl ⟨entries, (Except.ok.inj h).symm, by rw [hzs]; rfl⟩
  rw [if_neg hzs] at h
  rw [Bool.not_eq_true] at hzs
  rw [hzs, Bool.false_or]
  by_cases htr : endsWith asset (ascii ".tar")
  · rw [if_pos htr] at h
    obtain ⟨entries, -, h⟩ := bind_eq_ok.1 h
    exact .inl ⟨entries, (Except.ok.inj h).symm, if_pos htr⟩
  rw [if_neg htr] at h ⊢
  by_cases hfl : endsWith asset (ascii ".gz")
  · rw [if_pos hfl] at h ⊢
    obtain ⟨_, -, h⟩ := bind_eq_ok.1 h
    exact .inr (.inr ⟨_, (Except.ok.inj h).symm, rfl⟩)
  rw [if_neg hfl] at h ⊢
  by_cases hfl' : endsWith asset (ascii ".zst")
  · rw [if_pos hfl'] at h ⊢
    obtain ⟨_, -, h⟩ := bind_eq_ok.1 h
    exact .inr (.inr ⟨_, (Except.ok.inj h).symm, rfl⟩)
  rw [if_neg hfl'] at h ⊢
  by_cases hzp : endsWith asset (ascii ".zip")
  · rw [if_pos hzp] at h ⊢
    obtain ⟨entries, -, h⟩ := bind_eq_ok.1 h
    exact .inr (.inl ⟨entries, (Except.ok.inj h).symm, rfl⟩)
  rw [if_neg hzp] at h ⊢
  exact .inr (.inr ⟨asset, (Except.ok.inj h).symm, rfl⟩)

/-- The member to be run is the only executable if none is named, and else, in an archive, the named one. -/
theorem extractFullTree_selects (h : P.extractFullTree asset bytes hint = .ok (tree, m)) :
    ∃ pkg, P.unpack asset bytes = .ok pkg ∧
      if hint ≠ [] then m = (singleName asset).getD hint else pkg.OnlyExecutable m := by
  obtain ⟨pkg, hpk, h⟩ := bind_eq_ok.1 h
  refine ⟨pkg, hpk, ?_⟩
  rcases unpack_single hpk with ⟨entries, rfl, hnm⟩ | ⟨entries, rfl, hnm⟩ | ⟨name, rfl, hnm⟩
  · rw [hnm]
    exact (walkTar_selects h).2
  · rw [hnm]
    exact (walkZip_selects h).2
  rw [hnm]
  obtain ⟨rel, -, h⟩ := bind_eq_ok.1 h
  obtain rfl : name = m := congrArg Prod.snd (Except.ok.inj h)
  split_ifs
  · rfl
  · rfl

/-! ## The member stays in its directory -/

/-- The path of the member to be run does not lead out of the directory. -/
theorem extractFullTree_sanitized (h : P.extractFullTree asset bytes hint = .ok (tree, m)) :
    sanitizeMember m = .ok m := by
  obtain ⟨pkg, -, h⟩ := bind_eq_ok.1 h
  match pkg, h with
  | .tar _, h => exact (walkTar_selects h).1
  | .zip _, h => exact (walkZip_selects h).1
  | .single name, h =>
    obtain ⟨rel, hrl, h⟩ := bind_eq_ok.1 h
    obtain rfl := sanitizeMember_eq hrl
    obtain rfl : rel = m := congrArg Prod.snd (Except.ok.inj h)
    exact hrl

end GithubHost

end Vgi
