import Vgi.Github.Resolve

/-!
# Digest pins

A LOCATION may ask for an asset of a given digest with `#sha256=`, its *pin*. Here the resolver is taken with all that
may change from call to call: the releases and what they hold, the cache directory, the answers of the file system, and
whether the metadata can be written, as a failure to do so is ignored and may leave a temporary file that the next call
writes over, without shortening it (`GithubDisk`).

* `resolve_disk`: where all goes well, this is the resolver of `Vgi.Github.Resolve`;
* `pin_kept`: a call that returns a path has it from a directory that was unpacked from bytes of the pinned digest, if
  in each call no pin is empty and all pins agree, no name has a line break, and no temporary file is left.
-/

namespace Vgi

open List Option Function GithubHost
variable (w : GithubCache)

/-! ## Pins -/

/-- The LOCATION after its scheme. -/
def githubBody (location : Bytes) : Bytes :=
  location.drop (if isGithubAutoLocation location then 14 else 9)

/-- The digest that a fragment asks for. -/
def pinOf (frag : Bytes) : Option Bytes :=
  (splitFirst 61 frag).bind fun kv => if kv.1 = ascii "sha256" then some (lower kv.2) else none

/-- The digests that a LOCATION asks for, from left to right. -/
def pins (location : Bytes) : List Bytes := ((githubBody location).splitOn 35).tail.filterMap pinOf

variable {f : Fragments}

theorem sha256_add {f' : Fragments} {frag : Bytes} (h : f.add frag = .ok f') :
    f'.sha256 = (pinOf frag).getD f.sha256 := by
  rw [Fragments.add] at h
  rw [pinOf]
  rcases hkv : splitFirst 61 frag with _ | ⟨key, val⟩
  · rw [hkv] at h
    exact nomatch h
  rw [hkv] at h
  rw [bind_some]
  dsimp only at h ⊢
  by_cases hkey : key = ascii "sha256"
  · rw [if_pos hkey] at h ⊢
    cases h
    rfl
  rw [if_neg hkey] at h ⊢
  by_cases hpt : key = ascii "path"
  · rw [if_pos hpt] at h
    cases h
    rfl
  · rw [if_neg hpt] at h
    exact nomatch h

/-- Of the fragments that are read, the last one counts. -/
theorem sha256_foldlM {frags : List Bytes} {f' : Fragments} (h : frags.foldlM Fragments.add f = .ok f') :
    f'.sha256 = (frags.filterMap pinOf).getLastD f.sha256 := by
  induction frags generalizing f with
  | nil =>
    cases h
    rfl
  | cons frag frags ih =>
    rw [foldlM_cons] at h
    obtain ⟨f₁, hadd, h⟩ := bind_eq_ok.1 h
    rw [ih h, sha256_add hadd, filterMap_cons]
    rcases pinOf frag with _ | pin
    · rfl
    · rw [getLastD_cons]
      rfl

/-- They are read from the right, so that the leftmost pin counts. -/
theorem sha256_splitCommon {body owner repo rest : Bytes} (h : splitCommon body = .ok (owner, repo, rest, f)) :
    f.sha256 = ((body.splitOn 35).tail.filterMap pinOf).headD [] := by
  obtain ⟨f₁, hfold, h⟩ := bind_eq_ok.1 h
  have hf : f₁ = f := by
    split at h
    · cases h
    · cases h
    · split at h
      · cases h
      · cases h
      · exact congrArg (·.2.2.2) (Except.ok.inj h)
  rw [← hf, sha256_foldlM hfold, filterMap_reverse, getLastD_eq_getLast?, List.getLast?_reverse, headD_eq_head?_getD]

namespace GithubHost

variable {P : GithubHost} {c : GithubCoords}

theorem expectedSha256_of_parse {location : Bytes} (h : P.parse location = .ok c) :
    c.expectedSha256 = (pins location).headD [] := by
  rw [parse] at h
  rw [pins, githubBody]
  by_cases hat : isGithubAutoLocation location
  · rw [if_pos hat] at h ⊢
    obtain ⟨⟨owner, repo, rest, f⟩, hsp, h⟩ := bind_eq_ok.1 h
    rw [← sha256_splitCommon hsp]
    dsimp only at h
    -- whatever the names are made of, the digest is that of the fragments
    split_ifs at h
    all_goals
      cases h
      rfl
  · rw [if_neg hat] at h ⊢
    obtain ⟨⟨owner, repo, rest, f⟩, hsp, h⟩ := bind_eq_ok.1 h
    rw [← sha256_splitCommon hsp]
    dsimp only at h
    split at h
    · cases h
    · split_ifs at h
      cases h
      rfl

/-- What is downloaded has the pinned digest. -/
theorem sha256Hex_of_download {bytes : Bytes} (h : P.download c = .ok bytes) (hpn : c.expectedSha256 ≠ []) :
    P.sha256Hex bytes = c.expectedSha256 := by
  obtain ⟨assets, -, h⟩ := bind_eq_ok.1 h
  split at h
  · cases h
  obtain ⟨expected, hex, h⟩ := bind_eq_ok.1 h
  rw [expectedDigest, if_pos (.inl hpn)] at hex
  cases hex
  split_ifs at h with _ hmt
  cases h
  by_contra hne
  exact hmt ⟨hpn, hne⟩

/-- The digest that is installed is that of the bytes, and the member is in their directory. -/
structure Installs (P : GithubHost) (w : GithubCache) (c : GithubCoords) (digest m : Bytes)
    (w' : GithubCache) (bytes : Bytes) (tree : FileTree) : Prop where
  download : P.download c = .ok bytes
  digest_eq : digest = P.sha256Hex bytes
  extract : P.extractFullTree c.asset bytes c.memberHint = .ok (tree, m)
  dirs : w'.dirs = if (w.dirs digest).isSome then w.dirs else Function.update w.dirs digest (some tree)
  metas : w'.metas = w.metas
  resolved : w'.resolved = w.resolved

theorem installs_of_install {w w' : GithubCache} {digest m : Bytes} (h : P.install w c = .ok (digest, m, w')) :
    ∃ bytes tree, P.Installs w c digest m w' bytes tree := by
  obtain ⟨bytes, hbt, h⟩ := bind_eq_ok.1 h
  obtain ⟨⟨tree, m'⟩, hext, h⟩ := bind_eq_ok.1 h
  cases h
  exact ⟨bytes, tree, hbt, rfl, hext, rfl, rfl, rfl⟩

end GithubHost

/-! ## The resolver on a disk -/

/-- What becomes of the metadata that a call writes. -/
inductive MetaWrite
  /-- The temporary file is moved into place. -/
  | moved
  /-- Some bytes are written, and the temporary file is left. -/
  | left (written : ℕ)

/-- A file is written over: if it was longer, then the rest of it stays. -/
def overwrite (text old : Bytes) : Bytes := text ++ old.drop text.length

/-- The cache directories, and what each process remembers. Directories, metadata files and temporary
    files are those of a cache directory. -/
structure GithubDisk where
  dirs : Bytes × Bytes → Option FileTree := fun _ => none
  metas : Bytes × Bytes → Option Bytes := fun _ => none
  tmps : Bytes × Bytes → Option Bytes := fun _ => none
  resolved : ℕ → Bytes → Option Bytes := fun _ _ => none

/-- A call, and how it finds its surroundings. -/
structure DiskCall (sha256Hex : Bytes → Bytes) where
  host : GithubHost
  sha256Hex_eq : host.sha256Hex = sha256Hex
  /-- The answers of the file system. -/
  fileExists : Bytes → Bool
  write : MetaWrite
  call : ResolveCall

namespace GithubDisk

def remember (D : GithubDisk) (call : ResolveCall) (path : Option Bytes) : GithubDisk :=
  let known := Function.update (D.resolved call.process) call.location path
  { D with resolved := Function.update D.resolved call.process known }

/-- The directories of a cache directory. -/
def cache (D : GithubDisk) (dir : Bytes) : GithubCache := { dirs := fun digest => D.dirs (dir, digest) }

/-- These are the directories of a cache directory. -/
def setCache (D : GithubDisk) (dir : Bytes) (w : GithubCache) : GithubDisk :=
  { D with dirs := fun k => if k.1 = dir then w.dirs k.2 else D.dirs k }

/-- The metadata file `k` is written, or not; this is not reported. -/
def record (D : GithubDisk) (k : Bytes × Bytes) (text : Bytes) : MetaWrite → GithubDisk
  | .moved =>
    let text := overwrite text ((D.tmps k).getD [])
    { D with metas := Function.update D.metas k (some text), tmps := Function.update D.tmps k none }
  | .left written =>
    let text := overwrite (text.take written) ((D.tmps k).getD [])
    { D with tmps := Function.update D.tmps k (some text) }

end GithubDisk

/-- The entrypoint in a metadata file, if it can be used. -/
def readEntrypoint (fileExists : Bytes → Bool) (c : GithubCoords) (text : Bytes) : Option Bytes :=
  let pinOk := c.expectedSha256 = [] ∨ (readMeta text (ascii "digest")).getD [] = c.expectedSha256
  (readMeta text (ascii "entrypoint")).filter fun path => pinOk ∧ path ≠ [] ∧ fileExists path

namespace DiskCall

variable {sha256Hex : Bytes → Bytes} (s : DiskCall sha256Hex)

/-- The metadata file of the coordinates. -/
def metaKey (c : GithubCoords) : Bytes × Bytes := (s.host.cacheDir, s.host.coordHash c)

def resolveCold (D : GithubDisk) : Except Bytes Bytes × GithubDisk :=
  match s.host.parse s.call.location with
  | .error e => (.error e, D)
  | .ok c =>
    match (D.metas (s.metaKey c)).bind (readEntrypoint s.fileExists c) with
    | some path => (.ok path, D.remember s.call (some path))
    | none =>
      match s.host.install (D.cache s.host.cacheDir) c with
      | .error e => (.error e, D)
      | .ok (digest, m, w) =>
        let path := s.host.entrypoint digest m
        let D := D.setCache s.host.cacheDir w
        let D := D.record (s.metaKey c) (writeMeta c digest path s.call.now) s.write
        (.ok path, D.remember s.call (some path))

def resolve (D : GithubDisk) : Except Bytes Bytes × GithubDisk :=
  match D.resolved s.call.process s.call.location with
  | some path => if s.fileExists path then (.ok path, D) else s.resolveCold (D.remember s.call none)
  | none => s.resolveCold D

/-- The calls of all processes, one after the other. -/
def machine (sha256Hex : Bytes → Bytes) : Machine GithubDisk (DiskCall sha256Hex) where
  step D s := some (s.resolve D).2

end DiskCall

/-! ## Where all goes well -/

/-- A cache directory, on a disk that has no other. -/
def GithubCache.disk (dir : Bytes) : GithubDisk where
  dirs k := if k.1 = dir then w.dirs k.2 else none
  metas k := if k.1 = dir then (w.metas k.2).map (·.text) else none
  resolved := w.resolved

theorem GithubCache.cache_disk_dirs (dir : Bytes) : ((w.disk dir).cache dir).dirs = w.dirs := by
  funext digest
  exact if_pos rfl

theorem GithubCache.setCache_disk (w w' : GithubCache) (dir : Bytes) (hmt : w'.metas = w.metas)
    (hrs : w'.resolved = w.resolved) : (w.disk dir).setCache dir w' = w'.disk dir := by
  have hdr : (fun k : Bytes × Bytes => if k.1 = dir then w'.dirs k.2 else (w.disk dir).dirs k) =
      fun k => if k.1 = dir then w'.dirs k.2 else none := by
    funext k
    by_cases hk : k.1 = dir
    · rw [if_pos hk, if_pos hk]
    · rw [if_neg hk, if_neg hk]
      exact if_neg hk
  rw [GithubDisk.setCache, hdr, disk, disk, hmt, hrs]

/-- A metadata file is written where there was no temporary file. -/
theorem GithubCache.record_disk (dir h : Bytes) (f : MetaFile) :
    (w.disk dir).record (dir, h) f.text .moved =
      ({ w with metas := Function.update w.metas h (some f) } : GithubCache).disk dir := by
  have hmt : Function.update (w.disk dir).metas (dir, h) (some f.text) =
      fun k => if k.1 = dir then (Function.update w.metas h (some f) k.2).map (·.text) else none := by
    funext ⟨d, h'⟩
    by_cases hd : d = dir
    · subst hd
      by_cases hh : h' = h
      · subst hh
        simp
      · rw [update_of_ne (fun hk => hh (congrArg Prod.snd hk)), if_pos rfl, update_of_ne hh]
        exact if_pos rfl
    · rw [update_of_ne (fun hk => hd (congrArg Prod.fst hk)), if_neg hd]
      exact if_neg hd
  have htm : Function.update (w.disk dir).tmps (dir, h) none = fun _ => none :=
    update_eq_self (dir, h) (w.disk dir).tmps
  have htx : overwrite f.text (((w.disk dir).tmps (dir, h)).getD []) = f.text := by
    rw [overwrite, disk, getD_none, drop_nil, append_nil]
  rw [GithubDisk.record, htx, hmt, htm]
  rfl

namespace GithubHost

variable (P : GithubHost)

/-- A call for which all goes well. -/
def diskCall (call : ResolveCall) : DiskCall P.sha256Hex :=
  ⟨P, rfl, P.fileExists w, .moved, call⟩

variable {P} {w : GithubCache}

theorem fileExists_congr {w' : GithubCache} (h : w.dirs = w'.dirs) : P.fileExists w = P.fileExists w' := by
  funext path
  rw [fileExists, fileExists, h]

/-- An asset is installed into the directories, whatever else there is. -/
theorem install_congr {w' : GithubCache} (h : w.dirs = w'.dirs) (c : GithubCoords) :
    P.install w c = (P.install w' c).map fun r => (r.1, r.2.1, { w with dirs := r.2.2.dirs }) := by
  rw [install, install]
  rcases P.download c with e | bytes
  · rfl
  rcases hext : P.extractFullTree c.asset bytes c.memberHint with e | ⟨tree, m⟩
  · simp only [bind, Except.bind, hext, Except.map]
  · simp only [bind, Except.bind, hext, pure, Except.pure, Except.map, h]

theorem metaHit_disk (c : GithubCoords) :
    ((w.disk P.cacheDir).metas (P.cacheDir, P.coordHash c)).bind (readEntrypoint (P.fileExists w) c) =
      P.metaHit w c := by
  rw [GithubCache.disk, metaHit]
  dsimp only
  rw [if_pos rfl, bind_map]
  rfl

/-- One call, of a LOCATION that the process does not remember. -/
theorem resolveCold_disk {w₁ : GithubCache} (call : ResolveCall) (hdr : w.dirs = w₁.dirs) :
    (P.diskCall w call).resolveCold (w₁.disk P.cacheDir) =
      ((P.resolveCold w₁ call).1, (P.resolveCold w₁ call).2.disk P.cacheDir) := by
  rw [DiskCall.resolveCold, GithubHost.resolveCold, diskCall]
  dsimp only [DiskCall.metaKey]
  rcases P.parse call.location with e | c
  · rfl
  dsimp only
  rw [fileExists_congr hdr, metaHit_disk]
  rcases P.metaHit w₁ c with _ | path
  · dsimp only
    rw [install_congr (w₁.cache_disk_dirs P.cacheDir)]
    rcases hin : P.install w₁ c with e | ⟨digest, m, w₂⟩
    · rfl
    obtain ⟨bytes, tree, hnew⟩ := installs_of_install hin
    have hset := w₁.setCache_disk w₂ P.cacheDir hnew.metas hnew.resolved
    have hrc := w₂.record_disk P.cacheDir (P.coordHash c) ⟨writeMeta c digest (P.entrypoint digest m) call.now, c⟩
    rw [← hset] at hrc
    exact congrArg (fun D : GithubDisk =>
      (Except.ok (P.entrypoint digest m), D.remember call (some (P.entrypoint digest m)))) hrc
  · rfl

/-- Where all goes well, a call on the disk is a call on the cache. -/
theorem resolve_disk (call : ResolveCall) : (P.diskCall w call).resolve (w.disk P.cacheDir) =
      ((P.resolveGithubWorker w call).1, (P.resolveGithubWorker w call).2.disk P.cacheDir) := by
  rw [DiskCall.resolve, resolveGithubWorker]
  have hrs : (w.disk P.cacheDir).resolved = w.resolved := rfl
  rw [hrs, diskCall]
  rcases w.resolved call.process call.location with _ | path
  · exact resolveCold_disk call rfl
  dsimp only
  split_ifs
  · rfl
  · -- forgetting the path leaves the directories
    have hdr : w.dirs = (remember w call none).dirs := rfl
    exact resolveCold_disk call hdr

end GithubHost

/-! ## What a pinned call should answer -/

/-- A directory of a cache was unpacked by one of the calls, from these bytes that it downloaded for its LOCATION. -/
def UnpackedFrom {sha256Hex : Bytes → Bytes} (calls : List (DiskCall sha256Hex)) (dir : Bytes) (tree : FileTree)
    (bytes : Bytes) : Prop :=
  ∃ s ∈ calls, ∃ c m, s.host.cacheDir = dir ∧ s.host.parse s.call.location = .ok c ∧
    s.host.download c = .ok bytes ∧ s.host.extractFullTree c.asset bytes c.memberHint = .ok (tree, m)

/-- The path leads into a directory that one of the calls unpacked from bytes of this digest. -/
def GithubDisk.Installed {sha256Hex : Bytes → Bytes} (calls : List (DiskCall sha256Hex)) (D : GithubDisk)
    (digest path : Bytes) : Prop :=
  ∃ dir m tree bytes, D.dirs (dir, digest) = some tree ∧ UnpackedFrom calls dir tree bytes ∧
    sha256Hex bytes = digest ∧ path = dir ++ ascii "/" ++ digest ++ ascii "/" ++ m ∧
    sanitizeMember m = .ok m

namespace DiskCall

variable {sha256Hex : Bytes → Bytes}

/-- No pin of the call is empty and all of them agree, no name has a line break, and no temporary file
    is left of its coordinates. -/
def Kept (D : GithubDisk) (s : DiskCall sha256Hex) : Prop :=
  ∀ c ∈ (s.host.parse s.call.location).toOption,
    (∀ pin ∈ pins s.call.location, pin ≠ [] ∧ pin = (pins s.call.location).headD []) ∧
      s.host.Unbroken c ∧ D.tmps (s.metaKey c) = none

instance (D : GithubDisk) (s : DiskCall sha256Hex) : Decidable (Kept D s) :=
  inferInstanceAs (Decidable (∀ c ∈ (s.host.parse s.call.location).toOption, _ ∧ _ ∧ _))

end DiskCall

/-! ## All runs -/

namespace GithubDisk

variable {sha256Hex : Bytes → Bytes} {calls : List (DiskCall sha256Hex)} {D D' : GithubDisk}

/-- What is installed stays installed. -/
theorem Installed.mono {digest path : Bytes} (h : D.Installed calls digest path)
    (hdr : ∀ k tree, D.dirs k = some tree → D'.dirs k = some tree) : D'.Installed calls digest path := by
  obtain ⟨dir, m, tree, bytes, hdir, h⟩ := h
  exact ⟨dir, m, tree, bytes, hdr _ tree hdir, h⟩

variable (calls) in
/-- Each directory has the bytes of its digest, each metadata file has the digest of the directory
    its path leads into, and a process remembers paths that are as pinned. -/
structure Inv (D : GithubDisk) : Prop where
  dirs : ∀ dir digest tree, D.dirs (dir, digest) = some tree →
    ∃ bytes, UnpackedFrom calls dir tree bytes ∧ sha256Hex bytes = digest
  metas : ∀ k text, D.metas k = some text → ∃ c digest path now, text = writeMeta c digest path now ∧
    BreakFree digest ∧ BreakFree path ∧ D.Installed calls digest path
  resolved : ∀ process location path, D.resolved process location = some path →
    ∀ pin ∈ pins location, D.Installed calls pin path

theorem Inv.remember (hD : D.Inv calls) {call : ResolveCall} {path : Option Bytes}
    (hpt : ∀ p ∈ path, ∀ pin ∈ pins call.location, D.Installed calls pin p) :
    (D.remember call path).Inv calls := by
  have hrs := GithubHost.forall_remember hD.resolved hpt
  exact { hD with resolved := hrs }

/-- A directory is added, and the others stay. -/
theorem Inv.setCache (hD : D.Inv calls) {dir : Bytes} {w : GithubCache}
    (hgr : ∀ digest tree, D.dirs (dir, digest) = some tree → w.dirs digest = some tree)
    (hnew : ∀ digest tree, w.dirs digest = some tree →
      ∃ bytes, UnpackedFrom calls dir tree bytes ∧ sha256Hex bytes = digest) :
    (D.setCache dir w).Inv calls ∧ ∀ k tree, D.dirs k = some tree → (D.setCache dir w).dirs k = some tree := by
  have hst : ∀ k tree, D.dirs k = some tree → (D.setCache dir w).dirs k = some tree := by
    rintro ⟨d, digest⟩ tree hk
    rw [GithubDisk.setCache]
    dsimp only
    split_ifs with hd
    · exact hgr digest tree (hd ▸ hk)
    · exact hk
  refine ⟨⟨fun d digest tree hk => ?_, fun k text htx => ?_, fun process location path hp pin hpn => ?_⟩, hst⟩
  · rw [GithubDisk.setCache] at hk
    dsimp only at hk
    split_ifs at hk with hd
    · exact hd ▸ hnew digest tree hk
    · exact hD.dirs d digest tree hk
  · obtain ⟨c, digest, path, now, h, hdg, hpt, hin⟩ := hD.metas k text htx
    exact ⟨c, digest, path, now, h, hdg, hpt, hin.mono hst⟩
  · exact (hD.resolved process location path hp pin hpn).mono hst

theorem record_dirs (D : GithubDisk) (k : Bytes × Bytes) (text : Bytes) (write : MetaWrite) :
    (D.record k text write).dirs = D.dirs := by
  rcases write with _ | _
  · rfl
  · rfl

/-- A metadata file is written where no temporary file was left. -/
theorem Inv.record (hD : D.Inv calls) {k : Bytes × Bytes} (htm : D.tmps k = none) {c : GithubCoords}
    {digest path : Bytes} (hdg : BreakFree digest) (hpt : BreakFree path)
    (hin : D.Installed calls digest path) (now : ℕ) (write : MetaWrite) :
    (D.record k (writeMeta c digest path now) write).Inv calls := by
  rcases write with _ | written
  · refine { hD with metas := fun k' text htx => ?_ }
    rw [GithubDisk.record] at htx
    dsimp only at htx
    by_cases hk : k' = k
    · rw [hk, update_self, htm, getD_none, overwrite, drop_nil, append_nil] at htx
      exact ⟨c, digest, path, now, (some.inj htx).symm, hdg, hpt, hin⟩
    · rw [update_of_ne hk] at htx
      exact hD.metas k' text htx
  · exact { hD with }

end GithubDisk

namespace GithubHost

variable {P : GithubHost} {w w' : GithubCache} {c : GithubCoords} {digest m bytes : Bytes} {tree : FileTree}

variable (h : P.Installs w c digest m w' bytes tree)

include h

/-- The member that is run has no line break if the names have none. -/
theorem Installs.breakFree (hc : P.Unbroken c) : BreakFree m := by
  obtain ⟨-, hhn, hnms⟩ := hc
  obtain ⟨pkg, hpkg, hm⟩ := extractFullTree_selects h.extract
  have hpk : ∀ n ∈ pkg.names, BreakFree n := hnms bytes (assetBytes_of_download h.download) pkg (by rw [hpkg]; rfl)
  split_ifs at hm with hgv
  · -- the name is not looked at if the asset is a single file
    rcases unpack_single hpkg with ⟨entries, rfl, hnm⟩ | ⟨entries, rfl, hnm⟩ | ⟨name, rfl, hnm⟩
    · rw [hm, hnm]
      exact hhn
    · rw [hm, hnm]
      exact hhn
    · rw [hm, hnm]
      exact hpk name (mem_singleton_self name)
  · exact hpk m hm.mem_names

theorem Installs.grows {d : Bytes} {t : FileTree} (hd : w.dirs d = some t) : w'.dirs d = some t := by
  rw [h.dirs]
  split_ifs with hold
  · exact hd
  have hne : d ≠ digest := by
    rintro rfl
    rw [hd] at hold
    exact hold rfl
  rw [update_of_ne hne, hd]

/-- The directories are the ones that were there and the new one. -/
theorem Installs.dirs_cases {d : Bytes} {t : FileTree}
    (hd : w'.dirs d = some t) : w.dirs d = some t ∨ d = digest ∧ t = tree := by
  rw [h.dirs] at hd
  split_ifs at hd
  · exact .inl hd
  by_cases hne : d = digest
  · rw [hne, update_self] at hd
    exact .inr ⟨hne, (some.inj hd).symm⟩
  · rw [update_of_ne hne] at hd
    exact .inl hd

theorem Installs.isSome : ∃ t, w'.dirs digest = some t := by
  rw [h.dirs]
  split_ifs with hold
  · exact isSome_iff_exists.1 hold
  · exact ⟨tree, update_self ..⟩

end GithubHost

namespace DiskCall

open GithubDisk

variable {sha256Hex : Bytes → Bytes} {calls : List (DiskCall sha256Hex)} {D : GithubDisk}
  {s : DiskCall sha256Hex} {c : GithubCoords}

/-- What the metadata answers has the digest that is asked for. -/
theorem installed_of_readEntrypoint (hD : D.Inv calls) {k : Bytes × Bytes} {path : Bytes}
    (h : (D.metas k).bind (readEntrypoint s.fileExists c) = some path) (hpn : c.expectedSha256 ≠ []) :
    D.Installed calls c.expectedSha256 path := by
  obtain ⟨text, htx, h⟩ := bind_eq_some_iff.1 h
  obtain ⟨hrd, hok⟩ := filter_eq_some_iff.1 h
  obtain ⟨c', digest, path', now, rfl, hdg, hpt, hin⟩ := hD.metas k text htx
  rw [readMeta_entrypoint, metaEscape_eq hpt, some_inj] at hrd
  have hsm : digest = c.expectedSha256 := by
    have hok := (of_decide_eq_true hok).1.resolve_left hpn
    rwa [readMeta_digest, metaEscape_eq hdg, getD_some] at hok
  exact hsm ▸ hrd ▸ hin

/-- The pins of a call are the digest that is looked for. -/
theorem Kept.pin_eq (hs : s.Kept D) (hpr : s.host.parse s.call.location = .ok c) {pin : Bytes}
    (hpin : pin ∈ pins s.call.location) : c.expectedSha256 ≠ [] ∧ pin = c.expectedSha256 := by
  obtain ⟨hpn, -⟩ := hs c (by rw [hpr]; rfl)
  obtain ⟨hne, heq⟩ := hpn pin hpin
  rw [← expectedSha256_of_parse hpr] at heq
  exact ⟨heq ▸ hne, heq⟩

/-- The directory of what is installed. -/
theorem installed_of_installs (hD : D.Inv calls) (hmem : s ∈ calls)
    (hpr : s.host.parse s.call.location = .ok c) {digest m bytes : Bytes} {w : GithubCache} {tree : FileTree}
    (h : s.host.Installs (D.cache s.host.cacheDir) c digest m w bytes tree) :
    (D.setCache s.host.cacheDir w).Inv calls ∧
      (D.setCache s.host.cacheDir w).Installed calls digest (s.host.entrypoint digest m) := by
  have hbt : UnpackedFrom calls s.host.cacheDir tree bytes ∧ sha256Hex bytes = digest :=
    ⟨⟨s, hmem, c, m, rfl, hpr, h.download, h.extract⟩, by rw [h.digest_eq, s.sha256Hex_eq]⟩
  obtain ⟨hD', -⟩ := hD.setCache (fun d t hd => h.grows hd) fun d t hd => by
    rcases h.dirs_cases hd with hold | ⟨rfl, rfl⟩
    · exact hD.dirs _ d t hold
    · exact ⟨bytes, hbt⟩
  refine ⟨hD', ?_⟩
  -- the directory may have been there, unpacked by an earlier call
  obtain ⟨t, ht⟩ := h.isSome
  have hdir : (D.setCache s.host.cacheDir w).dirs (s.host.cacheDir, digest) = some t := (if_pos rfl).trans ht
  obtain ⟨bytes', hfr, hsh⟩ := hD'.dirs _ _ _ hdir
  exact ⟨_, m, t, bytes', hdir, hfr, hsh, rfl, extractFullTree_sanitized h.extract⟩

/-- A step that does not find the path remembered. -/
theorem Kept.resolveCold (hD : D.Inv calls) (hmem : s ∈ calls) (hs : s.Kept D) :
    (s.resolveCold D).2.Inv calls ∧ ∀ path, (s.resolveCold D).1 = .ok path →
      ∀ pin ∈ pins s.call.location, (s.resolveCold D).2.Installed calls pin path := by
  rw [DiskCall.resolveCold]
  rcases hpr : s.host.parse s.call.location with e | c
  · exact ⟨hD, nofun⟩
  obtain ⟨-, hun, htm⟩ := hs c (by rw [hpr]; rfl)
  dsimp only
  rcases hhit : (D.metas (s.metaKey c)).bind (readEntrypoint s.fileExists c) with _ | path
  · dsimp only
    rcases hins : s.host.install (D.cache s.host.cacheDir) c with e | ⟨digest, m, w⟩
    · exact ⟨hD, nofun⟩
    obtain ⟨bytes, tree, hnew⟩ := installs_of_install hins
    obtain ⟨hD₁, hin⟩ := installed_of_installs hD hmem hpr hnew
    have hpn : ∀ pin ∈ pins s.call.location, pin = digest := fun pin hmem => by
      obtain ⟨hne, rfl⟩ := hs.pin_eq hpr hmem
      rw [hnew.digest_eq, sha256Hex_of_download hnew.download hne]
    have hdg : BreakFree digest := hnew.digest_eq ▸ breakFree_sha256Hex bytes
    have hpt : BreakFree (s.host.entrypoint digest m) := by
      rw [hnew.digest_eq]
      exact breakFree_entrypoint bytes hun.1 (hnew.breakFree hun)
    have hD₂ := hD₁.record (c := c) htm hdg hpt hin s.call.now s.write
    have hin₂ := hin.mono fun k t hk => (congrFun (record_dirs _ (s.metaKey c)
      (writeMeta c digest (s.host.entrypoint digest m) s.call.now) s.write) k).trans hk
    refine ⟨hD₂.remember fun p hp pin hmem => ?_, fun p hp pin hmem => ?_⟩
    · rw [hpn pin hmem, ← some.inj hp]
      exact hin₂
    · rw [hpn pin hmem, ← Except.ok.inj hp]
      exact hin₂
  · have hin : ∀ pin ∈ pins s.call.location, D.Installed calls pin path := fun pin hmem => by
      obtain ⟨hne, rfl⟩ := hs.pin_eq hpr hmem
      exact installed_of_readEntrypoint hD hhit hne
    refine ⟨hD.remember fun p hp => ?_, fun p hp => ?_⟩
    · exact some.inj hp ▸ hin
    · exact Except.ok.inj hp ▸ hin

/-- A step: the path that is returned is as pinned. -/
theorem Kept.resolve (hD : D.Inv calls) (hmem : s ∈ calls) (hs : s.Kept D) :
    (s.resolve D).2.Inv calls ∧ ∀ path, (s.resolve D).1 = .ok path →
      ∀ pin ∈ pins s.call.location, (s.resolve D).2.Installed calls pin path := by
  rw [DiskCall.resolve]
  rcases hkn : D.resolved s.call.process s.call.location with _ | path
  · exact hs.resolveCold hD hmem
  dsimp only
  split_ifs
  · refine ⟨hD, fun p hp => ?_⟩
    exact Except.ok.inj hp ▸ hD.resolved _ _ _ hkn
  -- the file is gone; nothing else has changed when the path is forgotten
  have hfr : (D.remember s.call none).Inv calls := hD.remember nofun
  have hs' : s.Kept (D.remember s.call none) := hs
  exact hs'.resolveCold hfr hmem

/-- In every run of calls with pins that agree, names without line breaks, and no temporary file that is left, a path
    that is returned leads into a directory that one of the calls unpacked from bytes of the pinned digest. -/
theorem pin_kept (sha256Hex : Bytes → Bytes) (calls : List (DiskCall sha256Hex)) (s : DiskCall sha256Hex)
    {D : GithubDisk} (hcalls : (machine sha256Hex).Along Kept {} calls)
    (hrun : (machine sha256Hex).run {} calls = some D) (hs : s.Kept D) {path : Bytes}
    (hpath : (s.resolve D).1 = .ok path) :
    ∀ pin ∈ pins s.call.location, (s.resolve D).2.Installed (s :: calls) pin path := by
  have hst : Inv (s :: calls) {} := ⟨nofun, nofun, nofun⟩
  have hD : D.Inv (s :: calls) := Machine.run_invariant_along
    (fun hD hs hstp => some.inj hstp ▸ (hs.1.resolve hD (mem_cons_of_mem s hs.2)).1) hst hcalls.and_mem hrun
  exact (hs.resolve hD mem_cons_self).2 path hpath

/-! ## Pins that are ignored -/

/-- The member that is asked for where a path is cut: what is left of it names one. -/
theorem cut_of_installed {digest path : Bytes} (h : D.Installed calls digest path) :
    ∃ n ∈ List.range (path.length + 1), endsWith (path.take n) (ascii "/" ++ digest ++ ascii "/") ∧
      sanitizeMember (path.drop n) = .ok (path.drop n) := by
  obtain ⟨dir, m, tree, bytes, -, -, -, rfl, hm⟩ := h
  refine ⟨(dir ++ ascii "/" ++ digest ++ ascii "/").length, ?_, ?_, ?_⟩
  · exact mem_range.2 (Nat.lt_succ_of_le (sublist_append_left _ m).length_le)
  · rw [take_left', endsWith, isSuffixOf_iff_suffix]
    · exact ⟨dir, by simp only [append_assoc]⟩
    · rfl
  · rw [drop_left']
    · exact hm
    · rfl

/-- Digests that are not empty. -/
def labels (bytes : Bytes) : Bytes := 120 :: letters bytes

/-- A name that ends as a field of the metadata. -/
def fieldName : String := "aaaaaaaaaaaaaaaaadigest=xac"

/-- A name with a line break, between two dots. -/
def brokenName : String := ".\n./xac/tool"

/-- A release of an archive as that of `GithubHost.twoMembers`, one with odd names, and a file. -/
def oddMembers : GithubHost :=
  { twoMembers with
    sha256Hex := labels
    sha256Hex_hex := fun bytes b hb => by
      rcases mem_cons.1 hb with rfl | hb
      · rfl
      · exact isAlpha_letters bytes b hb
    release := fun _ _ _ => .ok [(ascii "w.tar", [1]), (ascii "tool", [2]), (ascii "v.tar", [3])]
    tarEntries := fun bytes =>
      let names := if bytes = [1] then ["a", "b"] else ["b", fieldName, brokenName]
      .ok (names.map fun n => ⟨ascii n, .file true⟩) }

/-- A call in a process, with the files that are found. -/
def ask (process : ℕ) (write : MetaWrite) (found : List String) (location : String) : DiskCall labels :=
  ⟨oddMembers, rfl, fun path => found.any (ascii · = path), write, ⟨process, 0, ascii location⟩⟩

def askFirst : DiskCall labels := ask 0 .moved [] "github://o/r@t/w.tar#path=a"

def askPinned : DiskCall labels := ask 1 .moved ["/cache/xab/a"] "github://o/r@t/w.tar#path=a#sha256=XAB"

/-- A process asks for a member; another one asks for it with its digest, and has it from the metadata. -/
theorem oddMembers_pinned :
    ∃ D, (machine labels).run {} [askFirst] = some D ∧ pins askPinned.call.location = [ascii "xab"] ∧
      ∀ pin ∈ pins askPinned.call.location,
        (askPinned.resolve D).2.Installed [askPinned, askFirst] pin (ascii "/cache/xab/a") := by
  refine ⟨_, rfl, by decide +kernel, ?_⟩
  exact pin_kept labels [askFirst] askPinned (by decide +kernel) rfl (by decide +kernel) (by decide +kernel)

/-- The call returns the path after these calls, but not from bytes of the digest. -/
def Ignored (calls : List (DiskCall labels)) (s : DiskCall labels) (path pin : String) : Prop :=
  ∃ D, (machine labels).run {} calls = some D ∧ (s.resolve D).1 = .ok (ascii path) ∧
    ascii pin ∈ pins s.call.location ∧ ¬(s.resolve D).2.Installed (s :: calls) (ascii pin) (ascii path)

/-- A pin is ignored if it is empty, if one to the left of it is, or if another one is to the left of
    it. One is also ignored if the rest of a temporary file is read as a digest, and if the path that
    was recorded has lost a line break, so that it leads out of its directory. -/
theorem oddMembers_ignored :
    Ignored [] (ask 0 .moved [] "github://o/r@t/w.tar#path=a#sha256=") "/cache/xab/a" "" ∧
    Ignored [] (ask 0 .moved [] "github://o/r@t/w.tar#path=a#sha256=#sha256=xff") "/cache/xab/a" "xff" ∧
    Ignored [] (ask 0 .moved [] "github://o/r@t/w.tar#path=a#sha256=xab#sha256=xff") "/cache/xab/a" "xff" ∧
    Ignored [ask 0 (.left 1000) [] ("github://o/r@t/v.tar#path=" ++ fieldName),
        ask 0 .moved [] "github://o/r@t/v.tar#path=b"]
      (ask 1 .moved ["/cache/xad/b"] "github://o/r@t/v.tar#path=b#sha256=xac") "/cache/xad/b" "xac" ∧
    Ignored [ask 0 .moved [] "github://o/r@t/tool", ask 0 .moved [] ("github://o/r@t/v.tar#path=" ++ brokenName)]
      (ask 1 .moved ["/cache/xad/../xac/tool"] "github://o/r@t/v.tar#path=b#sha256=xad")
      "/cache/xad/../xac/tool" "xad" := by
  refine ⟨?_, ?_, ?_, ?_, ?_⟩
  all_goals
    refine ⟨_, rfl, ?_, ?_, fun h => absurd (cut_of_installed h) ?_⟩
    all_goals decide +kernel

end DiskCall

end Vgi
