import Vgi.Github.Package
import Vgi.Lib.Machine

/-!
# Resolving a GitHub LOCATION

A LOCATION is resolved to the file to be run (`resolveGithubWorker`). The answer comes from one of
three places:

* what this process has resolved the LOCATION to before;
* the metadata file of the coordinates, in a cache that processes share;
* the asset itself, which is downloaded, checked, unpacked into the directory of its digest, and
  recorded in the other two.

The metadata file is named by a hash of owner, repository, tag and asset. The member to be run is not
among them, so that one that was recorded for another member, or for other coordinates of the same
name, is taken for an answer. If each call finds what was recorded for its own coordinates and
member, then all calls answer with the member that is named, or with the only executable
(`resolves_named`).
-/

namespace Vgi

open Option Function
variable (w : GithubCache) (call : ResolveCall)

/-! ## Metadata -/

/-- Line breaks are dropped. -/
def metaEscape (s : Bytes) : Bytes := s.filter fun b => b ≠ 10 && b ≠ 13

/-- The fields of a metadata file. -/
def metaFields (c : GithubCoords) (digest entrypoint : Bytes) (now : ℕ) : List (Bytes × Bytes) :=
  [(ascii "owner", metaEscape c.owner), (ascii "repo", metaEscape c.repo),
    (ascii "tag", metaEscape c.tag), (ascii "asset", metaEscape c.asset),
    (ascii "digest", metaEscape digest), (ascii "entrypoint", metaEscape entrypoint),
    (ascii "installed_at", decimal now)]

def writeMeta (c : GithubCoords) (digest entrypoint : Bytes) (now : ℕ) : Bytes :=
  joined 10 ((metaFields c digest entrypoint now).map fun kv => kv.1 ++ 61 :: kv.2)

/-- The value of a field; of a repeated one, the last. -/
def readMeta (text key : Bytes) : Option Bytes := (fields text).reverse.lookup key

/-- A metadata file. Its text has the coordinates of the call that wrote it, but not the member that
    was asked for: `coords` is not in the file. -/
structure MetaFile where
  text : Bytes
  coords : GithubCoords

/-- The cache directory, and what each process remembers. -/
structure GithubCache where
  /-- The directories of the digests. -/
  dirs : Bytes → Option FileTree := fun _ => none
  /-- The metadata files. -/
  metas : Bytes → Option MetaFile := fun _ => none
  /-- What the processes have resolved. -/
  resolved : ℕ → Bytes → Option Bytes := fun _ _ => none

/-- A call in a process, at a time. -/
structure ResolveCall where
  process : ℕ
  now : ℕ
  location : Bytes

/-! ## The resolver -/

namespace GithubHost

variable (P : GithubHost) (c : GithubCoords)

def parse (location : Bytes) : Except Bytes GithubCoords :=
  if isGithubAutoLocation location then parseGithubAutoLocation location P.platform
  else parseGithubLocation location

def coordKey : Bytes :=
  c.owner ++ ascii "/" ++ c.repo ++ ascii "@" ++ c.tag ++ ascii "/" ++ c.asset

def coordHash : Bytes := (P.sha256Hex (coordKey c)).take 32

/-- The path of a member in the directory of a digest. -/
def entrypoint (digest m : Bytes) : Bytes := P.cacheDir ++ ascii "/" ++ digest ++ ascii "/" ++ m

/-- A file of the cache is in the directory of a digest. -/
def fileExists (path : Bytes) : Bool :=
  if startsWith path (P.cacheDir ++ ascii "/") then
    match splitFirst 47 (path.drop (P.cacheDir.length + 1)) with
    | none => P.otherFile path
    | some (digest, m) => (w.dirs digest).any (P.isFile · m)
  else P.otherFile path

/-- The asset of the coordinates. -/
def assetBytes : Option Bytes :=
  match P.release c.owner c.repo c.tag with
  | .error _ => none
  | .ok assets => assets.lookup c.asset

def archiveStem (asset : Bytes) : Bytes :=
  match [".tar.gz", ".tgz", ".tar.zst", ".tar", ".gz", ".zst", ".zip"].find? (endsWith asset <| ascii ·) with
  | none => asset
  | some suffix => asset.take (asset.length - (ascii suffix).length)

def isHexDigit (b : UInt8) : Bool := isDigit b || (65 ≤ b && b ≤ 70) || (97 ≤ b && b ≤ 102)

/-- The digest the asset must have: the one that is given, or that of the file beside the asset. -/
def expectedDigest (assets : List (Bytes × Bytes)) : Except Bytes Bytes :=
  if c.expectedSha256 ≠ [] ∨ ¬c.isAuto then .ok c.expectedSha256
  else
    let candidates := [archiveStem c.asset ++ ascii ".sha256", c.asset ++ ascii ".sha256"]
    match candidates.findSome? (assets.lookup ·) with
    | none => .error (ascii "github-auto: no .sha256 sidecar (tried '" ++ archiveStem c.asset ++
        ascii ".sha256' and '" ++ c.asset ++ ascii ".sha256') to verify integrity; " ++
        ascii "add #sha256= or publish the sidecar")
    | some body =>
      let token := lower ((body.dropWhile (!isHexDigit ·)).takeWhile isHexDigit)
      if token.length ≠ 64 then
        .error (ascii "github-auto: malformed .sha256 sidecar (no 64-hex digest)")
      else .ok token

/-- Download the asset and check it. -/
def download : Except Bytes Bytes := do
  let assets ← P.release c.owner c.repo c.tag
  match assets.lookup c.asset with
  | none => .error (ascii "github: asset '" ++ c.asset ++ ascii "' not found in " ++ c.owner ++ ascii "/" ++
      c.repo ++ ascii "@" ++ c.tag ++ ascii ". Available assets:" ++
      assets.flatMap (ascii "\n  " ++ ·.1))
  | some bytes =>
    let expected ← expectedDigest c assets
    if bytes = [] then .error (ascii "github: empty download for asset '" ++ c.asset ++ ascii "'")
    else if expected ≠ [] ∧ P.sha256Hex bytes ≠ expected then
      .error (ascii "github: SHA256 mismatch for '" ++ c.asset ++ ascii "': expected " ++ expected ++
        ascii ", got " ++ P.sha256Hex bytes)
    else .ok bytes

/-- The entrypoint in the metadata file of the coordinates, if it can be used. -/
def metaHit : Option Bytes :=
  (w.metas (P.coordHash c)).bind fun f =>
    let pinOk := c.expectedSha256 = [] ∨ (readMeta f.text (ascii "digest")).getD [] = c.expectedSha256
    (readMeta f.text (ascii "entrypoint")).filter fun path =>
      pinOk ∧ path ≠ [] ∧ P.fileExists w path

/-- Install the asset: the digest, the member to be run, and the directories with the new one, unless it was there. -/
def install : Except Bytes (Bytes × Bytes × GithubCache) := do
  let bytes ← P.download c
  let digest := P.sha256Hex bytes
  let (tree, m) ← P.extractFullTree c.asset bytes c.memberHint
  let dirs := if (w.dirs digest).isSome then w.dirs else Function.update w.dirs digest (some tree)
  return (digest, m, { w with dirs })

/-- This process remembers what the LOCATION was resolved to. -/
def remember (path : Option Bytes) : GithubCache :=
  let known := Function.update (w.resolved call.process) call.location path
  { w with resolved := Function.update w.resolved call.process known }

/-- Resolve a LOCATION that this process does not remember. -/
def resolveCold : Except Bytes Bytes × GithubCache :=
  match P.parse call.location with
  | .error e => (.error e, w)
  | .ok c =>
    match P.metaHit w c with
    | some path => (.ok path, remember w call (some path))
    | none =>
      match P.install w c with
      | .error e => (.error e, w)
      | .ok (digest, m, w) =>
        let path := P.entrypoint digest m
        let file : MetaFile := ⟨writeMeta c digest path call.now, c⟩
        let metas := Function.update w.metas (P.coordHash c) (some file)
        (.ok path, remember { w with metas } call (some path))

def resolveGithubWorker : Except Bytes Bytes × GithubCache :=
  match w.resolved call.process call.location with
  | some path =>
    if P.fileExists w path then (.ok path, w) else P.resolveCold (remember w call none) call
  | none => P.resolveCold w call

/-- The calls of all processes, one after the other. -/
def machine : Machine GithubCache ResolveCall where
  step w call := some (P.resolveGithubWorker w call).2

end GithubHost

/-! ## What a call should answer -/

/-- The same asset and the same member. -/
abbrev GithubCoords.SameAs (c c' : GithubCoords) : Prop :=
  c.owner = c'.owner ∧ c.repo = c'.repo ∧ c.tag = c'.tag ∧ c.asset = c'.asset ∧
    c.memberHint = c'.memberHint

/-- No line break in the text. -/
abbrev BreakFree (s : Bytes) : Prop := ∀ b ∈ s, b ≠ 10 ∧ b ≠ 13

namespace GithubHost

variable (P : GithubHost)

/-- The path is that of the member that is named, or of the only executable if none is. -/
def Names (c : GithubCoords) (path : Bytes) : Prop :=
  ∃ bytes m pkg, P.assetBytes c = some bytes ∧ P.unpack c.asset bytes = .ok pkg ∧
    path = P.entrypoint (P.sha256Hex bytes) m ∧
    if c.memberHint ≠ [] then m = c.memberHint else pkg.OnlyExecutable m

/-- There is no line break in the names from which the path is made. -/
abbrev Unbroken (c : GithubCoords) : Prop :=
  BreakFree P.cacheDir ∧ BreakFree c.memberHint ∧
    ∀ bytes ∈ P.assetBytes c, ∀ pkg ∈ (P.unpack c.asset bytes).toOption, ∀ n ∈ pkg.names, BreakFree n

/-- The call finds what it needs: a metadata file of its name was written for the same asset and member; if a member is
    named then the asset is an archive, or this file; and the names have no line breaks. -/
def Consistent : Prop :=
  ∀ c ∈ (P.parse call.location).toOption, (∀ f ∈ w.metas (P.coordHash c), f.coords.SameAs c) ∧
    (c.memberHint = [] ∨ (singleName c.asset).getD c.memberHint = c.memberHint) ∧ P.Unbroken c

instance (w : GithubCache) (call : ResolveCall) : Decidable (P.Consistent w call) :=
  inferInstanceAs (Decidable (∀ c ∈ (P.parse call.location).toOption, _ ∧ _ ∧ _))

variable {P : GithubHost}

/-! ## The metadata is read back -/

theorem metaEscape_eq {s : Bytes} (h : BreakFree s) : metaEscape s = s := by
  refine List.filter_eq_self.2 fun b hb => ?_
  simp [h b hb]

theorem newline_notMem_metaEscape (s : Bytes) : (10 : UInt8) ∉ metaEscape s := by
  simp [metaEscape]

section

variable (c : GithubCoords) (digest path : Bytes) (now : ℕ)

include c digest path now

theorem fields_writeMeta : fields (writeMeta c digest path now) = metaFields c digest path now := by
  have hks : ∀ k ∈ [ascii "owner", ascii "repo", ascii "tag", ascii "asset", ascii "digest",
      ascii "entrypoint", ascii "installed_at"], 61 ∉ k ∧ 10 ∉ k := by decide
  refine fields_joined fun kv hkv => ?_
  obtain ⟨hsep, hkey⟩ := hks kv.1 (List.mem_map_of_mem hkv)
  refine ⟨hsep, hkey, ?_⟩
  simp only [metaFields, List.mem_cons, List.not_mem_nil, or_false] at hkv
  rcases hkv with rfl | rfl | rfl | rfl | rfl | rfl | rfl
  case inr.inr.inr.inr.inr.inr => exact notMem_decimal now
  all_goals exact newline_notMem_metaEscape _

theorem readMeta_entrypoint : readMeta (writeMeta c digest path now) (ascii "entrypoint") = some (metaEscape path) := by
  rw [readMeta, fields_writeMeta]
  rfl

theorem readMeta_digest : readMeta (writeMeta c digest path now) (ascii "digest") = some (metaEscape digest) := by
  rw [readMeta, fields_writeMeta]
  rfl

end

/-! ## What is installed is what is named -/

variable {c : GithubCoords}

theorem assetBytes_of_download {bytes : Bytes} (h : P.download c = .ok bytes) : P.assetBytes c = some bytes := by
  obtain ⟨assets, has, h⟩ := bind_eq_ok.1 h
  rw [assetBytes, has]
  dsimp only
  rcases hast : assets.lookup c.asset with _ | bytes'
  · rw [hast] at h
    cases h
  · rw [hast] at h
    obtain ⟨expected, -, h⟩ := bind_eq_ok.1 h
    split_ifs at h
    rw [Except.ok.inj h]

variable {w : GithubCache}

/-- The member of a package that a call asks for. -/
theorem names_of_install {w' : GithubCache} {digest m : Bytes}
    (hnm : c.memberHint = [] ∨ (singleName c.asset).getD c.memberHint = c.memberHint)
    (h : P.install w c = .ok (digest, m, w')) :
    P.Names c (P.entrypoint digest m) ∧ w'.metas = w.metas ∧ w'.resolved = w.resolved := by
  obtain ⟨bytes, hbt, h⟩ := bind_eq_ok.1 h
  obtain ⟨⟨tree, m'⟩, hext, h⟩ := bind_eq_ok.1 h
  obtain ⟨pkg, hpk, hm⟩ := extractFullTree_selects hext
  cases h
  refine ⟨⟨bytes, m, pkg, assetBytes_of_download hbt, hpk, rfl, ?_⟩, rfl, rfl⟩
  split_ifs at hm ⊢ with hhn
  · exact hm.trans (hnm.resolve_left hhn)
  · exact hm

theorem breakFree_sha256Hex (bytes : Bytes) : BreakFree (P.sha256Hex bytes) := by
  intro b hb
  have hhx := P.sha256Hex_hex bytes b hb
  constructor <;> rintro rfl <;> exact absurd hhx (by simp [isDigit, isAlpha])

theorem breakFree_entrypoint {m : Bytes} (bytes : Bytes) (hdir : BreakFree P.cacheDir) (hm : BreakFree m) :
    BreakFree (P.entrypoint (P.sha256Hex bytes) m) := by
  have hsl : BreakFree (ascii "/") := by decide +kernel
  intro b hb
  simp only [entrypoint, List.mem_append] at hb
  rcases hb with (((hb | hb) | hb) | hb) | hb
  · exact hdir b hb
  · exact hsl b hb
  · exact breakFree_sha256Hex bytes b hb
  · exact hsl b hb
  · exact hm b hb

variable {path : Bytes}

/-- The path of what is named has no line break. -/
theorem Names.breakFree (h : P.Names c path) (hc : P.Unbroken c) : BreakFree path := by
  obtain ⟨bytes, m, pkg, hbt, hpk, rfl, hm⟩ := h
  obtain ⟨hdir, hhn, hnm⟩ := hc
  have hmb : BreakFree m := by
    split_ifs at hm
    · exact hm ▸ hhn
    · exact hnm bytes hbt pkg (by rw [hpk]; rfl) m hm.mem_names
  exact breakFree_entrypoint bytes hdir hmb

theorem Names.of_sameAs {c' : GithubCoords} (h : P.Names c path) (hc : c.SameAs c') : P.Names c' path := by
  obtain ⟨hown, hrp, htag, has, hhn⟩ := hc
  have hbt : P.assetBytes c' = P.assetBytes c := by
    rw [assetBytes, assetBytes, hown, hrp, htag, has]
  rw [Names, hbt, ← has, ← hhn]
  exact h

/-! ## All runs -/

variable (P) in
/-- All that is recorded is what was asked for. -/
structure Inv (w : GithubCache) : Prop where
  metas : ∀ h f, w.metas h = some f → ∃ digest path now,
    f.text = writeMeta f.coords digest path now ∧ BreakFree path ∧ P.Names f.coords path
  resolved : ∀ process location path, w.resolved process location = some path →
    ∃ c, P.parse location = .ok c ∧ P.Names c path

variable {call : ResolveCall}

/-- What holds of all that was remembered, and of what now is, holds of all that then is. -/
theorem forall_remember {p : Bytes → Bytes → Prop} {resolved : ℕ → Bytes → Option Bytes} {path : Option Bytes}
    (h : ∀ i location x, resolved i location = some x → p location x) (hpt : ∀ x ∈ path, p call.location x) :
    ∀ i location x, update resolved call.process (update (resolved call.process) call.location path) i location =
      some x → p location x := by
  refine (forall_update_iff resolved fun _ known => ∀ location x, known location = some x → p location x).2
    ⟨(forall_update_iff _ fun location known => ∀ x, known = some x → p location x).2 ⟨hpt, ?_⟩, ?_⟩
  · exact fun location _ => h call.process location
  · exact fun i _ => h i

theorem Inv.remember (hw : P.Inv w) {path : Option Bytes}
    (hpt : ∀ p, path = some p → ∃ c, P.parse call.location = .ok c ∧ P.Names c p) :
    P.Inv (GithubHost.remember w call path) := ⟨hw.metas, forall_remember hw.resolved hpt⟩

/-- What the metadata answers is what was asked for. -/
theorem Inv.names_of_metaHit (hw : P.Inv w) (hsm : ∀ f ∈ w.metas (P.coordHash c), f.coords.SameAs c)
    (h : P.metaHit w c = some path) : P.Names c path := by
  obtain ⟨f, hf, h⟩ := bind_eq_some_iff.1 h
  obtain ⟨hrd, -⟩ := filter_eq_some_iff.1 h
  obtain ⟨digest, path', now, htx, hbr, hnm⟩ := hw.metas _ f hf
  rw [htx, readMeta_entrypoint, metaEscape_eq hbr, some_inj] at hrd
  exact hrd ▸ hnm.of_sameAs (hsm f hf)

theorem Inv.resolveCold (hw : P.Inv w) (hcl : P.Consistent w call) :
    P.Inv (P.resolveCold w call).2 ∧ ∀ path, (P.resolveCold w call).1 = .ok path →
      ∃ c, P.parse call.location = .ok c ∧ P.Names c path := by
  rw [GithubHost.resolveCold]
  rcases hpr : P.parse call.location with e | c
  · exact ⟨hw, nofun⟩
  obtain ⟨hsm, hnm, hun⟩ := hcl c (by rw [hpr]; rfl)
  dsimp only
  rcases hhit : P.metaHit w c with _ | path
  · dsimp only
    rcases hin : P.install w c with e | ⟨digest, m, w'⟩
    · exact ⟨hw, nofun⟩
    obtain ⟨hnms, hmt, hrs⟩ := names_of_install hnm hin
    refine ⟨Inv.remember ⟨fun h f hf => ?_, fun process location p hp => ?_⟩ ?_, ?_⟩
    · dsimp only at hf
      by_cases hh : h = P.coordHash c
      · -- what was installed is recorded
        rw [hh, update_self] at hf
        cases hf
        exact ⟨digest, _, call.now, rfl, hnms.breakFree hun, hnms⟩
      · rw [update_of_ne hh, hmt] at hf
        exact hw.metas h f hf
    · exact hw.resolved process location p (hrs ▸ hp)
    · exact fun p hp => ⟨c, hpr, some.inj hp ▸ hnms⟩
    · exact fun p hp => ⟨c, rfl, Except.ok.inj hp ▸ hnms⟩
  · have hnms := hw.names_of_metaHit hsm hhit
    refine ⟨hw.remember ?_, ?_⟩
    · exact fun p hp => ⟨c, hpr, some.inj hp ▸ hnms⟩
    · exact fun p hp => ⟨c, rfl, Except.ok.inj hp ▸ hnms⟩

/-- A step: what is recorded and what is answered is what was asked for. -/
theorem Inv.resolveGithubWorker (hw : P.Inv w) (hcl : P.Consistent w call) :
    P.Inv (P.resolveGithubWorker w call).2 ∧ ∀ path, (P.resolveGithubWorker w call).1 = .ok path →
      ∃ c, P.parse call.location = .ok c ∧ P.Names c path := by
  rw [GithubHost.resolveGithubWorker]
  rcases hkn : w.resolved call.process call.location with _ | path
  · exact hw.resolveCold hcl
  dsimp only
  split_ifs with hex
  · refine ⟨hw, fun p hp => ?_⟩
    obtain ⟨c, hpr, hnm⟩ := hw.resolved _ _ _ hkn
    exact ⟨c, hpr, Except.ok.inj hp ▸ hnm⟩
  · -- the file is gone, so it is resolved again; the metadata files are the same
    have hfr : P.Inv (GithubHost.remember w call none) := hw.remember fun _ h => absurd h (not_mem_none _)
    exact hfr.resolveCold hcl

/-- In every run of calls that are all consistent, by any processes, a call that returns has resolved
    its LOCATION to the member that is named, or to the only executable if none is. -/
theorem resolves_named (P : GithubHost) (calls : List ResolveCall) (call : ResolveCall) {w : GithubCache}
    (hcalls : P.machine.Along P.Consistent {} calls) (hrun : P.machine.run {} calls = some w)
    (hcall : P.Consistent w call) {path : Bytes} (hpath : (P.resolveGithubWorker w call).1 = .ok path) :
    ∃ c, P.parse call.location = .ok c ∧ P.Names c path := by
  have hst : P.Inv {} := ⟨nofun, nofun⟩
  have hw : P.Inv w := Machine.run_invariant_along
    (fun hw hcall hstp => some.inj hstp ▸ (hw.resolveGithubWorker hcall).1) hst hcalls hrun
  exact (hw.resolveGithubWorker hcall).2 path hpath

/-! ## Two members of one archive -/

/-- Two letters for each byte. -/
def letters (bytes : Bytes) : Bytes := bytes.flatMap fun b => [97 + b / 16, 97 + b % 16]

theorem isAlpha_letters (bytes : Bytes) : ∀ b ∈ letters bytes, isDigit b || isAlpha b := by
  have hlt : ∀ b, isAlpha (97 + b / 16) ∧ isAlpha (97 + b % 16) := by decide +kernel
  intro x hx
  obtain ⟨b, -, hb⟩ := List.mem_flatMap.1 hx
  rw [List.mem_pair] at hb
  rcases hb with rfl | rfl
  · rw [(hlt b).1, Bool.or_true]
  · rw [(hlt b).2, Bool.or_true]

/-- A release with an archive of the two executables `a` and `b`, and a file. -/
def twoMembers : GithubHost where
  platform := ascii "linux_amd64"
  cacheDir := ascii "/cache"
  sha256Hex := letters
  sha256Hex_hex := isAlpha_letters
  release _ _ _ := .ok [(ascii "w.tar", [1]), (ascii "tool", [2])]
  gunzip := .ok
  unzstd := .ok
  tarEntries _ := .ok [⟨ascii "a", .file true⟩, ⟨ascii "b", .file true⟩]
  zipEntries _ := .ok []
  isFile tree m := tree.any (·.1 = m)
  otherFile _ := false

def askFor (process : ℕ) (location : String) : ResolveCall := ⟨process, 0, ascii location⟩

/-- Two processes ask for `a`; the second one has it from the metadata. -/
theorem twoMembers_named :
    ∃ w, twoMembers.machine.run {} [askFor 0 "github://o/r@t/w.tar#path=a"] = some w ∧
      (twoMembers.metaHit w ⟨ascii "o", ascii "r", ascii "t", ascii "w.tar", [], ascii "a", false⟩).isSome ∧
      ∃ c, twoMembers.parse (ascii "github://o/r@t/w.tar#path=a") = .ok c ∧
        twoMembers.Names c (ascii "/cache/ab/a") := by
  refine ⟨_, rfl, by decide +kernel, ?_⟩
  exact resolves_named twoMembers [askFor 0 "github://o/r@t/w.tar#path=a"]
    (askFor 1 "github://o/r@t/w.tar#path=a") (by decide +kernel) rfl (by decide +kernel)
    (by decide +kernel)

/-- Once `a` is resolved, it is also the answer where `b` is named, in the same process or another, and where no member
    is, though there are two. The name of a member is not looked at if the asset is a file. -/
theorem twoMembers_confused :
    ∃ w, twoMembers.machine.run {} [askFor 0 "github://o/r@t/w.tar#path=a"] = some w ∧
      (twoMembers.resolveGithubWorker w (askFor 0 "github://o/r@t/w.tar#path=b")).1 =
        .ok (ascii "/cache/ab/a") ∧
      (twoMembers.resolveGithubWorker w (askFor 1 "github://o/r@t/w.tar")).1 = .ok (ascii "/cache/ab/a") ∧
      (¬∃ c, twoMembers.parse (ascii "github://o/r@t/w.tar#path=b") = .ok c ∧
        twoMembers.Names c (ascii "/cache/ab/a")) ∧
      (¬∃ c, twoMembers.parse (ascii "github://o/r@t/w.tar") = .ok c ∧
        twoMembers.Names c (ascii "/cache/ab/a")) ∧
      (twoMembers.resolveGithubWorker {} (askFor 0 "github://o/r@t/tool#path=b")).1 =
        .ok (ascii "/cache/ac/tool") ∧
      ¬∃ c, twoMembers.parse (ascii "github://o/r@t/tool#path=b") = .ok c ∧
        twoMembers.Names c (ascii "/cache/ac/tool") := by
  refine ⟨_, rfl, by decide +kernel, by decide +kernel, ?_, ?_, by decide +kernel, ?_⟩
  · rintro ⟨c, hc, bytes, m, pkg, hbt, -, hpt, hm⟩
    cases hc
    cases hbt
    obtain rfl : m = ascii "b" := hm
    exact absurd hpt (by decide +kernel)
  · rintro ⟨c, hc, bytes, m, pkg, hbt, hpk, -, hm⟩
    cases hc
    cases hbt
    cases hpk
    have hm : [ascii "a", ascii "b"] = [m] := hm
    exact absurd (congrArg List.length hm) (by decide : ¬2 = 1)
  · rintro ⟨c, hc, bytes, m, pkg, hbt, -, hpt, hm⟩
    cases hc
    cases hbt
    obtain rfl : m = ascii "b" := hm
    exact absurd hpt (by decide +kernel)

end GithubHost

end Vgi
