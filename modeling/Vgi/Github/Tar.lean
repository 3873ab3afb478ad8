import Vgi.Github.Package
import Vgi.Lib.Files
import Vgi.Lib.Throwing

/-!
# Unpacking tar files

A tar file is a sequence of blocks. An entry has a block with its header, and its data in the blocks after it; what is
made of it depends on its type. The names of entries are checked (`sanitizeMember`), and so are the targets of links.
All this is done through paths, so what is changed depends on the links that earlier entries have made
(`TarHost.walkTar`).

The program runs on a file system (`Disk`) that keeps a list of what was changed in it, and at which places. Any call to
it may also fail for reasons of its own. A byte is only read through `readAt`, which stops the program if there is no
such byte.

* `walkTar_contained`: into an empty directory, whatever the bytes are, all that is changed is in the directory; no byte
  outside of the buffer is read; and there are no more rounds than entries are allowed, and one.
-/

namespace Vgi

open List Option
variable {α : Type}

/-! ## The file system -/

/-- Why the program stops without a result. -/
inductive TarStop
  | thrown (text : Bytes)
  /-- A call to the file system has failed; the text goes on with what the system says. -/
  | system (text : Bytes)
  /-- A byte was to be read that is not in the buffer. -/
  | outOfBounds
  /-- The loop has not ended after so many rounds. -/
  | outOfFuel
  deriving DecidableEq

inductive FileOp
  | mkdir | write | chmod | unlink | symlink
  deriving DecidableEq

structure Disk where
  files : FileSystem
  /-- What was changed, the latest first. -/
  changes : List (FileOp × FilePlace) := []
  /-- Which of the next calls are to fail. -/
  faults : List Bool := []

abbrev TarM := Throwing TarStop Disk

def Disk.change (d : Disk) (op : FileOp) (p : FilePlace) (i : Option Inode) : Disk :=
  { d with files := Function.update d.files p i, changes := (op, p) :: d.changes }

/-- Does the next call fail by itself? -/
def faulty : TarM Bool := do
  let d ← get
  match d.faults with
  | [] => return false
  | b :: faults =>
    set { d with faults }
    return b

/-- A call that changes the file system; `none` if it fails. -/
def sysCall (f : Disk → Option (α × Disk)) : TarM (Option α) := do
  if ← faulty then return none
  else
    match f (← get) with
    | none => return none
    | some (a, d) =>
      set d
      return some a

/-- What paths are relative to, and how many links they may lead through. -/
structure TarHost where
  cwd : FilePlace
  maxLinks : ℕ

namespace TarHost

variable (H : TarHost) (path : Bytes)

def start : FilePlace := if isAbsolute path then [] else H.cwd

/-- Where a path leads. -/
def locate (create : Bool) (d : Disk) (path : Bytes) : Option FilePlace :=
  if path = [] then none else d.files.resolve create H.maxLinks (H.start path) (components path)

/-- Where the last name of a path is or would be, which is not followed. -/
def locateEntry (d : Disk) (path : Bytes) : Option FilePlace :=
  let comps := components path
  let c := comps.getLastD []
  if isDot c || c = dotDot then none
  else
    (d.files.resolve false H.maxLinks (H.start path) comps.dropLast).bind fun p =>
      if d.files p = some .dir then some (p ++ [c]) else none

/-- `mkdir`; it is fine if there is something already. Slashes at the end do not matter. -/
def mkdirAt (d : Disk) : Option (Unit × Disk) :=
  (H.locateEntry d (path.rdropWhile (· = 47))).map fun p =>
    if (d.files p).isSome then ((), d) else ((), d.change .mkdir p (some .dir))

/-- `open` for writing: a file that is not there is created, and one that is there is not truncated. -/
def openAt (d : Disk) : Option (FilePlace × Disk) :=
  (H.locate true d path).bind fun p =>
    match d.files p with
    | none => some (p, d.change .write p (some (.file [] false)))
    | some (.file _ _) => some (p, d)
    | some _ => none

/-- `write` at the beginning of an open file. -/
def writeAt (p : FilePlace) (data : Bytes) (d : Disk) : Option (Unit × Disk) :=
  match d.files p with
  | some (.file content executable) =>
    some ((), d.change .write p (some (.file (data ++ content.drop data.length) executable)))
  | _ => none

def chmodAt (d : Disk) : Option (Unit × Disk) :=
  (H.locate false d path).bind fun p =>
    match d.files p with
    | some (.file content _) => some ((), d.change .chmod p (some (.file content true)))
    | some i => some ((), d.change .chmod p (some i))
    | none => none

/-- `unlink`: a directory is not removed. -/
def unlinkAt (d : Disk) : Option (Unit × Disk) :=
  (H.locateEntry d path).bind fun p =>
    match d.files p with
    | none | some .dir => none
    | some _ => some ((), d.change .unlink p none)

def symlinkAt (target path : Bytes) (d : Disk) : Option (Unit × Disk) :=
  (H.locateEntry d path).bind fun p =>
    if (d.files p).isSome then none else some ((), d.change .symlink p (some (.link target)))

def directoryExists : TarM Bool := do
  let d ← get
  return (H.locate false d path).any fun p => d.files p = some .dir

/-- The path leads to a regular file. -/
def leadsToFile (d : Disk) (path : Bytes) : Bool :=
  (H.locate false d path).any fun p =>
    match d.files p with
    | some (.file _ _) => true
    | _ => false

def fileExists : TarM Bool := do
  let d ← get
  return H.leadsToFile d path

def createDirectory : TarM Unit := do
  let d ← get
  match H.locate false d path with
  | some p => if d.files p = some .dir then return () else throw (.system [])
  | none =>
    match ← sysCall (H.mkdirAt path) with
    | none => throw (.system [])
    | some () => return ()

/-- What `MkdirP` does with each beginning of the path. -/
def ensureDirectory (cur : Bytes) : TarM Unit := do
  if cur = [] ∨ cur = [47] then return ()
  else if ← H.directoryExists cur then return ()
  else
    tryCatch (H.createDirectory cur) fun e => do
      if ← H.directoryExists cur then return () else throw e

/-- The loop of `MkdirP`. -/
def mkdirPFrom (cur : Bytes) : Bytes → TarM Unit
  | [] => H.ensureDirectory cur
  | b :: rest => do
    if b = 47 then H.ensureDirectory cur
    mkdirPFrom (cur ++ [b]) rest

def mkdirP : Bytes → TarM Unit
  | 47 :: path => H.mkdirPFrom [47] path
  | path => H.mkdirPFrom [] path

/-- The directory that a path is in. -/
def makeParent : TarM Unit :=
  match splitLast 47 path with
  | none => return ()
  | some (parent, _) => H.mkdirP parent

def writeFileBytes (path data : Bytes) : TarM Unit := do
  match ← sysCall (H.openAt path) with
  | none => throw (.system [])
  | some p =>
    if data = [] then return ()
    else
      match ← sysCall (writeAt p data) with
      | none => throw (.thrown (ascii "github: write failed for " ++ path))
      | some () => return ()

/-- Failure is ignored. -/
def makeExecutable : TarM Unit := do
  let _ ← sysCall (H.chmodAt path)

end TarHost

/-! ## The walk -/

/-- These bytes of the buffer. -/
def readAt (tar : Bytes) (off n : ℕ) : TarM Bytes :=
  if off + n ≤ tar.length then return (tar.drop off).take n else throw .outOfBounds

/-- Octal digits; blanks are skipped, and the number ends at anything else. -/
def readOctal (v : ℕ) : Bytes → ℕ
  | [] => v
  | ch :: rest =>
    if ch = 32 ∨ ch = 0 then readOctal v rest
    else if ch < 48 ∨ ch > 55 then v
    else readOctal ((v * 8 + (ch.toNat - 48)) % 2 ^ 64) rest

/-- A number in octal, or with the first bit set in base 256. -/
def readTarNumeric (p : Bytes) : ℕ :=
  match p with
  | [] => 0
  | b :: rest =>
    if b &&& 0x80 ≠ 0 then
      ((b &&& 0x7f) :: rest).foldl (fun v b => (v * 256 + b.toNat) % 2 ^ 64) 0
    else readOctal 0 p

/-- The name in a header is in two parts. -/
def headerName (tar : Bytes) (off : ℕ) : TarM Bytes := do
  let start := cString (← readAt tar (off + 345) 155)
  let nm := cString (← readAt tar off 100)
  return if start = [] then nm else start ++ 47 :: nm

def checkMember (name : Bytes) : TarM Bytes :=
  match sanitizeMember name with
  | .ok rel => return rel
  | .error text => throw (.thrown text)

/-- The variables of the loop. -/
structure TarWalk where
  off : ℕ := 0
  pendingLongName : Bytes := []
  execFiles : List Bytes := []
  extractedPaths : List Bytes := []
  entryCount : ℕ := 0

/-- The arguments of a walk. -/
structure TarArgs where
  tar : Bytes
  dest : Bytes
  memberHint : Bytes
  maxEntries : ℕ
  allowSymlinks : Bool

namespace TarHost

variable (H : TarHost) (A : TarArgs)

/-- A link is made in place of what was there. -/
def extractSymlink (full rel target : Bytes) : TarM Unit := do
  if target = [] ∨ isAbsolute target ∨ dotDot <:+: target then
    throw (.thrown (ascii "github: unsafe symlink " ++ rel ++ ascii " -> " ++ target))
  else
    H.makeParent full
    let _ ← sysCall (H.unlinkAt full)
    match ← sysCall (H.symlinkAt target full) with
    | none => throw (.system (ascii "github: symlink failed for " ++ full ++ ascii ": "))
    | some () => return ()

/-- Make what an entry says. The result is whether it is executable. -/
def extractEntry (typeflag : UInt8) (off size mode : ℕ) (rel : Bytes) : TarM Bool := do
  let full := A.dest ++ 47 :: rel
  if typeflag = 53 then
    H.mkdirP full
    return false
  else if typeflag = 48 ∨ typeflag = 0 then
    H.makeParent full
    let data ← readAt A.tar (off + 512) size
    H.writeFileBytes full data
    if mode &&& 73 ≠ 0 then
      H.makeExecutable full
      return true
    else return false
  else if typeflag = 50 then
    if A.allowSymlinks then
      let target ← readAt A.tar (off + 157) 100
      H.extractSymlink full rel (cString target)
      return false
    else
      throw (.thrown (ascii "vgi: database worker archives cannot contain symlinks (" ++ rel ++ ascii ")"))
  else if typeflag = 49 then
    throw (.thrown (ascii "github: hardlinks in release archives are not supported (" ++ rel ++ ascii ")"))
  else return false

/-- A long name, or the name in the header. -/
def entryName (w : TarWalk) : TarM Bytes :=
  if w.pendingLongName ≠ [] then return w.pendingLongName else headerName A.tar w.off

/-- An entry that is not about names. -/
def walkMember (w : TarWalk) (typeflag : UInt8) (size next : ℕ) (name : Bytes) : TarM TarWalk := do
  let mode := readTarNumeric (← readAt A.tar (w.off + 100) 8)
  let rel ← checkMember name
  if !A.allowSymlinks && w.extractedPaths.elem rel then
    throw (.thrown (ascii "vgi: database worker archive repeats path " ++ rel))
  else
    let executable ← H.extractEntry A typeflag w.off size mode rel
    return { w with
      off := next
      pendingLongName := []
      execFiles := if executable then w.execFiles ++ [rel] else w.execFiles
      extractedPaths := if A.allowSymlinks then w.extractedPaths else rel :: w.extractedPaths
      entryCount := w.entryCount + 1 }

/-- A round of the loop; `none` if it is the end. -/
def walkStep (w : TarWalk) : TarM (Option TarWalk) := do
  if A.tar.length < w.off + 512 then return none
  else
    let h ← readAt A.tar w.off 512
    if h.all (· = 0) then return none
    else if w.entryCount + 1 > A.maxEntries then
      throw (.thrown (ascii "github: archive has too many entries (>" ++ decimal A.maxEntries ++ ascii ")"))
    else
      let flags ← readAt A.tar (w.off + 156) 1
      let typeflag := flags.headD 0
      let size := readTarNumeric (← readAt A.tar (w.off + 124) 12)
      let dataOff := w.off + 512
      if size > A.tar.length - dataOff then
        throw (.thrown (ascii "github: truncated archive (entry data past end)"))
      else
        let next := dataOff + (size + 511) / 512 * 512
        let name ← entryName A w
        -- `L`: the data is the name of the next entry
        if typeflag = 76 then
          let payload ← readAt A.tar dataOff size
          return some { w with off := next, pendingLongName := cString payload, entryCount := w.entryCount + 1 }
        -- `x`, `g`, `K`
        else if typeflag = 120 ∨ typeflag = 103 ∨ typeflag = 75 then
          return some { w with off := next, pendingLongName := [], entryCount := w.entryCount + 1 }
        else
          return some (← H.walkMember A w typeflag size next name)

/-- The loop, for so many rounds at most. -/
def walkLoop : ℕ → TarWalk → TarM TarWalk
  | 0, _ => throw .outOfFuel
  | fuel + 1, w => do
    match ← H.walkStep A w with
    | none => return w
    | some w' => walkLoop fuel w'

/-- The path of what is to be run. -/
def chooseEntrypoint (execFiles : List Bytes) : TarM Bytes := do
  if A.memberHint ≠ [] then
    let rel ← checkMember A.memberHint
    let ep := A.dest ++ 47 :: rel
    if ← H.fileExists ep then
      H.makeExecutable ep
      return ep
    else throw (.thrown (GithubHost.notFound A.memberHint))
  else
    match execFiles with
    | [] => throw (.thrown (ascii "github: no executable file found in archive; pin one with #path=<member>"))
    | [m] => return A.dest ++ 47 :: m
    | ms => throw (.thrown (ascii "github: multiple executable files in archive; pin one with #path=<member>:" ++
        ms.flatMap (ascii "\n  " ++ ·)))

/-- Unpack a tar file into a directory: the path of what is to be run. -/
def walkTar (fuel : ℕ) : TarM Bytes := do
  let w ← H.walkLoop A fuel {}
  H.chooseEntrypoint A w.execFiles

end TarHost

/-! ## Calls to the file system -/

open Throwing FileSystem

section Calls

variable {P : Disk → Prop} {E : TarStop → Disk → Prop}

theorem spec_faulty (hP : ∀ d faults, P d → P { d with faults }) : Spec P faulty (fun _ => P) E := by
  intro d hd
  rcases d with ⟨files, changes, _ | ⟨b, faults⟩⟩
  · exact hd
  · exact hP _ faults hd

/-- A call fails, or does what it does. -/
theorem spec_sysCall {f : Disk → Option (α × Disk)} {Q : Option α → Disk → Prop}
    (hP : ∀ d faults, P d → P { d with faults }) (hno : ∀ d, P d → Q none d)
    (hsm : ∀ d a d', P d → f d = some (a, d') → Q (some a) d') : Spec P (sysCall f) Q E := by
  refine (spec_faulty hP).bind fun b => ?_
  rcases b with _ | _
  · refine Spec.bind (spec_get (Q := fun d' d => P d ∧ d' = d) fun d hd => ⟨hd, rfl⟩) fun d => ?_
    rintro _ ⟨hd, rfl⟩
    rcases hf : f d with _ | ⟨a, d'⟩
    · exact hno d hd
    · exact hsm d a d' hd hf
  · exact spec_pure none hno

end Calls

/-! ## Staying in the directory -/

/-- It is in the directory, and not the directory itself. -/
def Below (root p : FilePlace) : Prop := root <+: p ∧ p ≠ root

variable {p : FilePlace}

theorem below_name {root : FilePlace} (h : root <+: p) (c : Bytes) : Below root (p ++ [c]) := by
  refine ⟨h.trans (prefix_append p [c]), fun heq => ?_⟩
  have hlen := h.length_le
  rw [← heq, length_append, length_singleton] at hlen
  omega

/-- The path leads to an empty directory. -/
structure TarHost.Destination (H : TarHost) (fs : FileSystem) (dest : Bytes) (root : FilePlace) : Prop where
  ne_nil : dest ≠ []
  leads : fs.resolve false H.maxLinks (H.start dest) (components dest) = some root
  dir : fs root = some .dir
  empty : ∀ p, Below root p → fs p = none

/-- Compared with the file system at the start, only the directory is changed, and the links in it do
    not lead out of it. -/
structure Disk.Contained (fs : FileSystem) (root : FilePlace) (d : Disk) : Prop where
  outside : ∀ p, ¬Below root p → d.files p = fs p
  tame : Tame root d.files
  changes : ∀ x ∈ d.changes, Below root x.2

/-- The program stops, but not because of the buffer or the loop. -/
structure TarStop.Regular (fs : FileSystem) (root : FilePlace) (e : TarStop) (d : Disk) : Prop where
  contained : d.Contained fs root
  outOfBounds : e ≠ .outOfBounds
  outOfFuel : e ≠ .outOfFuel

/-- The program changes nothing outside of the directory, and reads nothing outside of the buffer. -/
def Contains (fs : FileSystem) (root : FilePlace) (c : TarM α) : Prop :=
  Spec (Disk.Contained fs root) c (fun _ => Disk.Contained fs root) (TarStop.Regular fs root)

section Contained

variable {fs : FileSystem} {root : FilePlace} {d : Disk}

theorem Disk.files_change_self (d : Disk) (op : FileOp) (p : FilePlace) (i : Option Inode) :
    (d.change op p i).files p = i := Function.update_self ..

theorem Disk.files_change_of_ne (d : Disk) (op : FileOp) {q : FilePlace} (h : q ≠ p) (i : Option Inode) :
    (d.change op p i).files q = d.files q := Function.update_of_ne h ..

theorem Disk.Contained.change (hd : d.Contained fs root) (hp : Below root p) (op : FileOp) {i : Option Inode}
    (hi : ∀ target, i = some (.link target) → isAbsolute target = false ∧ dotDot ∉ components target) :
    (d.change op p i).Contained fs root := by
  refine ⟨fun q hq => ?_, fun q target hrt hlink => ?_, fun x hx => ?_⟩
  · have hne : q ≠ p := fun hqp => hq (hqp ▸ hp)
    exact (d.files_change_of_ne op hne i).trans (hd.outside q hq)
  · by_cases hqp : q = p
    · subst hqp
      exact hi target ((d.files_change_self op q i).symm.trans hlink)
    · exact hd.tame q target hrt ((d.files_change_of_ne op hqp i).symm.trans hlink)
  · rcases mem_cons.1 hx with rfl | hx
    · exact hp
    · exact hd.changes x hx

theorem Disk.Contained.change_plain (hd : d.Contained fs root) (hp : Below root p) (op : FileOp) {i : Option Inode}
    (hi : ∀ target, i ≠ some (.link target)) : (d.change op p i).Contained fs root :=
  hd.change hp op fun target htr => absurd htr (hi target)

theorem Disk.Contained.faults (hd : d.Contained fs root) (faults : List Bool) :
    Disk.Contained fs root { d with faults } := ⟨hd.outside, hd.tame, hd.changes⟩

theorem contains_sysCall {f : Disk → Option (α × Disk)}
    (h : ∀ d a d', Disk.Contained fs root d → f d = some (a, d') → Disk.Contained fs root d') :
    Contains fs root (sysCall f) :=
  spec_sysCall (fun _ faults hd => hd.faults faults) (fun _ hd => hd) h

theorem contains_throw {e : TarStop} (hbn : e ≠ .outOfBounds) (hfl : e ≠ .outOfFuel) :
    Contains fs root (throw e : TarM α) :=
  spec_throw e fun _ hd => ⟨hd, hbn, hfl⟩

theorem contains_pure (a : α) : Contains fs root (pure a : TarM α) := spec_pure a fun _ hd => hd

theorem contains_readAt {tar : Bytes} {off n : ℕ} (h : off + n ≤ tar.length) : Contains fs root (readAt tar off n) := by
  rw [readAt, if_pos h]
  exact contains_pure _

end Contained

namespace TarHost

variable {H : TarHost} {fs : FileSystem} {dest : Bytes} {root : FilePlace} {d : Disk} {cur : Bytes}

theorem start_append (h : cur ≠ []) (r : Bytes) : H.start (cur ++ r) = H.start cur := by
  rw [start, start, isAbsolute_append h]

section Destination

variable (hdest : H.Destination fs dest root) (hd : d.Contained fs root)

include hdest hd

theorem Destination.root_dir : d.files root = some .dir := (hd.outside root fun hbl => hbl.2 rfl).trans hdest.dir

/-- The directory is where it was. -/
theorem Destination.leads_now : Leads d.files false H.maxLinks (H.start dest) (components dest) root := by
  refine (leads_of_resolve hdest.leads).congr fun p i hp => ?_
  have hout : ¬Below root p := fun hbl => by
    rw [hdest.empty p hbl] at hp
    cases hp
  rw [hd.outside p hout, hp]

/-- A path from the directory that does not go up stays in it. -/
theorem Destination.inside {create : Bool} {rest : List Bytes} (hup : dotDot ∉ rest)
    (hp : d.files.resolve create H.maxLinks (H.start dest) (components dest ++ rest) = some p) : root <+: p := by
  obtain ⟨links, hrs⟩ := leads_append (hdest.leads_now hd) (leads_of_resolve hp)
  exact hrs.inside hd.tame (prefix_refl root) hup

theorem Destination.locate_inside {create : Bool} {r : Bytes} (hup : dotDot ∉ components r)
    (hp : H.locate create d (dest ++ 47 :: r) = some p) : root <+: p := by
  rw [locate, if_neg (append_ne_nil_of_left_ne_nil hdest.ne_nil _), start_append hdest.ne_nil, components_append] at hp
  exact hdest.inside hd hup hp

theorem Destination.locateEntry_below {r : Bytes} (hup : dotDot ∉ components r)
    (hp : H.locateEntry d (dest ++ 47 :: r) = some p) : Below root p := by
  rw [locateEntry, start_append hdest.ne_nil, components_append, dropLast_append_of_ne_nil (components_ne_nil r)] at hp
  split_ifs at hp
  obtain ⟨q, hq, hp⟩ := bind_eq_some_iff.1 hp
  split_ifs at hp
  cases hp
  exact below_name (hdest.inside hd (fun hmem => hup (mem_of_mem_dropLast hmem)) hq) _

/-- The beginnings of the path to the directory are directories. -/
theorem Destination.directory_before (hcr : cur ≠ []) (h : cur = dest ∨ ∃ post, dest = cur ++ 47 :: post) :
    (H.locate false d cur).any (fun p => d.files p = some .dir) = true := by
  have hfst : ∃ q, Leads d.files false H.maxLinks (H.start cur) (components cur) q ∧ d.files q = some .dir := by
    rcases h with rfl | ⟨post, rfl⟩
    · exact ⟨root, hdest.leads_now hd, hdest.root_dir hd⟩
    · have hld := hdest.leads_now hd
      rw [components_append, start_append hcr] at hld
      exact leads_first hld (components_ne_nil post)
  obtain ⟨q, hld, hdir⟩ := hfst
  rw [locate, if_neg hcr, hld.resolve, any_some, decide_eq_true hdir]

end Destination

variable {path : Bytes} {E : TarStop → Disk → Prop} {Q : Bool → Disk → Prop}

theorem spec_directoryExists {P : Disk → Prop}
    (h : ∀ d, P d → Q ((H.locate false d path).any fun p => d.files p = some .dir) d) :
    Spec P (H.directoryExists path) Q E := h

theorem spec_fileExists {P : Disk → Prop} (h : ∀ d, P d → Q (H.leadsToFile d path) d) :
    Spec P (H.fileExists path) Q E := h

/-! ## What the program does stays in the directory -/

/-- A name in the directory that does not go up. -/
structure Descends (r : Bytes) : Prop where
  ne_nil : r ≠ []
  head : r.head? ≠ some 47
  dots : dotDot ∉ components r

theorem dotDot_notMem {comps : List Bytes} {drive : Bool} (h : ¬(comps.any unsafeComponent || drive) = true) :
    dotDot ∉ comps := by
  intro hmem
  refine h (Bool.or_eq_true_iff.2 (.inl (List.any_eq_true.2 ⟨dotDot, hmem, ?_⟩)))
  decide

variable {rel : Bytes}

theorem descends_of_sanitizeMember {name : Bytes} (h : sanitizeMember name = .ok rel) : Descends rel := by
  obtain rfl := sanitizeMember_eq h
  rw [sanitizeMember] at h
  split_ifs at h with hnil hab hzr hls hun hun
  · refine ⟨hnil, fun hhd => hab (.inl hhd), fun hmem => ?_⟩
    -- the last component is empty
    rw [components, ← dropLast_append_getLast? _ hls] at hmem
    rcases mem_append.1 hmem with hmem | hmem
    · exact dotDot_notMem hun hmem
    · exact absurd (mem_singleton.1 hmem) (by decide)
  · exact ⟨hnil, fun hhd => hab (.inl hhd), dotDot_notMem hun⟩

theorem Descends.start {r r' : Bytes} (h : Descends (r ++ 47 :: r')) : Descends r := by
  have hne : r ≠ [] := by
    rintro rfl
    exact h.head rfl
  refine ⟨hne, fun hhd => h.head ?_, fun hmem => h.dots ?_⟩
  · rw [List.head?_append_of_ne_nil _ hne, hhd]
  · rw [components_append]
    exact mem_append_left _ hmem

/-- Slashes at the end do not matter. -/
theorem Descends.rdropWhile {r : Bytes} (h : Descends r) :
    dotDot ∉ components (r.rdropWhile (· = 47)) ∧
      ∀ a, (a ++ 47 :: r).rdropWhile (· = 47) = a ++ 47 :: r.rdropWhile (· = 47) := by
  induction r using List.reverseRecOn with
  | nil => exact absurd rfl h.ne_nil
  | append_singleton r b ih =>
    have has a : a ++ 47 :: (r ++ [b]) = (a ++ 47 :: r) ++ [b] := by
      rw [append_assoc, cons_append]
    by_cases hb : b = 47
    · subst hb
      obtain ⟨hdt, hst⟩ := ih h.start
      rw [rdropWhile_concat_pos _ _ _ (by decide)]
      refine ⟨hdt, fun a => ?_⟩
      rw [has, rdropWhile_concat_pos _ _ _ (by decide), hst]
    · rw [rdropWhile_concat_neg _ _ _ (by simpa using hb)]
      refine ⟨h.dots, fun a => ?_⟩
      rw [has, rdropWhile_concat_neg _ _ _ (by simpa using hb)]

/-- A path on the way to the directory, or one from there. -/
inductive OnPath (dest : Bytes) : Bytes → Prop
  | before {cur post} : dest = cur ++ 47 :: post → OnPath dest cur
  | dest : OnPath dest dest
  | under {r} : Descends r → OnPath dest (dest ++ 47 :: r)

theorem OnPath.start {rest : Bytes} (h : OnPath dest (cur ++ 47 :: rest)) : OnPath dest cur := by
  generalize hpt : cur ++ 47 :: rest = path at h
  cases h with
  | @before _ post hps =>
    rw [← hpt, append_assoc] at hps
    exact .before hps
  | dest => exact .before hpt.symm
  | @under r hr =>
    -- the slash is in the path to the directory, behind it, or in what follows
    rcases append_eq_append_iff.1 hpt with ⟨a, hdest, ha⟩ | ⟨a, hcr, ha⟩
    · rcases a with _ | ⟨b, a⟩
      · rw [append_nil] at hdest
        exact hdest ▸ .dest
      · obtain rfl := (List.cons.inj ha).1
        exact .before hdest
    · rcases a with _ | ⟨b, a⟩
      · rw [append_nil] at hcr
        exact hcr ▸ .dest
      obtain ⟨rfl, hr'⟩ := List.cons.inj ha
      rw [hcr]
      have hrs : Descends (a ++ 47 :: rest) := by
        rw [show a ++ 47 :: rest = r from hr'.symm]
        exact hr
      exact .under hrs.start

section Program

variable (hdest : H.Destination fs dest root) {r : Bytes}

include hdest

theorem contains_mkdirAt (hr : Descends r) : Contains fs root (sysCall (H.mkdirAt (dest ++ 47 :: r))) := by
  obtain ⟨hdt, hst⟩ := hr.rdropWhile
  refine contains_sysCall fun d u d' hd h => ?_
  rw [mkdirAt, hst] at h
  obtain ⟨p, hp, h⟩ := map_eq_some_iff.1 h
  have hbl := hdest.locateEntry_below hd hdt hp
  split_ifs at h
  · cases h
    exact hd
  · cases h
    exact hd.change_plain hbl .mkdir nofun

theorem contains_unlinkAt (hr : Descends r) :
    Contains fs root (sysCall (H.unlinkAt (dest ++ 47 :: r))) := by
  refine contains_sysCall fun d u d' hd h => ?_
  obtain ⟨p, hp, h⟩ := bind_eq_some_iff.1 h
  have hbl := hdest.locateEntry_below hd hr.dots hp
  split at h
  · cases h
  · cases h
  · cases h
    exact hd.change_plain hbl .unlink nofun

theorem contains_symlinkAt {r target : Bytes} (hr : Descends r) (hab : isAbsolute target = false)
    (hdt : dotDot ∉ components target) : Contains fs root (sysCall (H.symlinkAt target (dest ++ 47 :: r))) := by
  refine contains_sysCall fun d u d' hd h => ?_
  obtain ⟨p, hp, h⟩ := bind_eq_some_iff.1 h
  have hbl := hdest.locateEntry_below hd hr.dots hp
  split_ifs at h
  cases h
  refine hd.change hbl .symlink fun target' htr => ?_
  obtain rfl := Inode.link.inj (some.inj htr)
  exact ⟨hab, hdt⟩

theorem contains_createDirectory (hr : Descends r) :
    Contains fs root (H.createDirectory (dest ++ 47 :: r)) := by
  refine Spec.bind (spec_get fun _ hd => hd) fun d => ?_
  split
  · split_ifs
    · exact contains_pure ()
    · exact contains_throw (by decide) (by decide)
  · refine Spec.bind (contains_mkdirAt hdest hr) fun made => ?_
    rcases made with _ | _
    · exact contains_throw (by decide) (by decide)
    · exact contains_pure ()

theorem contains_ensureDirectory (hcr : OnPath dest cur) : Contains fs root (H.ensureDirectory cur) := by
  rw [ensureDirectory]
  split_ifs with hrt
  · exact contains_pure ()
  obtain ⟨hne, -⟩ := not_or.1 hrt
  have hpre (h : cur = dest ∨ ∃ post, dest = cur ++ 47 :: post) :
      Spec (Disk.Contained fs root) (H.directoryExists cur)
        (fun found d => found = true ∧ d.Contained fs root) (TarStop.Regular fs root) :=
    spec_directoryExists fun d hd => ⟨hdest.directory_before hd hne h, hd⟩
  cases hcr with
  | before hps =>
    refine Spec.bind (hpre (.inr ⟨_, hps⟩)) fun found d hd => ?_
    rw [hd.1, if_pos rfl]
    exact hd.2
  | dest =>
    refine Spec.bind (hpre (.inl rfl)) fun found d hd => ?_
    rw [hd.1, if_pos rfl]
    exact hd.2
  | under hr =>
    refine Spec.bind (Q := fun _ => Disk.Contained fs root) (spec_directoryExists fun _ hd => hd) fun found => ?_
    split_ifs
    · exact contains_pure ()
    refine (contains_createDirectory hdest hr).tryCatch fun e => ?_
    refine Spec.bind (Q := fun _ => TarStop.Regular fs root e) (spec_directoryExists fun _ he => he) fun found => ?_
    split_ifs
    · exact spec_pure () fun _ he => he.contained
    · exact spec_throw e fun _ he => he

theorem contains_mkdirPFrom {rest : Bytes} (h : OnPath dest (cur ++ rest)) :
    Contains fs root (H.mkdirPFrom cur rest) := by
  induction rest generalizing cur with
  | nil =>
    rw [append_nil] at h
    exact contains_ensureDirectory hdest h
  | cons b rest ih =>
    have hrs : Contains fs root (H.mkdirPFrom (cur ++ [b]) rest) := ih (by rwa [append_assoc])
    rw [mkdirPFrom]
    split_ifs with hb
    · subst hb
      exact Spec.bind (contains_ensureDirectory hdest h.start) fun _ => hrs
    · exact hrs

theorem contains_mkdirP (h : OnPath dest path) : Contains fs root (H.mkdirP path) := by
  rw [mkdirP.eq_def]
  split
  · exact contains_mkdirPFrom hdest h
  · exact contains_mkdirPFrom hdest h

theorem contains_makeParent (hr : Descends r) : Contains fs root (H.makeParent (dest ++ 47 :: r)) := by
  rw [makeParent]
  split
  · exact contains_pure ()
  next parent name hsp =>
  have hpar : OnPath dest (parent ++ 47 :: name) := by
    rw [← splitLast_eq_some hsp]
    exact .under hr
  exact contains_mkdirP hdest hpar.start

/-- The path leads to the file at this place. -/
structure Opened (H : TarHost) (fs : FileSystem) (root : FilePlace) (path : Bytes) (p : FilePlace) (d : Disk) :
    Prop where
  contained : d.Contained fs root
  below : Below root p
  locate : H.locate false d path = some p
  file : ∃ content executable, d.files p = some (.file content executable)

omit hdest in
theorem leadsToFile_iff :
    H.leadsToFile d path = true ↔
      ∃ p content executable, H.locate false d path = some p ∧ d.files p = some (.file content executable) := by
  rw [leadsToFile, Option.any_eq_true]
  constructor
  · rintro ⟨p, hp, hfile⟩
    split at hfile
    · next content executable hf => exact ⟨p, content, executable, hp, hf⟩
    · cases hfile
  · rintro ⟨p, content, executable, hp, hf⟩
    refine ⟨p, hp, ?_⟩
    rw [hf]

omit hdest in
/-- A path under which a file was written leads to it. -/
theorem locate_written {create : Bool} (hp : H.locate create d path = some p) (hdir : d.files p ≠ some .dir)
    (hlink : ∀ target, d.files p ≠ some (.link target)) (op : FileOp) (content : Bytes) (executable : Bool) :
    H.locate false (d.change op p (some (.file content executable))) path = some p := by
  rw [locate] at hp ⊢
  split_ifs at hp ⊢ with hnil
  exact ((leads_of_resolve hp).written (i := .file content executable) hdir hlink nofun).resolve

omit hdest in
theorem locate_present {create : Bool} {content : Bytes} {executable : Bool} (hp : H.locate create d path = some p)
    (hfile : d.files p = some (.file content executable)) : H.locate false d path = some p := by
  rw [locate] at hp ⊢
  split_ifs at hp ⊢ with hnil
  have hwritten := (leads_of_resolve hp).written (i := .file content executable) (by rw [hfile]; exact nofun)
    (fun target => by rw [hfile]; exact nofun) nofun
  rw [← hfile, Function.update_eq_self] at hwritten
  exact hwritten.resolve

theorem openAt_opened (hr : Descends r) {d' : Disk} (hd : d.Contained fs root)
    (h : H.openAt (dest ++ 47 :: r) d = some (p, d')) : Opened H fs root (dest ++ 47 :: r) p d' := by
  obtain ⟨q, hq, h⟩ := bind_eq_some_iff.1 h
  have hrt := hdest.root_dir hd
  have hin := hdest.locate_inside hd hr.dots hq
  split at h
  · next hno =>
    obtain ⟨rfl, rfl⟩ := Prod.mk.inj (some.inj h)
    have hbl : Below root q := ⟨hin, by rintro rfl; rw [hrt] at hno; cases hno⟩
    refine ⟨hd.change_plain hbl .write nofun, hbl, ?_, [], false, d.files_change_self ..⟩
    exact locate_written hq (by rw [hno]; exact nofun) (fun target => by rw [hno]; exact nofun) ..
  · next content executable hfile =>
    obtain ⟨rfl, rfl⟩ := Prod.mk.inj (some.inj h)
    have hbl : Below root q := ⟨hin, by rintro rfl; rw [hrt] at hfile; cases hfile⟩
    exact ⟨hd, hbl, locate_present hq hfile, content, executable, hfile⟩
  · cases h

/-- The path leads to a file in the directory then. -/
theorem contains_writeFileBytes {r data : Bytes} (hr : Descends r) :
    Spec (Disk.Contained fs root) (H.writeFileBytes (dest ++ 47 :: r) data)
      (fun _ d => d.Contained fs root ∧ H.leadsToFile d (dest ++ 47 :: r) = true) (TarStop.Regular fs root) := by
  have hdn {p : FilePlace} {d : Disk} (hp : Opened H fs root (dest ++ 47 :: r) p d) :
      d.Contained fs root ∧ H.leadsToFile d (dest ++ 47 :: r) = true := by
    obtain ⟨content, executable, hfile⟩ := hp.file
    exact ⟨hp.contained, leadsToFile_iff.2 ⟨p, content, executable, hp.locate, hfile⟩⟩
  refine Spec.bind (Q := fun opened d => match opened with
    | none => d.Contained fs root
    | some p => Opened H fs root (dest ++ 47 :: r) p d)
    (spec_sysCall (fun _ faults hd => hd.faults faults) (fun _ hd => hd) fun d p d' hd h => ?_) fun opened => ?_
  · exact openAt_opened hdest hr hd h
  rcases opened with _ | p
  · exact spec_throw _ fun _ hd => ⟨hd, nofun, nofun⟩
  split_ifs
  · exact spec_pure () fun _ hp => hdn hp
  refine Spec.bind (Q := fun _ => Opened H fs root (dest ++ 47 :: r) p)
    (spec_sysCall (fun _ faults hp => { hp with contained := hp.contained.faults faults }) (fun _ hp => hp)
      fun d u d' hp h => ?_) fun written => ?_
  · obtain ⟨content, executable, hfile⟩ := hp.file
    rw [writeAt, hfile] at h
    obtain ⟨-, rfl⟩ := Prod.mk.inj (some.inj h)
    refine ⟨hp.contained.change_plain hp.below .write nofun, hp.below, ?_, _, executable, d.files_change_self ..⟩
    exact locate_written hp.locate (by rw [hfile]; exact nofun) (fun target => by rw [hfile]; exact nofun) ..
  · rcases written with _ | _
    · exact spec_throw _ fun _ hp => ⟨hp.contained, nofun, nofun⟩
    · exact spec_pure () fun _ hp => hdn hp

theorem contains_makeExecutable (hr : Descends r) :
    Spec (fun d => d.Contained fs root ∧ H.leadsToFile d (dest ++ 47 :: r) = true)
      (H.makeExecutable (dest ++ 47 :: r)) (fun _ => Disk.Contained fs root) (TarStop.Regular fs root) := by
  refine Spec.bind
    (spec_sysCall (fun _ faults hd => ⟨hd.1.faults faults, hd.2⟩) (fun _ hd => hd.1) fun d u d' hd h => ?_)
    fun _ => contains_pure ()
  obtain ⟨hd, hfile⟩ := hd
  obtain ⟨p, content, executable, hp, hfile⟩ := leadsToFile_iff.1 hfile
  rw [chmodAt, hp, bind_some, hfile] at h
  obtain ⟨-, rfl⟩ := Prod.mk.inj (some.inj h)
  refine hd.change_plain ⟨hdest.locate_inside hd hr.dots hp, ?_⟩ .chmod nofun
  rintro rfl
  rw [hdest.root_dir hd] at hfile
  cases hfile

theorem contains_extractSymlink {target : Bytes} (hr : Descends rel) :
    Contains fs root (H.extractSymlink (dest ++ 47 :: rel) rel target) := by
  rw [extractSymlink]
  split_ifs with hun
  · exact contains_throw nofun nofun
  simp only [not_or, Bool.not_eq_true] at hun
  obtain ⟨-, hab, hdt⟩ := hun
  refine Spec.bind (contains_makeParent hdest hr) fun _ => ?_
  refine Spec.bind (contains_unlinkAt hdest hr) fun _ => ?_
  refine Spec.bind (contains_symlinkAt hdest hr hab fun hmem => hdt (infix_of_mem_components hmem)) fun made => ?_
  rcases made with _ | _
  · exact contains_throw nofun nofun
  · exact contains_pure ()

end Program

section Walk

variable {A : TarArgs} (hdest : H.Destination fs A.dest root)

include hdest

theorem contains_extractEntry (hr : Descends rel) {typeflag : UInt8} {off size mode : ℕ}
    (hhd : off + 512 ≤ A.tar.length) (hsz : off + 512 + size ≤ A.tar.length) :
    Contains fs root (H.extractEntry A typeflag off size mode rel) := by
  rw [extractEntry]
  split
  · exact Spec.bind (contains_mkdirP hdest (.under hr)) fun _ => contains_pure false
  split
  · refine Spec.bind (contains_makeParent hdest hr) fun _ => ?_
    refine Spec.bind (contains_readAt hsz) fun data => ?_
    refine Spec.bind (contains_writeFileBytes hdest hr) fun _ => ?_
    split_ifs
    · exact Spec.bind (contains_makeExecutable hdest hr) fun _ => contains_pure true
    · exact spec_pure false fun _ hd => hd.1
  split_ifs
  · refine Spec.bind (contains_readAt (by omega)) fun target => ?_
    exact Spec.bind (contains_extractSymlink hdest hr) fun _ => contains_pure false
  · exact contains_throw nofun nofun
  · exact contains_throw nofun nofun
  · exact contains_pure false

omit hdest in
theorem contains_checkMember (name : Bytes) :
    Spec (Disk.Contained fs root) (checkMember name) (fun rel d => d.Contained fs root ∧ Descends rel)
      (TarStop.Regular fs root) := by
  rw [checkMember]
  rcases hname : sanitizeMember name with text | rel
  · exact spec_throw _ fun _ hd => ⟨hd, nofun, nofun⟩
  · exact spec_pure rel fun _ hd => ⟨hd, descends_of_sanitizeMember hname⟩

variable {w : TarWalk}

theorem contains_walkMember {typeflag : UInt8} {size next : ℕ} {name : Bytes} (hhd : w.off + 512 ≤ A.tar.length)
    (hsz : w.off + 512 + size ≤ A.tar.length) :
    Spec (Disk.Contained fs root) (H.walkMember A w typeflag size next name)
      (fun w' d => d.Contained fs root ∧ w'.entryCount = w.entryCount + 1) (TarStop.Regular fs root) := by
  refine Spec.bind (contains_readAt (by omega)) fun mode => ?_
  refine Spec.bind (contains_checkMember name) fun rel => Spec.assume fun hr => ?_
  split
  · exact spec_throw _ fun _ hd => ⟨hd, nofun, nofun⟩
  · refine Spec.bind (contains_extractEntry hdest hr hhd hsz) fun executable => ?_
    exact spec_pure _ fun _ hd => ⟨hd, rfl⟩

omit hdest in
theorem contains_headerName {tar : Bytes} {off : ℕ} (h : off + 512 ≤ tar.length) :
    Contains fs root (headerName tar off) := by
  refine Spec.bind (contains_readAt (by omega)) fun _ => ?_
  refine Spec.bind (contains_readAt (by omega)) fun _ => ?_
  exact contains_pure _

omit hdest in
theorem contains_entryName (h : w.off + 512 ≤ A.tar.length) : Contains fs root (entryName A w) := by
  rw [entryName]
  split_ifs
  · exact contains_pure _
  · exact contains_headerName h

/-- A round of the loop counts the entry. -/
theorem contains_walkStep (w : TarWalk) :
    Spec (Disk.Contained fs root) (H.walkStep A w)
      (fun next d => d.Contained fs root ∧ ∀ w' ∈ next, w'.entryCount = w.entryCount + 1 ∧ w'.entryCount ≤ A.maxEntries)
      (TarStop.Regular fs root) := by
  rw [walkStep]
  split
  · exact spec_pure none fun _ hd => ⟨hd, nofun⟩
  rename_i hmr
  have hhd : w.off + 512 ≤ A.tar.length := not_lt.1 hmr
  refine Spec.bind (contains_readAt hhd) fun h => ?_
  split
  · exact spec_pure none fun _ hd => ⟨hd, nofun⟩
  split
  · exact spec_throw _ fun _ hd => ⟨hd, nofun, nofun⟩
  rename_i hcn
  refine Spec.bind (contains_readAt (by omega)) fun flags => ?_
  refine Spec.bind (contains_readAt (by omega)) fun sizeField => ?_
  generalize readTarNumeric sizeField = size
  dsimp only
  split
  · exact spec_throw _ fun _ hd => ⟨hd, nofun, nofun⟩
  rename_i hln
  have hsz : w.off + 512 + size ≤ A.tar.length := by omega
  -- what is left are entries, which are counted
  have hnx {w' : TarWalk} (hw' : w'.entryCount = w.entryCount + 1) :
      ∀ w'' ∈ some w', w''.entryCount = w.entryCount + 1 ∧ w''.entryCount ≤ A.maxEntries := by
    intro w'' hmem
    cases hmem
    exact ⟨hw', by omega⟩
  refine Spec.bind (contains_entryName hhd) fun name => ?_
  split_ifs
  · refine Spec.bind (contains_readAt hsz) fun payload => ?_
    exact spec_pure _ fun _ hd => ⟨hd, hnx rfl⟩
  · exact spec_pure _ fun _ hd => ⟨hd, hnx rfl⟩
  · refine Spec.bind (contains_walkMember hdest hhd hsz) fun w' => ?_
    exact spec_pure _ fun _ hd => ⟨hd.1, hnx hd.2⟩

/-- The loop ends before its rounds are used up. -/
theorem contains_walkLoop {fuel : ℕ} (hw : w.entryCount ≤ A.maxEntries) (hfl : A.maxEntries < fuel + w.entryCount) :
    Contains fs root (H.walkLoop A fuel w) := by
  induction fuel generalizing w with
  | zero => omega
  | succ fuel ih =>
    refine Spec.bind (contains_walkStep hdest w) fun next => ?_
    rcases next with _ | w'
    · exact spec_pure w fun _ hd => hd.1
    · intro d hd
      obtain ⟨hcn, hle⟩ := hd.2 w' rfl
      exact ih hle (by omega) d hd.1

theorem contains_chooseEntrypoint (execFiles : List Bytes) : Contains fs root (H.chooseEntrypoint A execFiles) := by
  rw [chooseEntrypoint.eq_def]
  split_ifs
  · refine Spec.bind (contains_checkMember A.memberHint) fun rel => Spec.assume fun hr => ?_
    refine Spec.bind (Q := fun found d => d.Contained fs root ∧ H.leadsToFile d (A.dest ++ 47 :: rel) = found)
      (spec_fileExists fun _ hd => ⟨hd, rfl⟩) fun found => ?_
    split_ifs with hfn
    · subst hfn
      exact Spec.bind (contains_makeExecutable hdest hr) fun _ => contains_pure _
    · exact spec_throw _ fun _ hd => ⟨hd.1, nofun, nofun⟩
  · split
    · exact contains_throw nofun nofun
    · exact contains_pure _
    · exact contains_throw nofun nofun

end Walk

/-- Whatever the bytes are, and whichever calls fail: all that is changed is in the directory, what is
    elsewhere stays as it is, no byte outside of the buffer is read, and the loop ends, after a round for
    each entry that is allowed and one more at most. -/
theorem walkTar_contained (H : TarHost) (A : TarArgs) {fs : FileSystem} {root : FilePlace}
    (hdest : H.Destination fs A.dest root) (faults : List Bool) {fuel : ℕ} (hfuel : A.maxEntries < fuel) :
    let result := (H.walkTar A fuel).exec ⟨fs, [], faults⟩
    (∀ change ∈ result.2.changes, Below root change.2) ∧ (∀ p, ¬Below root p → result.2.files p = fs p) ∧
      result.1 ≠ .error .outOfBounds ∧ result.1 ≠ .error .outOfFuel := by
  have hst : Disk.Contained fs root ⟨fs, [], faults⟩ := by
    refine ⟨fun p _ => rfl, fun p target hrt hlink => ?_, nofun⟩
    -- there is no link in the directory at first
    have hlink : fs p = some (.link target) := hlink
    by_cases hp : p = root
    · rw [hp, hdest.dir] at hlink
      cases hlink
    · rw [hdest.empty p ⟨hrt, hp⟩] at hlink
      cases hlink
  have hwl : Contains fs root (H.walkTar A fuel) :=
    Spec.bind (contains_walkLoop hdest (Nat.zero_le _) hfuel) fun w => contains_chooseEntrypoint hdest w.execFiles
  have hres := hwl _ hst
  intro result
  rcases hex : (H.walkTar A fuel).exec ⟨fs, [], faults⟩ with ⟨e | path, d⟩
  · rw [hex] at hres
    rw [show result = (.error e, d) from hex]
    exact ⟨hres.contained.changes, hres.contained.outside, fun h => hres.outOfBounds (Except.error.inj h),
      fun h => hres.outOfFuel (Except.error.inj h)⟩
  · rw [hex] at hres
    rw [show result = (.ok path, d) from hex]
    exact ⟨hres.changes, hres.outside, nofun, nofun⟩

/-! ## A file that is written through links -/

def padded (n : ℕ) (s : String) : Bytes := ascii s ++ List.replicate (n - s.length) 0

def header (name mode size : String) (typeflag : UInt8) (target : String) : Bytes :=
  padded 100 name ++ padded 8 mode ++ padded 16 "" ++ padded 12 size ++ padded 20 "" ++ typeflag ::
    (padded 100 target ++ padded 255 "")

/-- Two links, a directory, and a file whose name leads through both links. -/
def linked : TarArgs where
  tar := header "l" "" "" 50 "d" ++ header "d/" "" "" 53 "" ++ header "d/m" "" "" 50 "x" ++
    header "l/m" "755" "2" 48 "" ++ padded 512 "hi"
  dest := ascii "/t"
  memberHint := []
  maxEntries := 4
  allowSymlinks := true

def emptyDirectory : FileSystem := fun p => if p = [] ∨ p = [ascii "t"] then some .dir else none

def linux : TarHost := ⟨[], 40⟩

theorem destination_emptyDirectory : linux.Destination emptyDirectory (ascii "/t") [ascii "t"] := by
  refine ⟨by decide, by decide, by decide, fun p hp => ?_⟩
  rw [emptyDirectory, if_neg]
  rintro (rfl | rfl)
  · exact absurd (prefix_nil.1 hp.1) (by decide)
  · exact hp.2 rfl

/-- The file is created behind the links. -/
theorem linked_contained :
    let result := (linux.walkTar linked 5).exec ⟨emptyDirectory, [], []⟩
    result.1 = .ok (ascii "/t/l/m") ∧
      result.2.changes = [(.chmod, ["t", "d", "x"].map ascii), (.write, ["t", "d", "x"].map ascii),
        (.write, ["t", "d", "x"].map ascii), (.symlink, ["t", "d", "m"].map ascii),
        (.mkdir, ["t", "d"].map ascii), (.symlink, ["t", "l"].map ascii)] ∧
      ∀ change ∈ result.2.changes, Below [ascii "t"] change.2 := by
  have hfl : linked.maxEntries < 5 := by decide
  have hcn := walkTar_contained linux linked destination_emptyDirectory [] hfl
  refine ⟨by decide +kernel, by decide +kernel, hcn.1⟩

end TarHost

end Vgi
