import Vgi.Lib.Shell
import Vgi.Lib.Text

/-!
# Volumes of container images

An image says in a label which volumes it needs, as a JSON array of objects with a path in the
container and the name of a volume (`inspectImageVolumes`). They become `-v` arguments of the command
that runs the container (`buildContainerRunCommandTemplate`). What is before the first colon of such an
argument is a volume, unless it looks like a path: then it is a directory of the host.

* `words_template`: the words of the command, as the shell takes it apart;
* `label_volumes_iff`: the volumes of a label are volumes in the command just if none of the names in
  the label begins with a dot. Other characters that matter are replaced, but a dot is not.
-/

namespace Vgi

open List Option Shell
variable (spec : ContainerSpec)

/-! ## Names -/

/-- Characters that a volume may have in its name. -/
def isVolumeChar (c : UInt8) : Bool :=
  (97 ≤ c && c ≤ 122) || (65 ≤ c && c ≤ 90) || (48 ≤ c && c ≤ 57) || c = 95 || c = 46 || c = 45

def sanitizeVolumeToken (s : Bytes) : Bytes :=
  let out := s.map fun c => if isVolumeChar c then c else 95
  if out = [] then ascii "vol" else out

/-! ## The label -/

inductive Json
  | null | bool (b : Bool) | number (digits : Bytes) | string (s : Bytes)
  | array (elems : List Json) | object (fields : List (Bytes × Json))

structure ContainerVolume where
  /-- A volume, or a directory of the host. -/
  host : Bytes
  path : Bytes
  deriving DecidableEq

/-- The volume that an element of the label asks for; a path is needed, and a name is made up if there is none. -/
def labelVolume (image : Bytes) : Json → Option ContainerVolume
  | .object fields =>
    match fields.lookup (ascii "path") with
    | some (.string path) =>
      let path := cString path
      match fields.lookup (ascii "name") with
      | some (.string name) => some ⟨sanitizeVolumeToken (cString name), path⟩
      | _ => some ⟨ascii "vgi_" ++ sanitizeVolumeToken image ++ ascii "_" ++ sanitizeVolumeToken path, path⟩
    | _ => none
  | _ => none

structure ContainerRuntime where
  binary : Bytes
  kind : Bytes

structure CommandResult where
  exitCode : ℤ
  output : Bytes

/-- What is outside: the results of the commands, in the order they are run, and the JSON parser. -/
structure ContainerHost where
  run : ℕ → Bytes → CommandResult
  readJson : Bytes → Option Json

def volumesLabel : Bytes := ascii "farm.query.vgi.volumes"

def trim (s : Bytes) : Bytes := ((s.dropWhile isSpace).reverse.dropWhile isSpace).reverse

/-- A text in one line. -/
def oneLine (s : Bytes) : Bytes := s.map fun c => if c = 10 then 32 else c

namespace ContainerHost

variable (H : ContainerHost) (runtime : ContainerRuntime)

def inspectCommand (image : Bytes) : Bytes :=
  let fmt := ascii "\x7b\x7b index .Config.Labels \"" ++ volumesLabel ++ ascii "\" \x7d\x7d"
  quote runtime.binary ++ ascii " image inspect --format " ++ quote fmt ++ ascii " " ++
    quote image

/-- Inspect the image; if this fails, then pull it first. -/
def runInspect (image : Bytes) : Except Bytes Bytes :=
  let res := H.run 0 (inspectCommand runtime image)
  if res.exitCode = 0 then .ok res.output
  else
    let pull := H.run 1 (quote runtime.binary ++ ascii " pull " ++ quote image)
    if pull.exitCode ≠ 0 then
      .error (ascii "vgi container: failed to pull image '" ++ image ++ ascii "' via " ++ runtime.kind ++
        ascii ": " ++ oneLine pull.output)
    else
      let res := H.run 2 (inspectCommand runtime image)
      if res.exitCode ≠ 0 then
        .error (ascii "vgi container: failed to inspect image '" ++ image ++ ascii "' via " ++
          runtime.kind ++ ascii ": " ++ oneLine res.output)
      else .ok res.output

/-- The elements of the label. -/
def labelElements (image : Bytes) : Except Bytes (List Json) := do
  let label := trim (← H.runInspect runtime image)
  if label = [] ∨ label = ascii "<no value>" then return []
  match H.readJson label with
  | none => .error (ascii "vgi container: image '" ++ image ++ ascii "' has a malformed " ++ volumesLabel ++
      ascii " label: " ++ label)
  | some (.array elems) => return elems
  | some _ => .error (ascii "vgi container: image '" ++ image ++ ascii "' " ++ volumesLabel ++
      ascii " label is not a JSON array: " ++ label)

def inspectImageVolumes (image : Bytes) : Except Bytes (List ContainerVolume) := do
  return (← H.labelElements runtime image).filterMap (labelVolume image)

end ContainerHost

/-! ## The command -/

/-- How the container is spoken to; there is one way. -/
inductive ContainerTransport
  | stdio

def ContainerTransport.text : ContainerTransport → Bytes
  | stdio => ascii "stdio"

structure ContainerSpec where
  runtime : ContainerRuntime
  image : Bytes
  transport : ContainerTransport := .stdio
  volumes : List ContainerVolume
  env : List Bytes
  extraArgs : List Bytes

/-- Stands for the name of the container, which is filled in when it is run. -/
def containerNamePlaceholder : Bytes := ascii "__VGI_CONTAINER_NAME__"

def containerLabel : Bytes := ascii "farm.query.vgi.worker=1"

/-- The argument that mounts a volume. -/
def ContainerVolume.argument (vol : ContainerVolume) : Bytes := vol.host ++ ascii ":" ++ vol.path

def buildContainerRunCommandTemplate : Bytes :=
  quote spec.runtime.binary ++ ascii " run -i --rm" ++
    ascii " --name " ++ containerNamePlaceholder ++ ascii " --label " ++ quote containerLabel ++
    spec.volumes.flatMap (fun vol => ascii " -v " ++ quote vol.argument) ++
    spec.env.flatMap (fun e => ascii " -e " ++ quote e) ++
    spec.extraArgs.flatMap (fun arg => ascii " " ++ quote arg) ++
    ascii " " ++ quote spec.image ++ ascii " " ++ spec.transport.text

open Shell (Piece)

/-- The words that all commands have after the first. -/
def runOptions : List Piece :=
  [.plain (ascii "run"), .plain (ascii "-i"), .plain (ascii "--rm"), .plain (ascii "--name"),
    .plain containerNamePlaceholder, .plain (ascii "--label"), .quoted containerLabel]

/-- An option with an argument. -/
def option (name : String) (arg : Bytes) : List Piece := [.plain (ascii name), .quoted arg]

/-- The words of the command after the first, as they are written. -/
def ContainerSpec.pieces : List Piece :=
  let volumes := spec.volumes.flatMap fun vol => option "-v" vol.argument
  let env := spec.env.flatMap (option "-e")
  let rest : List Piece := [.quoted spec.image, .plain spec.transport.text]
  runOptions ++ volumes ++ env ++ spec.extraArgs.map Piece.quoted ++ rest

theorem template_eq_render :
    buildContainerRunCommandTemplate spec = render (.quoted spec.runtime.binary) spec.pieces := by
  have hrun : ascii " run -i --rm" = 32 :: ascii "run" ++ 32 :: ascii "-i" ++ 32 :: ascii "--rm" :=
    rfl
  have hnm : ascii " --name " = 32 :: ascii "--name" ++ [32] := rfl
  have hlb : ascii " --label " = 32 :: ascii "--label" ++ [32] := rfl
  have hv : ascii " -v " = 32 :: ascii "-v" ++ [32] := rfl
  have he : ascii " -e " = 32 :: ascii "-e" ++ [32] := rfl
  have hbl : ascii " " = [32] := rfl
  simp only [buildContainerRunCommandTemplate, render, ContainerSpec.pieces, runOptions, option, hrun,
    hnm, hlb, hv, he, hbl, flatMap_append, flatMap_assoc, flatMap_map,
    flatMap_cons, flatMap_nil, Piece.text, append_assoc, cons_append, nil_append,
    append_nil]

theorem valid_option {name : String} (h : (Piece.plain (ascii name)).Valid) (arg : Bytes) :
    ∀ q ∈ option name arg, q.Valid :=
  forall_mem_cons.2 ⟨h, forall_mem_singleton.2 trivial⟩

theorem ContainerSpec.pieces_valid : ∀ q ∈ spec.pieces, q.Valid := by
  intro q hq
  simp only [pieces, mem_append, mem_flatMap, List.mem_map] at hq
  rcases hq with (((hq | ⟨vol, -, hq⟩) | ⟨e, -, hq⟩) | ⟨arg, -, rfl⟩) | hq
  · revert q
    simp [runOptions, ascii, Piece.Valid, isPlain, containerNamePlaceholder]
  · have hv : (Piece.plain (ascii "-v")).Valid := ⟨cons_ne_nil _ _, all_eq_true.1 rfl⟩
    exact valid_option hv _ q hq
  · have hv : (Piece.plain (ascii "-e")).Valid := ⟨cons_ne_nil _ _, all_eq_true.1 rfl⟩
    exact valid_option hv _ q hq
  · trivial
  · rcases mem_pair.1 hq with rfl | rfl
    · trivial
    · exact ⟨cons_ne_nil _ _, all_eq_true.1 rfl⟩

/-- The command is taken apart into these words. -/
theorem words_template :
    words .blank (buildContainerRunCommandTemplate spec) = some (spec.runtime.binary :: spec.pieces.map (·.value)) := by
  rw [template_eq_render]
  exact words_render trivial spec.pieces_valid

variable {vol : ContainerVolume}

/-- Each volume is an argument of its own, after `-v`. -/
theorem volume_infix_pieces {spec : ContainerSpec} (h : vol ∈ spec.volumes) :
    [ascii "-v", vol.argument] <:+: spec.pieces.map (·.value) := by
  obtain ⟨before, after, hvl⟩ := append_of_mem h
  refine ⟨(runOptions ++ before.flatMap fun v => option "-v" v.argument).map (·.value), ?_, ?_⟩
  · exact (after.flatMap (fun v => option "-v" v.argument) ++ spec.env.flatMap (option "-e") ++
      spec.extraArgs.map Piece.quoted ++ [Piece.quoted spec.image, Piece.plain spec.transport.text]).map (·.value)
  · simp only [ContainerSpec.pieces, hvl, option, Piece.value, map_append, flatMap_append,
      flatMap_cons, map_cons, map_nil, append_assoc]

/-! ## What a label can ask for -/

/-- The part of an argument that says what is mounted. -/
def volumeSource (arg : Bytes) : Bytes := arg.takeWhile (· ≠ 58)

/-- This is a volume, and not a directory of the host. -/
abbrev IsVolumeName (source : Bytes) : Prop :=
  source ≠ [] ∧ 47 ∉ source ∧ source.head? ≠ some 46 ∧ source.head? ≠ some 47

/-- The command has an argument for the volume, and what it mounts is a volume. -/
def MountsVolume (command : Bytes) (vol : ContainerVolume) : Prop :=
  ∃ words, Shell.words .blank command = some words ∧ [ascii "-v", vol.argument] <:+: words ∧
    IsVolumeName (volumeSource vol.argument)

/-- The name that an element of the label gives to a volume. -/
def requestedName : Json → Option Bytes
  | .object fields =>
    match fields.lookup (ascii "path"), fields.lookup (ascii "name") with
    | some (.string _), some (.string name) => some (cString name)
    | _, _ => none
  | _ => none

theorem mem_sanitizeVolumeToken {s : Bytes} {c : UInt8} (h : c ∈ sanitizeVolumeToken s) : isVolumeChar c := by
  rw [sanitizeVolumeToken] at h
  split_ifs at h
  · exact (all_eq_true.1 rfl : ∀ c ∈ ascii "vol", isVolumeChar c) c h
  · obtain ⟨c', -, rfl⟩ := List.mem_map.1 h
    split_ifs with hc
    · exact hc
    · rfl

theorem sanitizeVolumeToken_ne_nil (s : Bytes) : sanitizeVolumeToken s ≠ [] := by
  rw [sanitizeVolumeToken]
  split_ifs with h
  · exact cons_ne_nil _ _
  · exact h

/-- Only a dot becomes a dot. -/
theorem head?_sanitizeVolumeToken (s : Bytes) : (sanitizeVolumeToken s).head? = some 46 ↔ s.head? = some 46 := by
  rcases s with _ | ⟨c, s⟩
  · decide +kernel
  have hkp : (if isVolumeChar c then c else 95) = 46 ↔ c = 46 := by
    constructor
    · intro h
      split_ifs at h
      · exact h
      · exact absurd h (by decide)
    · rintro rfl
      rfl
  rw [sanitizeVolumeToken, map_cons, if_neg (cons_ne_nil _ _), List.head?_cons, List.head?_cons,
    some_inj, some_inj, hkp]

theorem isVolumeChar_ne {c : UInt8} (h : isVolumeChar c) : c ≠ 47 ∧ c ≠ 58 := by
  constructor <;> rintro rfl <;> exact absurd h (by decide)

/-- A source without colons is the part before the first colon. -/
theorem volumeSource_argument (h : ∀ c ∈ vol.host, isVolumeChar c) : volumeSource vol.argument = vol.host := by
  have hne : ∀ c ∈ vol.host, decide (c ≠ 58) = true := fun c hc => decide_eq_true (isVolumeChar_ne (h c hc)).2
  rw [volumeSource, ContainerVolume.argument, append_assoc, takeWhile_append_of_pos hne]
  exact append_nil _

/-- A text of such characters is a volume just if it does not begin with a dot. -/
theorem isVolumeName_iff {host : Bytes} (hne : host ≠ []) (h : ∀ c ∈ host, isVolumeChar c) :
    IsVolumeName host ↔ host.head? ≠ some 46 := by
  refine ⟨fun hnm => hnm.2.2.1, fun hdt => ⟨hne, fun hsl => ?_, hdt, fun hsl => ?_⟩⟩
  · exact (isVolumeChar_ne (h _ hsl)).1 rfl
  · exact (isVolumeChar_ne (h _ (mem_of_head? hsl))).1 rfl

/-- The name that is made up for a volume is that of a volume. -/
theorem isVolumeName_synthesized (image path : Bytes) :
    let host := ascii "vgi_" ++ sanitizeVolumeToken image ++ ascii "_" ++ sanitizeVolumeToken path
    (∀ c ∈ host, isVolumeChar c) ∧ IsVolumeName host := by
  intro host
  have hch : ∀ c ∈ host, isVolumeChar c := by
    intro c hc
    simp only [host, mem_append] at hc
    rcases hc with ((hc | hc) | hc) | hc
    · exact (all_eq_true.1 rfl : ∀ c ∈ ascii "vgi_", isVolumeChar c) c hc
    · exact mem_sanitizeVolumeToken hc
    · exact (all_eq_true.1 rfl : ∀ c ∈ ascii "_", isVolumeChar c) c hc
    · exact mem_sanitizeVolumeToken hc
  have hhd : host.head? = some 118 := rfl
  refine ⟨hch, (isVolumeName_iff (fun h => ?_) hch).2 ?_⟩
  · rw [h] at hhd
    cases hhd
  · rw [hhd]
    decide

/-- What an element of the label asks for is a volume just if its name does not begin with a dot. -/
theorem labelVolume_iff {image : Bytes} {e : Json} (h : labelVolume image e = some vol) :
    (∀ c ∈ vol.host, isVolumeChar c) ∧ (IsVolumeName vol.host ↔ ∀ name ∈ requestedName e, name.head? ≠ some 46) := by
  rcases e with _ | _ | _ | _ | _ | fields
  case object =>
    rw [labelVolume] at h
    rw [requestedName]
    split at h
    · next path hpt =>
      rw [hpt]
      split at h
      · -- the name is given
        next name hnm =>
        rw [hnm]
        cases h
        have hch : ∀ c ∈ sanitizeVolumeToken (cString name), isVolumeChar c := fun c hc => mem_sanitizeVolumeToken hc
        refine ⟨hch, ?_⟩
        rw [isVolumeName_iff (sanitizeVolumeToken_ne_nil _) hch, Ne, head?_sanitizeVolumeToken]
        exact ⟨fun h n hn => some.inj hn ▸ h, fun h => h _ rfl⟩
      · next hnm =>
        cases h
        obtain ⟨hch, hvl⟩ := isVolumeName_synthesized image (cString path)
        refine ⟨hch, fun _ n hn => ?_, fun _ => hvl⟩
        split at hn
        · next hnm' => exact absurd hnm' (hnm _)
        · exact absurd hn (not_mem_none n)
    · cases h
  all_goals exact nomatch h

/-- An element with a name asks for a volume. -/
theorem labelVolume_of_requestedName {image : Bytes} {e : Json} {name : Bytes} (h : name ∈ requestedName e) :
    ∃ vol, labelVolume image e = some vol := by
  rcases e with _ | _ | _ | _ | _ | fields
  case object =>
    rw [requestedName] at h
    split at h
    · next path name' hpt hnm =>
      rw [labelVolume, hpt]
      rw [hnm]
      exact ⟨_, rfl⟩
    · exact absurd h (not_mem_none name)
  all_goals exact absurd h (not_mem_none name)

/-- The volumes of the label of an image are volumes in the command that runs it, whatever else is
    mounted, just if no name in the label begins with a dot. -/
theorem label_volumes_iff (H : ContainerHost) (runtime : ContainerRuntime) (image : Bytes) (spec : ContainerSpec)
    {elems : List Json} {volumes : List ContainerVolume} (helems : H.labelElements runtime image = .ok elems)
    (hvolumes : H.inspectImageVolumes runtime image = .ok volumes) (hspec : volumes ⊆ spec.volumes) :
    (∀ vol ∈ volumes, MountsVolume (buildContainerRunCommandTemplate spec) vol) ↔
      ∀ e ∈ elems, ∀ name ∈ requestedName e, name.head? ≠ some 46 := by
  rw [ContainerHost.inspectImageVolumes, helems] at hvolumes
  obtain rfl : elems.filterMap (labelVolume image) = volumes := Except.ok.inj hvolumes
  constructor
  · intro h e he name hnm
    obtain ⟨vol, hvl⟩ : ∃ vol, labelVolume image e = some vol := labelVolume_of_requestedName hnm
    obtain ⟨hch, hif⟩ := labelVolume_iff hvl
    obtain ⟨-, -, -, hsr⟩ := h vol (mem_filterMap.2 ⟨e, he, hvl⟩)
    rw [volumeSource_argument hch] at hsr
    exact hif.1 hsr name hnm
  · intro h vol hvl
    obtain ⟨e, he, hlb⟩ := mem_filterMap.1 hvl
    obtain ⟨hch, hif⟩ := labelVolume_iff hlb
    refine ⟨_, words_template spec, ?_, ?_⟩
    · exact (volume_infix_pieces (hspec hvl)).trans (suffix_cons _ _).isInfix
    · rw [volumeSource_argument hch]
      exact hif.2 (h e he)

/-- A runtime that answers with the label. -/
def answering (elems : List Json) : ContainerHost where
  run _ _ := ⟨0, ascii "label"⟩
  readJson _ := some (.array elems)

/-- An element of a label. -/
def element (path name : String) : Json :=
  .object [(ascii "path", .string (ascii path)), (ascii "name", .string (ascii name))]

def docker : ContainerRuntime := ⟨ascii "/usr/bin/docker", ascii "docker"⟩

/-- What these two labels give: a name, and a path of the host as a name. -/
def labelled : List ContainerVolume := [⟨ascii "models", ascii "/models"⟩, ⟨ascii "_var_run_docker.sock", ascii "/s"⟩]

/-- Both are mounted as volumes. -/
theorem answering_mounts :
    (answering [element "/models" "models", element "/s" "/var/run/docker.sock"]).inspectImageVolumes docker
        (ascii "img") = .ok labelled ∧
      (MountsVolume (buildContainerRunCommandTemplate ⟨docker, ascii "img", .stdio, labelled, [], []⟩)
          ⟨ascii "models", ascii "/models"⟩ ∧
        MountsVolume (buildContainerRunCommandTemplate ⟨docker, ascii "img", .stdio, labelled, [], []⟩)
          ⟨ascii "_var_run_docker.sock", ascii "/s"⟩) := by
  have hvl : (answering [element "/models" "models", element "/s" "/var/run/docker.sock"]).inspectImageVolumes
      docker (ascii "img") = .ok labelled := by decide +kernel
  have hmn := (label_volumes_iff _ docker (ascii "img") ⟨docker, ascii "img", .stdio, labelled, [], []⟩ rfl
    hvl (List.Subset.refl _)).2 (by decide +kernel)
  exact ⟨hvl, hmn _ mem_cons_self, hmn _ (mem_cons_of_mem _ mem_cons_self)⟩

/-- With the name `..` the directory above the working directory is mounted. -/
theorem answering_dots :
    (answering [element "/data" ".."]).inspectImageVolumes docker (ascii "img") =
      .ok [⟨ascii "..", ascii "/data"⟩] ∧
    words .blank (buildContainerRunCommandTemplate ⟨docker, ascii "img", .stdio,
        [⟨ascii "..", ascii "/data"⟩], [], []⟩) =
      some (["/usr/bin/docker", "run", "-i", "--rm", "--name", "__VGI_CONTAINER_NAME__", "--label",
        "farm.query.vgi.worker=1", "-v", "..:/data", "img", "stdio"].map ascii) ∧
    ¬IsVolumeName (volumeSource (ascii "..:/data")) := by
  refine ⟨?_, ?_, ?_⟩
  all_goals decide +kernel

end Vgi
