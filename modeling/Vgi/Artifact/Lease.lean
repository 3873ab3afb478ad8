import Vgi.Artifact.Discipline

/-!
# Leased artifacts

Whoever has a lease of an artifact can rely on its files until it is dropped, whatever else is installed, repaired,
launched and removed meanwhile. There is one exception. A manifest is written to a file beside it and then moved, and
nothing keeps a package from having a file of that name (`lease_broken`). If no package does:

* `leases_kept`: in every interleaving of calls, the files that were there when a lease was returned are there until it
  is dropped, and so is the entrypoint; and a lease of `Install` is of a directory with all that was unpacked;
* `valid_complete`: what would be taken for valid is complete.
-/

namespace Vgi

open Prog Function List StoredFiles Discipline Artifact Option Meets

namespace Artifact

open ArtifactWorld

variable {H : ArtifactHost} {i h : ℕ} {a : ArtifactId} {F : ArtifactWorld → Prop}

/-! ## Checks -/

theorem meets_keep_read {β : Type} {f : ArtifactWorld → β} (hs : (discipline H).Stable i F) :
    Runs H i (fun _ => F) (read f : ArtifactProg β) F :=
  meets_read (fun _ => hs) (Moves.refl i) fun _ _ hf => hf

/-- What is valid is complete, and whoever finds it not to be valid may rely on that. -/
theorem spec_cacheValid (hs : (discipline H).Stable i F) :
    Runs H i (fun v g => F g ∧ HoldsInstall i a g ∧ (v = true → CompleteAt H a g) ∧
      (v = false → InvalidAt H a g)) (cacheValid H a) fun g => F g ∧ HoldsInstall i a g := by
  let entry (d : Option ArtifactDir) : Bool := d.any fun dir => (dir.files.lookup a.entrypoint).isSome
  let manifest (d : Option ArtifactDir) : Bool := d.any fun dir => (dir.files.lookup manifestName).isSome
  let contents (d : Option ArtifactDir) : Bytes := (d.bind fun dir => dir.files.lookup manifestName).getD []
  refine bind
    (meets_read (fun e => hs.and (stable_artifacts fun d => entry d = e)) (Moves.refl i)
      fun g _ hf => ⟨hf.1, hf.2, rfl⟩) fun e => ?_
  refine bind
    (meets_read (fun m => hs.and (stable_artifacts fun d => entry d = e ∧ manifest d = m)) (Moves.refl i)
      fun g _ hf => ⟨hf.1, hf.2.1, hf.2.2, rfl⟩) fun m => ?_
  refine bind
    (meets_read (fun c => hs.and (stable_artifacts fun d => entry d = e ∧ manifest d = m ∧ contents d = c))
      (Moves.refl i) fun g _ hf => ⟨hf.1, hf.2.1, hf.2.2.1, hf.2.2.2, rfl⟩) fun c => ?_
  refine meets_pure fun g hg hf => ⟨hf.1, hf.2.1, ?_⟩
  obtain ⟨-, -, rfl, rfl, rfl⟩ := hf
  have hif : ∀ dir, g.artifacts a = some dir → (dir.Valid H a ↔ (entry (g.artifacts a) && manifest (g.artifacts a) &&
      manifestMatches H a (contents (g.artifacts a))) = true) := by
    intro dir hdir
    rw [hdir, Bool.and_eq_true, Bool.and_eq_true]
    exact ⟨fun hv => ⟨⟨hv.1, hv.2⟩, hv.3⟩, fun hv => ⟨hv.1.1, hv.1.2, hv.2⟩⟩
  refine ⟨fun hv => ?_, fun hv dir hdir hvl => ?_⟩
  · rcases hdir : g.artifacts a with _ | dir
    · rw [hdir] at hv
      cases hv
    · have hvl := (hif dir hdir).2 hv
      exact ⟨dir, hdir, (hg.dirs a dir hdir).complete.resolve_right fun hinv => hinv hvl⟩
  · rw [(hif dir hdir).1 hvl] at hv
    cases hv

/-! ## Installation -/

section Install

variable {p : ℕ} {req : InstallRequest} {g : ArtifactWorld}

/-- Whoever holds both locks may do anything to a directory. -/
theorem artifacts_moves (hl : HoldsLease i a g) (hi : HoldsInstall i a g) (d : Option ArtifactDir) :
    g.Moves i { g with artifacts := update g.artifacts a d } := by
  have hot : ∀ b, (g.install b).exclusive ≠ some i ∨ (g.lease b).exclusive ≠ some i → b ≠ a := by
    rintro b (hb | hb) rfl
    · exact hb hi
    · exact hb hl
  refine { Moves.refl i g with
    artifacts := fun b hb => update_of_ne (hot b (.inl hb)) _ _
    kept := fun b hb dir hdir => ⟨dir, ?_, .refl dir⟩ }
  exact (update_of_ne (hot b (.inr hb)) _ _).trans hdir

/-- A sound directory may be put there. -/
theorem inv_update (hg : g.Inv H) {d : Option ArtifactDir} {staging : StagingName → Option StoredFiles}
    (hm : g.Moves i { g with artifacts := update g.artifacts a d, staging })
    (hd : ∀ dir, d = some dir → dir.Sound H a) :
    ({ g with artifacts := update g.artifacts a d, staging } : ArtifactWorld).Inv H := by
  refine hg.of_moves hm (fun b dir hdir => ?_) hg.shared hg.fresh fun l hl => ⟨hl, (hg.leases l hl).1⟩
  dsimp only at hdir
  by_cases hba : b = a
  · subst hba
    rw [update_self] at hdir
    exact hd dir hdir
  · rw [update_of_ne hba] at hdir
    exact hg.dirs b dir hdir

/-- What is known while a directory is replaced. -/
def Replacing (H : ArtifactHost) (i : ℕ) (a : ArtifactId) (g : ArtifactWorld) : Prop :=
  HoldsLease i a g ∧ HoldsInstall i a g ∧ InvalidAt H a g

theorem stable_replacing : (discipline H).Stable i (Replacing H i a) :=
  stable_holdsLease.and (stable_artifacts fun d => ∀ dir, d = some dir → ¬dir.Valid H a)

theorem stagingFrame_replacing : StagingFrame H i (Replacing H i a) := fun _ _ _ _ hf => hf

theorem valid_of_remove {dir : ArtifactDir} {path : Bytes}
    (h : ({ dir with files := dir.files.remove path } : ArtifactDir).Valid H a) : dir.Valid H a := by
  have hlk : ∀ q, ((dir.files.remove path).lookup q).isSome →
      (dir.files.remove path).lookup q = dir.files.lookup q := by
    intro q hq
    rw [lookup_remove] at hq ⊢
    split_ifs at hq ⊢
    · cases hq
    · rfl
  obtain ⟨hent, hmn, hmt⟩ := h
  have heq := hlk _ hmn
  exact ⟨hlk _ hent ▸ hent, heq ▸ hmn, heq ▸ hmt⟩

/-- A directory that is not valid is changed, and is still not. -/
theorem spec_invalid (d : ArtifactWorld → Option ArtifactDir)
    (hd : ∀ g dir', d g = some dir' → ∃ dir, g.artifacts a = some dir ∧ dir'.request = dir.request ∧
      (dir'.Valid H a → dir.Valid H a)) :
    Runs H i (fun _ => Replacing H i a)
      (modify fun g => { g with artifacts := update g.artifacts a (d g) } : ArtifactProg Unit) (Replacing H i a) := by
  refine meets_modify stable_replacing fun g hg hf => ?_
  have hm := artifacts_moves hf.1 hf.2.1 (d g)
  have hinv : ∀ dir', d g = some dir' → ¬dir'.Valid H a := fun dir' hdir' hvl => by
    obtain ⟨dir, hdir, -, hv⟩ := hd g dir' hdir'
    exact hf.2.2 dir hdir (hv hvl)
  refine ⟨inv_update hg hm fun dir' hdir' => ?_, hm, hf.1, hf.2.1, fun dir' hdir' => hinv dir' ?_⟩
  · obtain ⟨dir, hdir, hreq, -⟩ := hd g dir' hdir'
    have hsnd := hg.dirs a dir hdir
    exact ⟨hreq ▸ hsnd.id, hreq ▸ hsnd.unreserved, .inr (hinv dir' hdir')⟩
  · change update g.artifacts a (d g) a = some dir' at hdir'
    rwa [update_self] at hdir'

theorem spec_rmRf_artifact : Runs H i (fun _ => Replacing H i a) (rmRf (.artifact a)) (Replacing H i a) := by
  refine (meets_ask stable_replacing (Moves.refl i)).bind fun paths => ?_
  refine (meets_forEach paths fun path _ => spec_invalid _ fun g dir' hdir' => ?_).bind
    fun _ => spec_invalid _ fun g dir' hdir' => ?_
  · obtain ⟨dir, hdir, rfl⟩ := map_eq_some_iff.1 hdir'
    exact ⟨dir, hdir, rfl, valid_of_remove⟩
  · exact ⟨dir', (filter_eq_some_iff.1 hdir').1, rfl, id⟩

/-- What does not matter to others. -/
theorem spec_fetchCounter (hs : (discipline H).Stable i F) (hF : ∀ g c, F g → F { g with stagingCounter := c }) :
    Runs H i (fun _ => F) (fetchCounter p) F := by
  refine meets_atomic (fun _ => hs) fun g _ g' k hg hf heq => ?_
  cases heq
  have hm : g.Moves i { g with stagingCounter := update g.stagingCounter p (g.stagingCounter p + 1) } :=
    { Moves.refl i g with }
  exact ⟨hg.same_files hm, hm, hF g _ hf⟩

variable {E : ArtifactWorld → Prop}

theorem spec_require {e : ArtifactError} {b : Bool} (hE : ∀ g, g.Inv H → F g → E g) :
    Ends H i (fun _ g => F g ∧ b = true) E (require e b) F := by
  rcases b with _ | _
  · exact meets_throw hE
  · exact meets_return fun _ _ hf => ⟨hf, rfl⟩

theorem spec_requireSome {β : Type} {e : ArtifactError} {o : Option β} (hE : ∀ g, g.Inv H → F g → E g) :
    Ends H i (fun b g => F g ∧ o = some b) E (requireSome e o) F := by
  rcases o with _ | b
  · exact meets_throw hE
  · exact meets_return fun _ _ hf => ⟨hf, rfl⟩

/-- What is staged has all that was unpacked. -/
structure Filled (H : ArtifactHost) (req : InstallRequest) (t : StoredFiles) : Prop where
  files : ∀ path c, path ≠ manifestName → (writeAll [] (H.unpack req).files).lookup path = some c →
    t.lookup path = some c
  entrypoint : (t.lookup req.entrypoint).isSome

theorem filled_writeAll {t : StoredFiles} (h : ((t.writeAll (H.unpack req).files).lookup req.entrypoint).isSome) :
    Filled H req (t.writeAll (H.unpack req).files) := by
  refine ⟨fun path c _ hpt => ?_, h⟩
  rw [lookup_writeAll, hpt]
  rfl

theorem Filled.write {t : StoredFiles} (h : Filled H req t) (c : Bytes) : Filled H req (t.write manifestName c) := by
  refine ⟨fun path c' hpt hlk => ?_, ?_⟩
  · rw [lookup_write_of_ne hpt]
    exact h.files path c' hpt hlk
  by_cases hent : req.entrypoint = manifestName
  · rw [hent, lookup_write_self]
    rfl
  · rw [lookup_write_of_ne hent]
    exact h.entrypoint

/-- What is known once the directory is in its place. -/
def Placed (H : ArtifactHost) (i : ℕ) (a : ArtifactId) (g : ArtifactWorld) : Prop :=
  HoldsInstall i a g ∧ CompleteAt H a g

theorem stable_placed : (discipline H).Stable i (Placed H i a) :=
  stable_artifacts fun d => ∃ dir, d = some dir ∧ dir.Complete H

theorem spec_publish {s : StagingName} (hs : s.id = H.artifactId req) (hreq : req.Unreserved H)
    (hent : (H.unpack req).entry = some req.entrypoint) :
    Ends H i (fun _ => Placed H i (H.artifactId req)) (Replacing H i (H.artifactId req))
      (publish s req (H.artifactId req))
      fun g => Replacing H i (H.artifactId req) g ∧ Staged i s (Filled H req) g := by
  refine meets_attempt (fun _ => stable_placed) stable_replacing (fun g g' r hg hf heq => ?_) fun _ _ hf => hf.1
  obtain ⟨hf, -, t, ht, hfl⟩ := hf
  rw [ht] at heq
  split_ifs at heq <;> cases heq
  · exact ⟨hg, .refl i g, hf⟩
  have hcp : (⟨req, t⟩ : ArtifactDir).Complete H := { hfl with entry := hent }
  have hm : g.Moves i { g with
      artifacts := update g.artifacts (H.artifactId req) (some ⟨req, t⟩)
      staging := update g.staging s none } :=
    { artifacts_moves hf.1 hf.2.1 (some ⟨req, t⟩) with
      staging := (staging_moves (hs ▸ hf.2.1 : HoldsInstall i s.id g) none).staging }
  refine ⟨inv_update hg hm fun dir hdir => ?_, hm, hf.2.1, _, update_self .., hcp⟩
  cases hdir
  exact ⟨rfl, hreq, .inl hcp⟩

theorem spec_unpackAndPublish {k : ℕ} (hreq : req.Unreserved H) :
    Ends H i (fun _ => Placed H i (H.artifactId req)) (Replacing H i (H.artifactId req))
      (unpackAndPublish H req (.unpacked (H.artifactId req) k))
      fun g => Replacing H i (H.artifactId req) g ∧ Staged i (.unpacked (H.artifactId req) k) (fun _ => True) g := by
  have hs : (discipline H).Stable i (Replacing H i (H.artifactId req)) := stable_replacing
  have hF : StagingFrame H i (Replacing H i (H.artifactId req)) := stagingFrame_replacing
  have hst := (spec_writeAllStaging hs hF [] (H.unpack req).files).pre
    fun g _ (hf : Replacing H i (H.artifactId req) g ∧
      Staged i (.unpacked (H.artifactId req) k) (fun _ => True) g) => by
      obtain ⟨hf, hi, t, ht, -⟩ := hf
      exact ⟨hf, hi, t, ht, t, rfl⟩
  refine hst.thenE fun _ => ?_
  refine (spec_requireSome fun _ _ hf => hf.1).thenE fun entry => meets_of_fact fun hent => ?_
  refine (spec_require fun _ _ hf => hf.1).thenE fun _ => meets_of_fact fun hnm => ?_
  rw [of_decide_eq_true hnm] at hent
  -- the size is known only if the entrypoint is there
  let X (size : Option ℕ) t : Prop := size.isSome → Filled H req t
  have hsz : Runs H i (fun size g => Replacing H i (H.artifactId req) g ∧
      Staged i (.unpacked (H.artifactId req) k) (X size) g)
      (sizeStaging (.unpacked (H.artifactId req) k) req.entrypoint) fun g => Replacing H i (H.artifactId req) g ∧
        Staged i (.unpacked (H.artifactId req) k)
          (fun t => ∃ base : StoredFiles, t = base.writeAll ([] ++ (H.unpack req).files)) g := by
    refine meets_read (fun _ => hs.and (stable_staged _)) (Moves.refl i) fun g _ hf => ?_
    obtain ⟨hf, hi, t, ht, base, rfl⟩ := hf
    refine ⟨hf, hi, _, ht, fun hsm => filled_writeAll ?_⟩
    rw [ht, bind_some, isSome_map] at hsm
    exact hsm
  refine hsz.liftE fun size => ?_
  refine (spec_requireSome fun _ _ hf => hf.1).thenE fun n => meets_of_fact fun hn => ?_
  refine (meets_ask (hs.and (stable_staged _)) (Moves.refl i)).liftE fun now => ?_
  refine (spec_writeStaging hs hF fun t ht => ?_).thenE fun _ => spec_publish rfl hreq hent
  exact (ht (by rw [hn]; rfl)).write _

theorem spec_repair (hreq : req.Unreserved H) :
    Ends H i (fun _ => Placed H i (H.artifactId req)) (fun _ => True) (repair H p req)
      (Replacing H i (H.artifactId req)) := by
  have hs : (discipline H).Stable i (Replacing H i (H.artifactId req)) := stable_replacing
  have hF : StagingFrame H i (Replacing H i (H.artifactId req)) := stagingFrame_replacing
  refine spec_rmRf_artifact.liftE fun _ => ?_
  refine (spec_fetchCounter hs fun _ _ hf => hf).liftE fun k => ?_
  have hbt : ∀ g, g.Inv H → Replacing H i (H.artifactId req) g → Replacing H i (H.artifactId req) g ∧
      HoldsInstall i (StagingName.unpacked (H.artifactId req) k).id g := fun _ _ hf => ⟨hf, hf.2.1⟩
  refine ((spec_rmRf_staging hs hF).pre hbt).liftE fun _ => ?_
  refine (spec_makeStaging hs hF).tryE fun _ => ?_
  exact meets_onError (spec_unpackAndPublish hreq)
    (((spec_rmRf_staging hs hF).pre hbt).post fun _ _ _ hf => hf.1) (fun _ _ _ hf => hf) fun _ _ _ _ => trivial

theorem spec_repairLeased {v : Bool} (hreq : req.Unreserved H) :
    Ends H i (fun _ => Placed H i (H.artifactId req)) (fun _ => True) (repairLeased H p i v req)
      fun g => HoldsInstall i (H.artifactId req) g ∧ (v = true → CompleteAt H (H.artifactId req) g) := by
  rcases v with _ | _
  · have hlc := (spec_lockLease (a := H.artifactId req) (stable_holdsInstall (H := H)) fun _ _ _ _ hf => hf).pre
      fun g _ (hf : HoldsInstall i (H.artifactId req) g ∧ (false = true → CompleteAt H (H.artifactId req) g)) => hf.1
    refine meets_holding hlc (U := Outcome (fun _ => Placed H i (H.artifactId req)) fun _ => True) ?_ (fun r => ?_)
      fun _ _ _ _ => trivial
    · have hvl := (spec_cacheValid (stable_holdsLease (H := H))).pre
        fun g _ (hf : HoldsInstall i (H.artifactId req) g ∧ HoldsLease i (H.artifactId req) g) => ⟨hf.2, hf.1⟩
      refine hvl.liftE fun v => ?_
      rcases v with _ | _
      · exact (spec_repair hreq).pre fun g _ hf => ⟨hf.1, hf.2.1, hf.2.2.2 rfl⟩
      · exact meets_return fun g _ hf => ⟨hf.2.1, hf.2.2.1 rfl⟩
    · rcases r with e | _
      · exact spec_unlockLease (stable_const True) fun _ _ _ _ hf => hf
      · exact spec_unlockLease stable_placed fun _ _ _ _ hf => hf
  · exact meets_return fun g _ hf => ⟨hf.1, hf.2 rfl⟩

/-- A complete directory stays complete if only its manifest changes. -/
theorem complete_same (dir dir' : ArtifactDir) (hdir : dir.Sound H a) (hsm : dir.Same dir') (h : dir.Complete H) :
    dir'.Complete H := h.same hdir.unreserved hsm

/-- While a lease is touched. -/
def Touching (H : ArtifactHost) (i h : ℕ) (a : ArtifactId) (g : ArtifactWorld) : Prop :=
  HoldsInstall i a g ∧ Leased i h a (·.Complete H) g

theorem stable_touching : (discipline H).Stable i (Touching H i h a) :=
  stable_holdsInstall.and (stable_leased complete_same)

/-- The manifest may change while the directory is leased. -/
theorem touch_moves (hg : g.Inv H) (hf : Touching H i h a g) {f : StoredFiles → StoredFiles}
    (hsm : ∀ dir : ArtifactDir, dir.Same { dir with files := f dir.files }) :
    (g.mapFiles f (.artifact a)).Inv H ∧ g.Moves i (g.mapFiles f (.artifact a)) ∧
      Touching H i h a (g.mapFiles f (.artifact a)) := by
  obtain ⟨hi, hown, dir, hdir, hcp⟩ := hf
  have hm : g.Moves i (g.mapFiles f (.artifact a)) := by
    refine { Moves.refl i g with
      artifacts := fun b hb => update_of_ne (show b ≠ a from fun heq => hb (heq ▸ hi)) _ _
      kept := fun b _ dir₀ hdir₀ => ?_ }
    by_cases hba : b = a
    · subst hba
      refine ⟨{ dir₀ with files := f dir₀.files }, (update_self ..).trans ?_, hsm dir₀⟩
      rw [hdir₀]
      rfl
    · exact ⟨dir₀, (update_of_ne hba _ _).trans hdir₀, .refl dir₀⟩
  have hsnd := hg.dirs a dir hdir
  refine ⟨inv_update hg hm fun dir' hdir' => ?_, hm, hi, Leased.moves complete_same ⟨hown, dir, hdir, hcp⟩ hg hm hown⟩
  rw [hdir] at hdir'
  cases hdir'
  exact { hsnd with complete := .inl (hcp.same hsnd.unreserved (hsm dir)) }

theorem ne_touchName {path : Bytes} (h : ¬Touched path) (k : ℕ) : path ≠ touchName k :=
  fun heq => h (heq ▸ touched_touchName k)

theorem same_write (k : ℕ) (c : Bytes) (dir : ArtifactDir) :
    dir.Same { dir with files := dir.files.write (touchName k) c } := by
  refine ⟨rfl, fun path _ hpt => lookup_write_of_ne (ne_touchName hpt k), fun hmn => ?_⟩
  rwa [lookup_write_of_ne (ne_touchName not_touched_manifestName k)]

theorem same_move (k : ℕ) (c : Bytes) (dir : ArtifactDir) :
    dir.Same { dir with files := (dir.files.remove (touchName k)).write manifestName c } := by
  refine ⟨rfl, fun path hm hpt => ?_, fun _ => ?_⟩
  · exact (lookup_write_of_ne hm).trans ((lookup_remove ..).trans (if_neg (ne_touchName hpt k)))
  · change (((dir.files.remove (touchName k)).write manifestName c).lookup manifestName).isSome
    rfl

theorem same_removeAll (k : ℕ) (dir : ArtifactDir) :
    dir.Same { dir with files := dir.files.removeAll (touchName k) } := by
  have hun : ∀ path, ¬Touched path → (dir.files.removeAll (touchName k)).lookup path = dir.files.lookup path :=
    fun path hpt => lookup_removeAll_of_not_under (Bool.eq_false_iff.2 fun h => hpt ⟨k, h⟩)
  refine ⟨rfl, fun path _ hpt => hun path hpt, fun hmn => ?_⟩
  rwa [hun manifestName not_touched_manifestName]

theorem spec_writeTouched {k : ℕ} {c : Bytes} :
    Runs H i (fun _ => Touching H i h a) (writeTouched a (touchName k) c).run (Touching H i h a) := by
  have hwr : Ends H i (fun _ => Touching H i h a) (Touching H i h a)
      (writePrivateFile a (touchName k) c) (Touching H i h a) := by
    refine meets_attempt (fun _ => stable_touching) stable_touching (fun g g' r hg hf heq => ?_) fun _ _ => id
    rcases hdir : g.artifacts a with _ | dir <;> rw [hdir] at heq <;> dsimp only at heq
    · cases heq
      exact ⟨hg, .refl i g, hf⟩
    · split_ifs at heq <;> cases heq
      · exact ⟨hg, .refl i g, hf⟩
      · exact touch_moves hg hf (same_write k c)
  have hmv : Ends H i (fun _ => Touching H i h a) (Touching H i h a)
      (moveToManifest a (touchName k)) (Touching H i h a) := by
    refine meets_attempt (fun _ => stable_touching) stable_touching (fun g g' r hg hf heq => ?_) fun _ _ => id
    rcases hc : (g.artifacts a).bind fun dir => dir.files.lookup (touchName k) with _ | c' <;> rw [hc] at heq <;>
      cases heq
    · exact ⟨hg, .refl i g, hf⟩
    · exact touch_moves hg hf (same_move k c')
  have hrm : Runs H i (fun _ => Touching H i h a) (removePath a (touchName k)) (Touching H i h a) :=
    meets_modify stable_touching fun g hg hf => touch_moves hg hf (same_removeAll k)
  exact meets_onError (hwr.thenE fun _ => hmv) hrm (fun _ _ _ hf => hf) fun _ _ _ hf => hf

theorem spec_touchLastUsed : Runs H i (fun _ => Touching H i h a) (touchLastUsed p a) (Touching H i h a) := by
  refine (meets_keep_read stable_touching).bind fun contents => ?_
  refine (meets_ask stable_touching (Moves.refl i)).bind fun now => ?_
  rcases replaceLastUsed now contents with _ | c
  · exact meets_pure fun _ _ => id
  · refine (spec_fetchCounter stable_touching fun _ _ hf => hf).bind fun k => ?_
    exact spec_writeTouched.bind fun _ => meets_pure fun _ _ hf => hf

/-- The lease is dropped if the entrypoint is not there. -/
theorem spec_leaseIf {found : Bool} {P : ArtifactWorld → Prop} {R : ArtifactWorld → Prop}
    (hown : ∀ g, g.Inv H → P g → (⟨h, a, i⟩ : LeaseOwner) ∈ g.owners)
    (hfn : found = true → ∀ g, g.Inv H → P g → R g) :
    Ends H i (fun h' g => R g ∧ h' = h) (fun _ => True) (leaseIf i a h found) P := by
  rcases found with _ | _
  · exact (spec_dropLease.pre hown).liftE fun _ => meets_throw fun _ _ => id
  · exact meets_return fun g hg hf => ⟨hfn rfl g hg hf, rfl⟩

section

variable (hs : (discipline H).Stable i F) (hc : Calm H i F)

include hs hc

omit hs in
/-- The registry does not matter to others. -/
theorem registry_moves (hg : g.Inv H) (hf : F g) (registry : ℕ → ArtifactId → Option ℕ) (registryMutex : ℕ → Option ℕ) :
    ({ g with registry, registryMutex } : ArtifactWorld).Inv H ∧ g.Moves i { g with registry, registryMutex } ∧
      F { g with registry, registryMutex } := by
  have hm : g.Moves i { g with registry, registryMutex } := { Moves.refl i g with }
  exact ⟨hg.same_files hm, hm, hc hg hm (fun _ ho => ho) hf⟩

theorem spec_registry {f : ArtifactWorld → ℕ → ArtifactId → Option ℕ} :
    Runs H i (fun _ => F) (modify fun g => { g with registry := f g } : ArtifactProg Unit) F :=
  meets_modify hs fun _ hg hf => registry_moves hc hg hf _ _

theorem spec_lockRegistry : Runs H i (fun _ => F) (lockRegistry p i) F := by
  refine meets_atomic (fun _ => hs) fun g _ g' _ hg hf heq => ?_
  split_ifs at heq
  obtain ⟨rfl, -⟩ := Prod.mk.inj (some.inj heq)
  exact registry_moves hc hg hf _ _

theorem spec_unlockRegistry : Runs H i (fun _ => F) (unlockRegistry p) F :=
  meets_modify hs fun _ hg hf => registry_moves hc hg hf _ _

theorem spec_registerLocked {k : ℕ} : Runs H i (fun _ => F) (registerLocked p i a k) F :=
  (spec_lockRegistry hs hc).bind fun _ => (spec_registry hs hc).bind fun _ => spec_unlockRegistry hs hc

end

theorem spec_installLocked (hreq : req.Unreserved H) :
    Ends H i (fun h => Leased i h (H.artifactId req) (·.Complete H)) (fun _ => True)
      (installLocked H p i req) (HoldsInstall i (H.artifactId req)) := by
  refine (spec_require fun _ _ _ => trivial).tryE fun _ => meets_of_fact fun _ => ?_
  have hvl := (spec_cacheValid (stable_const (D := discipline H) True)).pre
    fun g _ (hf : HoldsInstall i (H.artifactId req) g) => ⟨trivial, hf⟩
  refine hvl.liftE fun v => ?_
  refine ((spec_repairLeased hreq).pre fun g _ hf => ⟨hf.2.1, hf.2.2.1⟩).tryE fun _ => ?_
  refine (spec_acquireShared stable_placed fun _ _ _ _ hf => hf).tryE fun h => ?_
  have htc := (spec_touchLastUsed (p := p)).pre fun g _ (hf : Placed H i (H.artifactId req) g ∧
    ⟨h, H.artifactId req, i⟩ ∈ g.owners) => ⟨hf.1.1, hf.2, hf.1.2⟩
  refine htc.liftE fun _ => ?_
  refine (meets_keep_read stable_touching).liftE fun found => ?_
  refine (spec_leaseIf (fun g _ hf => hf.2.1) fun _ g _ hf => hf.2).tryE fun h' => meets_of_fact fun hh' => ?_
  subst hh'
  have hrg := spec_registerLocked (p := p) (a := H.artifactId req) (k := h') (stable_leased (h := h')
    (complete_same (H := H) (a := H.artifactId req)) (i := i)) (calm_leased complete_same)
  exact hrg.liftE fun _ => meets_return fun _ _ hf => hf

end Install

/-! ## Removal -/

section Prune

variable (hs : (discipline H).Stable i F) (hc : Calm H i F)

include hs hc

theorem spec_removeStaging {s : StagingName} {got : Bool} :
    Runs H i (fun _ => F) (removeStaging i s got)
      fun g => (F g ∧ HoldsInstall i s.id g) ∧ (got = true → HoldsLease i s.id g) := by
  rcases got with _ | _
  · exact meets_pure fun _ _ hf => hf.1.1
  · refine ((spec_rmRf_staging hs hc.stagingFrame).pre fun g _ hf => hf.1).bind fun _ => ?_
    exact (spec_unlockLease hs hc.leaseFrame).pre fun _ _ hf => hf.1

theorem spec_cleanupName {s : StagingName} : Runs H i (fun _ => F) (cleanupName i s).run F := by
  refine meets_holding (spec_lockInstall hs hc) ?_ (fun _ => spec_unlockInstall hs hc) fun _ _ _ => id
  refine (spec_tryLease (hs.and stable_holdsInstall) hc.leaseFrame.and_holdsInstall).bindE (fun got => ?_)
    fun _ _ _ hf => hf.1
  exact (spec_removeStaging hs hc).bind fun _ => meets_pure fun _ _ hf => hf

theorem spec_cleanupNames (names : List StagingName) : Runs H i (fun _ => F) (cleanupNames i names).run F := by
  induction names with
  | nil => exact meets_return fun _ _ => id
  | cons s names ih =>
    refine bindE ((spec_cleanupName hs hc).post fun r _ _ hf => ?_) (fun _ => ih) fun _ _ _ => id
    rcases r with e | _ <;> exact hf

theorem spec_cleanupStaging : Runs H i (fun _ => F) (cleanupStaging i) F :=
  (meets_ask hs (Moves.refl i)).bind fun names => (spec_cleanupNames hs hc names).bind fun _ =>
    meets_pure fun _ _ hf => hf

theorem spec_listEntry {contents : Bytes} {now : ℤ} : Ends H i (fun _ => F) F (listEntry i a contents now) F := by
  refine (meets_keep_read hs).liftE fun size => ?_
  refine (spec_tryLease hs hc.leaseFrame).thenE fun got => ?_
  refine thenE (lift ?_ _) fun _ => meets_return fun _ _ => id
  rcases got with _ | _
  · exact meets_pure fun _ _ hf => hf.1
  · exact (spec_unlockLease hs hc.leaseFrame).pre fun _ _ hf => hf.1

theorem spec_listEntries {now : ℤ} (ids : List ArtifactId) : Ends H i (fun _ => F) F (listEntries i now ids) F := by
  induction ids with
  | nil => exact meets_return fun _ _ => id
  | cons a ids ih =>
    refine (meets_keep_read hs).liftE fun contents => ?_
    refine thenE ?_ fun entry => ih.thenE fun _ => meets_return fun _ _ => id
    rw [listEntryIf]
    split_ifs
    · exact meets_return fun _ _ => id
    · exact (spec_listEntry hs hc).thenE fun _ => meets_return fun _ _ hf => hf

theorem spec_listWorkerCache : Ends H i (fun _ => F) F (listWorkerCache i) F := by
  refine (meets_ask hs (Moves.refl i)).liftE fun now => ?_
  exact (meets_ask hs (Moves.refl i)).liftE fun ids => spec_listEntries hs hc ids

/-- While a directory is removed. -/
theorem spec_emptyTrash :
    Runs H i (fun _ g => (F g ∧ HoldsLease i a g) ∧ HoldsInstall i a g) (emptyTrash a).run
      fun g => (F g ∧ HoldsLease i a g) ∧ HoldsInstall i a g := by
  have hst := (hs.and (stable_holdsLease (a := a))).and (stable_holdsInstall (a := a))
  refine bindE (R := fun _ g => (F g ∧ HoldsLease i a g) ∧ HoldsInstall i a g) ?_ (fun _ => ?_) fun _ _ _ => id
  · refine meets_attempt (fun _ => hst) hst (fun g g' r hg hf heq => ?_) fun _ _ => id
    rcases hdir : g.artifacts a with _ | dir <;> rw [hdir] at heq <;> dsimp only at heq
    · cases heq
      exact ⟨hg, .refl i g, hf⟩
    split_ifs at heq <;> cases heq
    · exact ⟨hg, .refl i g, hf⟩
    have hm : g.Moves i { g with
        artifacts := update g.artifacts a none
        staging := update g.staging (.trash a) (some dir.files) } :=
      { artifacts_moves hf.1.2 hf.2 none with
        staging := (staging_moves hf.2 (some dir.files)).staging }
    exact ⟨inv_update hg hm nofun, hm, ⟨hc hg hm (fun _ ho => ho) hf.1.1, hf.1.2⟩, hf.2⟩
  · exact (spec_rmRf_staging (hs.and stable_holdsLease) hc.stagingFrame.and_holdsLease).bind
      fun _ => meets_pure fun _ _ hf => hf

theorem spec_pruneLeased {c : PruneSettings} {st : PruneState} {e : WorkerCacheEntry} {got : Bool} :
    Runs H i (fun _ => F) (pruneLeased i c st e got)
      fun g => (F g ∧ HoldsInstall i e.id g) ∧ (got = true → HoldsLease i e.id g) := by
  rcases got with _ | _
  · exact meets_pure fun _ _ hf => hf.1.1
  · refine ((spec_rmRf_staging (hs.and (stable_holdsLease))
      hc.stagingFrame.and_holdsLease).pre fun g _ hf => ⟨⟨hf.1.1, hf.2 rfl⟩, hf.1.2⟩).bind fun _ => ?_
    refine (spec_emptyTrash hs hc).bind fun r => ?_
    exact ((spec_unlockLease hs hc.leaseFrame).pre fun _ _ hf => hf.1.1).bind fun _ => meets_pure fun _ _ hf => hf

theorem spec_pruneEntries {c : PruneSettings} (entries : List WorkerCacheEntry) (st : PruneState) :
    Ends H i (fun _ => F) F (pruneEntries i c st entries) F := by
  induction entries generalizing st with
  | nil => exact meets_return fun _ _ => id
  | cons e entries ih =>
    refine thenE ?_ fun st => ih st
    rw [pruneEntryUnless]
    split_ifs
    · exact meets_return fun _ _ => id
    refine meets_holding (spec_lockInstall hs hc) ?_
      (fun r => (spec_unlockInstall hs hc).post fun _ _ _ hf => ?_) fun _ _ _ => id
    · refine (spec_tryLease (hs.and stable_holdsInstall) hc.leaseFrame.and_holdsInstall).bindE (fun got => ?_)
        fun _ _ _ hf => hf.1
      exact (spec_pruneLeased hs hc).bind fun _ => meets_pure fun _ _ => id
    · rcases r with e | _ <;> exact hf

theorem spec_pruneWorkerCache (c : PruneSettings) : Ends H i (fun _ => F) F (pruneWorkerCache i c) F := by
  refine (spec_cleanupStaging hs hc).liftE fun _ => ?_
  exact (spec_listWorkerCache hs hc).thenE fun entries => spec_pruneEntries hs hc _ _

end Prune

/-! ## Calls -/

section Calls

variable {p : ℕ} {req : InstallRequest}

theorem spec_install {c : PruneSettings} (hreq : req.Unreserved H) :
    Ends H i (fun h => Leased i h (H.artifactId req) (·.Complete H)) (fun _ => True)
      (install H p i req c) fun _ => True := by
  have hlc : Ends H i (fun _ => HoldsInstall i (H.artifactId req)) (fun _ => True)
      (lockInstall i (H.artifactId req)) fun _ => True := by
    refine (spec_lockInstall (stable_const True) calm_true).post fun r g _ hf => ?_
    rcases r with e | _
    · trivial
    · exact hf.2
  refine tryE (R := fun h => Leased i h (H.artifactId req) (·.Complete H))
    (meets_holding hlc (spec_installLocked hreq) (fun r => ?_) fun _ _ _ _ => trivial) fun h => ?_
  · rcases r with e | h
    · exact spec_unlockInstall (stable_const True) calm_true
    · exact spec_unlockInstall (stable_leased complete_same) (calm_leased complete_same)
  · have hpr : Runs H i (fun _ => Leased i h (H.artifactId req) (·.Complete H))
        (ignoreErrors (pruneWorkerCache i c)) (Leased i h (H.artifactId req) (·.Complete H)) := by
      refine (spec_pruneWorkerCache (stable_leased complete_same) (calm_leased complete_same) c).bind fun r => ?_
      rcases r with e | _ <;> exact meets_pure fun _ _ => id
    exact hpr.liftE fun _ => meets_return fun _ _ hf => hf

/-- The entrypoint stays where it is if only the manifest changes. -/
theorem entrypoint_same (dir dir' : ArtifactDir) (hdir : dir.Sound H a) (hsm : dir.Same dir')
    (h : (dir.files.lookup a.entrypoint).isSome) : (dir'.files.lookup a.entrypoint).isSome :=
  hsm.isSome hdir.not_touched h

/-- One more pointer to a lease, if there is one. -/
theorem spec_lockRegistered :
    Runs H i (fun r g => ∀ h, r = some h → (⟨h, a, i⟩ : LeaseOwner) ∈ g.owners) (lockRegistered p i a)
      fun _ => True := by
  refine meets_atomic (fun r _ _ _ hj _ _ hm ho h hr => hm.owners _ (ho h hr) hj.symm) fun g _ g' r hg _ heq => ?_
  rcases hrg : g.registry p a with _ | h <;> rw [hrg] at heq <;> dsimp only at heq
  · cases heq
    exact ⟨hg, .refl i g, nofun⟩
  split_ifs at heq with hany <;> cases heq
  · obtain ⟨o, ho, heq⟩ := List.any_eq_true.1 hany
    rw [Bool.and_eq_true, decide_eq_true_eq, decide_eq_true_eq] at heq
    obtain ⟨rfl, rfl⟩ := heq
    have hm : g.Moves i { g with owners := { o with thread := i } :: g.owners } := by
      refine { Moves.refl i g with
        owners := fun o ho _ => mem_cons_of_mem _ ho
        newOwners := fun o' ho' => .inl ?_ }
      rcases mem_cons.1 ho' with rfl | ho'
      · exact ⟨o, ho, rfl, rfl⟩
      · exact ⟨o', ho', rfl, rfl⟩
    refine ⟨hg.of_moves hm hg.dirs (fun o' ho' => ?_) hg.fresh fun l hl => ?_, hm, fun h hr => ?_⟩
    · rcases mem_cons.1 ho' with rfl | ho'
      · exact hg.shared o ho
      · exact hg.shared o' ho'
    · exact ⟨hl, mem_cons_of_mem _ (hg.leases l hl).1⟩
    · cases hr
      exact mem_cons_self
  · exact ⟨hg, .refl i g, nofun⟩

theorem spec_launchLocked :
    Ends H i (fun h => Leased i h a fun dir => (dir.files.lookup a.entrypoint).isSome)
      (fun _ => True) (launchLocked p i a) fun _ => True := by
  have hown h : (discipline H).Stable i fun g => ⟨h, a, i⟩ ∈ g.owners :=
    fun _ _ _ hj _ _ hm ho => hm.owners _ ho hj.symm
  have hcl h : Calm H i fun g => ⟨h, a, i⟩ ∈ g.owners := fun _ _ _ _ how ho => how _ ho
  refine (meets_keep_read (stable_const True)).liftE fun registered => ?_
  refine (spec_require fun _ _ _ => trivial).tryE fun _ => meets_of_fact fun _ => ?_
  refine spec_lockRegistered.liftE fun r => ?_
  refine tryE (R := fun h g => (⟨h, a, i⟩ : LeaseOwner) ∈ g.owners) (E := fun _ => True) ?_ fun h => ?_
  · rcases r with _ | h
    · refine ((spec_acquireShared (stable_const True) fun _ _ _ _ hf => hf).pre fun _ _ _ => trivial).tryE fun h => ?_
      refine ((spec_registry (hown h) (hcl h)).pre fun _ _ hf => hf.2).liftE fun _ => meets_return fun _ _ => id
    · exact meets_return fun _ _ hf => hf h rfl
  · have hrd : Runs H i (fun found g => ⟨h, a, i⟩ ∈ g.owners ∧ (found = true →
        Leased i h a (fun dir => (dir.files.lookup a.entrypoint).isSome) g)) (fileExists a a.entrypoint)
        fun g => ⟨h, a, i⟩ ∈ g.owners := by
      refine meets_read (fun _ => (hown h).and (.imp fun _ => stable_leased entrypoint_same)) (Moves.refl i)
        fun g _ ho => ⟨ho, fun hfn => ⟨ho, ?_⟩⟩
      rcases hdir : g.artifacts a with _ | dir
      · rw [hdir] at hfn
        cases hfn
      · rw [hdir] at hfn
        exact ⟨dir, rfl, hfn⟩
    refine hrd.liftE fun found => ?_
    refine (spec_leaseIf (fun g _ hf => hf.1) fun hfn g _ hf => hf.2 hfn).post fun r g _ hf => ?_
    rcases r with e | h'
    · trivial
    · exact hf.2 ▸ hf.1

theorem spec_launch :
    Ends H i (fun h => Leased i h a fun dir => (dir.files.lookup a.entrypoint).isSome)
      (fun _ => True) (launch p i a) fun _ => True := by
  have htr : (discipline H).Stable i fun _ => True := stable_const True
  refine meets_holding ((spec_lockRegistry htr calm_true).lift fun _ => True) spec_launchLocked (fun r => ?_)
    fun _ _ _ => id
  rcases r with e | h
  · exact spec_unlockRegistry htr calm_true
  · exact spec_unlockRegistry (stable_leased entrypoint_same) (calm_leased entrypoint_same)

/-- A lease is returned of a directory with the entrypoint, by `Install` only if it is complete. -/
theorem spec_useLease {installed : Bool} {X : ArtifactDir → Prop}
    (hX : ∀ dir, dir.Sound H a → X dir → (dir.files.lookup a.entrypoint).isSome ∧ (installed = true → dir.Complete H)) :
    Runs H i (fun _ _ => True) (useLease H i a installed h) (Leased i h a X) := by
  refine bind ?_ fun _ => spec_dropLease
  refine meets_modify (fun _ _ _ hj _ _ hm ho => hm.owners _ ho hj.symm) fun g hg hf => ?_
  obtain ⟨ho, dir, hdir, hx⟩ := hf
  have hsnd := hg.dirs a dir hdir
  obtain ⟨hent, hin⟩ := hX dir hsnd hx
  refine ⟨{ hg with leases := fun l hl => ?_ }, { Moves.refl i g with }, ho⟩
  rcases mem_cons.1 hl with rfl | hl
  · refine ⟨ho, fun f hf => ?_, dir, hdir, fun f hf => ?_, hent, fun h => ⟨?_, hin h⟩⟩
    · rw [hdir] at hf
      obtain ⟨hm, ⟨f', hf', heq⟩, -⟩ := ArtifactDir.mem_extracted hf
      exact ⟨hm, heq ▸ hsnd.unreserved.files f' hf'⟩
    · rw [hdir] at hf
      exact (ArtifactDir.mem_extracted hf).2.2
    · exact congrArg ArtifactId.digest hsnd.id
  · obtain ⟨hown, hfl, hkp⟩ := hg.leases l hl
    exact ⟨hown, hfl, ⟨hkp.1⟩⟩

/-- What is installed has nothing where a new manifest is written to. -/
def Call.Unreserved (H : ArtifactHost) (call : Call) : Prop :=
  ∀ req c, call.op = .install req c → req.Unreserved H

theorem spec_main (i : ℕ) (call : Call) (hcl : call.Unreserved H) :
    Runs H i (fun _ _ => True) (call.main H i) fun _ => True := by
  have htr : (discipline H).Stable i fun _ => True := stable_const True
  rw [Call.main]
  rcases hop : call.op with ⟨req, c⟩ | a | c | _ | _
  · refine (spec_install (hcl req c hop)).bindE (fun h => ?_) fun _ _ _ => id
    refine (spec_useLease fun dir hsnd hcp => ⟨?_, fun _ => hcp⟩).bind fun _ => meets_pure fun _ _ => id
    have hent := hcp.entrypoint
    rwa [show dir.request.entrypoint = (H.artifactId req).entrypoint from
      congrArg ArtifactId.entrypoint hsnd.id] at hent
  · refine spec_launch.bindE (fun h => ?_) fun _ _ _ => id
    exact (spec_useLease fun dir _ hent => ⟨hent, fun h => absurd h (by decide)⟩).bind fun _ => meets_pure fun _ _ => id
  · exact (spec_pruneWorkerCache htr calm_true c).bindE (fun _ => meets_pure fun _ _ => id) fun _ _ _ => id
  · exact (spec_cleanupStaging htr calm_true).bind fun _ => meets_pure fun _ _ => id
  · exact (spec_listWorkerCache htr calm_true).bindE (fun _ => meets_pure fun _ _ => id) fun _ _ _ _ => trivial

end Calls

end Artifact

variable {acts : List (Threads.Act Artifact.Call ArtifactInput)}
  {s : Threads.Config ArtifactWorld (Artifact.Call × ArtifactProg (Except ArtifactError Unit))}

theorem inv_of_run {H : ArtifactHost} (hcalls : ∀ call, .spawn call ∈ acts → call.Unreserved H)
    (hrun : H.threads.machine.run ⟨{}, []⟩ acts = some s) : s.shared.Inv H := by
  have hst : ArtifactWorld.Inv H {} := ⟨nofun, nofun, nofun, nofun⟩
  exact (run_meets spec_main hst (along_of_calls (fun _ _ _ => trivial) hcalls _) hrun).1

/-- In every interleaving of calls, if no package has a file where a new manifest is written to: what a caller with
    a lease relies on is there. -/
theorem leases_kept (H : ArtifactHost)
    (hcalls : ∀ call, .spawn call ∈ acts → call.Unreserved H) (hrun : H.threads.machine.run ⟨{}, []⟩ acts = some s)
    {l : HeldLease} (hl : l ∈ s.shared.leases) :
    ∃ dir, s.shared.artifacts l.owner.id = some dir ∧ (∀ f ∈ l.files, dir.files.lookup f.1 = some f.2) ∧
      (dir.files.lookup l.owner.id.entrypoint).isSome ∧
      (l.installed = true → H.sha256Hex dir.request.contents = l.owner.id.digest ∧ dir.Complete H) := by
  exact ((inv_of_run hcalls hrun).leases l hl).2.2.exists_dir

namespace Artifact

/-- A host with one kind of package, the entrypoint itself. -/
def plainHost : ArtifactHost where
  sha256Hex := id
  unpack req := ⟨[(req.entrypoint, req.contents)], some req.entrypoint⟩

def executable (entrypoint : Bytes) : InstallRequest :=
  { contents := ascii "x", format := ascii "executable", entrypoint }

/-- Two processes install the same executable, the second one while the first has its lease. -/
def installTwice (entrypoint : Bytes) : List (Threads.Act Call ArtifactInput) :=
  .spawn ⟨0, .install (executable entrypoint) {}⟩ :: List.replicate 35 (.step 0 {}) ++
    .spawn ⟨1, .install (executable entrypoint) {}⟩ :: List.replicate 10 (.step 1 {})

/-- The lease of the first process. -/
def firstLease (entrypoint : Bytes) : HeldLease :=
  ⟨⟨0, plainHost.artifactId (executable entrypoint), 0⟩, true, [(entrypoint, ascii "x")]⟩

theorem not_touched_tool : ¬Touched (ascii "tool") := fun h => absurd (startsWith_of_touched h) (by decide)

theorem unreserved_of_mem_installTwice_tool (call : Call) (h : .spawn call ∈ installTwice (ascii "tool")) :
    call.Unreserved plainHost := by
  have hop : call.op = .install (executable (ascii "tool")) {} := by
    simp only [installTwice, mem_append, mem_cons, mem_replicate, Threads.Act.spawn.injEq,
      reduceCtorEq, and_false, or_false] at h
    rcases h with rfl | rfl <;> rfl
  intro req c hreq
  obtain ⟨rfl, -⟩ := Op.install.inj (hop.symm.trans hreq)
  refine ⟨not_touched_tool, fun f hf => ?_⟩
  obtain rfl := mem_singleton.1 hf
  exact not_touched_tool

end Artifact

/-- The second process has written its manifest: the executable of the first is as it was. -/
theorem leases_kept_tool : ∃ s, plainHost.threads.machine.run ⟨{}, []⟩
      (installTwice (ascii "tool")) = some s ∧
    firstLease (ascii "tool") ∈ s.shared.leases ∧
    ∃ dir, s.shared.artifacts (firstLease (ascii "tool")).owner.id = some dir ∧
      ∀ f ∈ (firstLease (ascii "tool")).files, dir.files.lookup f.1 = some f.2 := by
  have hsm : ((plainHost.threads.machine.run ⟨{}, []⟩ (installTwice (ascii "tool"))).map
      fun s => s.shared.leases) = some [firstLease (ascii "tool")] := by decide +kernel
  obtain ⟨s, hs, hl⟩ := map_eq_some_iff.1 hsm
  have hmem : firstLease (ascii "tool") ∈ s.shared.leases := hl ▸ mem_singleton_self _
  obtain ⟨dir, hdir, hfl, -⟩ := leases_kept plainHost
    unreserved_of_mem_installTwice_tool hs hmem
  exact ⟨s, hs, hmem, dir, hdir, hfl⟩

/-- An executable with the name of the file that the second process writes its manifest to: with the lease held, it
    is overwritten and moved away. -/
theorem lease_broken : ∃ s, plainHost.threads.machine.run ⟨{}, []⟩
      (installTwice (touchName 0)) = some s ∧
    firstLease (touchName 0) ∈ s.shared.leases ∧
    ((s.shared.artifacts (firstLease (touchName 0)).owner.id).bind
      (·.files.lookup (firstLease (touchName 0)).owner.id.entrypoint)) = none := by
  have hsm : ((plainHost.threads.machine.run ⟨{}, []⟩ (installTwice (touchName 0))).map
      fun s => (s.shared.leases, (s.shared.artifacts (firstLease (touchName 0)).owner.id).bind
        (·.files.lookup (firstLease (touchName 0)).owner.id.entrypoint))) =
      some ([firstLease (touchName 0)], none) := by decide +kernel
  obtain ⟨s, hs, heq⟩ := map_eq_some_iff.1 hsm
  obtain ⟨hl, hlk⟩ := Prod.mk.inj heq
  exact ⟨s, hs, hl ▸ mem_singleton_self _, hlk⟩

/-- If no package has a file where a manifest is first written to: in every interleaving of calls, whatever fails, a
    directory that would be taken for valid was unpacked from what it is named by and lacks nothing. -/
theorem valid_complete (H : ArtifactHost)
    (hcalls : ∀ call, .spawn call ∈ acts → call.Unreserved H) (hrun : H.threads.machine.run ⟨{}, []⟩ acts = some s)
    {a : ArtifactId} {dir : ArtifactDir} (hdir : s.shared.artifacts a = some dir) (hvalid : dir.Valid H a) :
    H.artifactId dir.request = a ∧ dir.Complete H := by
  have hsnd := (inv_of_run hcalls hrun).dirs a dir hdir
  exact ⟨hsnd.id, hsnd.complete.resolve_right (not_not.2 hvalid)⟩

theorem valid_complete_tool : ∃ s dir, plainHost.threads.machine.run ⟨{}, []⟩ (installTwice (ascii "tool")) = some s ∧
    s.shared.artifacts (firstLease (ascii "tool")).owner.id = some dir ∧ dir.Complete plainHost := by
  have hvl : ((plainHost.threads.machine.run ⟨{}, []⟩ (installTwice (ascii "tool"))).bind fun s =>
      (s.shared.artifacts (firstLease (ascii "tool")).owner.id).map fun dir =>
        ((dir.files.lookup (ascii "tool")).isSome, (dir.files.lookup manifestName).isSome,
          manifestMatches plainHost (firstLease (ascii "tool")).owner.id ((dir.files.lookup manifestName).getD []))) =
      some (true, true, true) := by decide +kernel
  obtain ⟨s, hs, hvl⟩ := bind_eq_some_iff.1 hvl
  obtain ⟨dir, hdir, heq⟩ := map_eq_some_iff.1 hvl
  simp only [Prod.mk.injEq] at heq
  exact ⟨s, dir, hs, hdir, (valid_complete plainHost unreserved_of_mem_installTwice_tool hs hdir
    ⟨heq.1, heq.2.1, heq.2.2⟩).2⟩

end Vgi
