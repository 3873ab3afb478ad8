import Vgi.Artifact.Cache

/-!
# What the locks of an artifact are for

What is below the directory of an artifact, or staged for it, is changed only by the thread that holds the lock for its
installation, and all of it but the manifest only by one that also holds the lease exclusively. Both are said once for
all actions (`ArtifactWorld.Moves`), and with an invariant they make a discipline (`Artifact.discipline`): whoever has
a lease can rely on the files.

Here are the assertions that are stable then, and what each action on locks and files does to them.
-/

namespace Vgi

open Prog Function List StoredFiles Option

/-! ## Files -/

/-- The path of a file that a new manifest is written to, or below it. -/
def Touched (path : Bytes) : Prop := ∃ k, under (touchName k) path = true

/-- Nothing in the package is where a new manifest is written to. -/
structure InstallRequest.Unreserved (H : ArtifactHost) (req : InstallRequest) : Prop where
  entrypoint : ¬Touched req.entrypoint
  files : ∀ f ∈ (H.unpack req).files, ¬Touched f.1

theorem touched_touchName (k : ℕ) : Touched (touchName k) := ⟨k, by simp [under]⟩

variable {path : Bytes}

theorem startsWith_of_touched (h : Touched path) : startsWith path (manifestName ++ ascii ".touch-") = true := by
  obtain ⟨k, h⟩ := h
  rw [under, Bool.or_eq_true, decide_eq_true_eq] at h
  have hnm : startsWith (touchName k) (manifestName ++ ascii ".touch-") = true := startsWith_iff.2 (prefix_append _ _)
  rcases h with rfl | h
  · exact hnm
  · obtain ⟨rest, hrs⟩ := startsWith_iff.1 h
    rw [← hrs, append_assoc]
    exact startsWith_append hnm _

theorem not_touched_manifestName : ¬Touched manifestName := fun h =>
  absurd (startsWith_of_touched h) (by decide +kernel)

namespace StoredFiles

variable {t : StoredFiles} {path p c : Bytes}

theorem lookup_filter (q : Bytes → Bool) (t : StoredFiles) (p : Bytes) :
    (t.filter fun f => q f.1).lookup p = if q p then t.lookup p else none := by
  induction t with
  | nil => simp
  | cons f t ih =>
    obtain ⟨path, c⟩ := f
    by_cases hp : p = path
    · subst hp
      rcases hq : q p with _ | _
      · rw [filter_cons_of_neg (by simp [hq]), ih, hq]
        rfl
      · rw [filter_cons_of_pos (by simp [hq])]
        simp
    · have hne : (p == path) = false := by simp [hp]
      rcases hq : q path with _ | _
      · rw [filter_cons_of_neg (by simp [hq]), ih, lookup_cons, hne]
      · rw [filter_cons_of_pos (by simp [hq]), lookup_cons, hne, lookup_cons, hne, ih]

theorem lookup_write_self : (t.write path c).lookup path = some c := by simp [write]

theorem lookup_write_of_ne (h : p ≠ path) : (t.write path c).lookup p = t.lookup p := by
  have hne : (p == path) = false := by simp [h]
  rw [write, lookup_cons, hne]
  exact (lookup_filter (fun q => decide (q ≠ path)) t p).trans (if_pos (decide_eq_true h))

theorem lookup_remove (t : StoredFiles) (path p : Bytes) :
    (t.remove path).lookup p = if p = path then none else t.lookup p := by
  refine (lookup_filter (fun q => decide (q ≠ path)) t p).trans ?_
  by_cases h : p = path <;> simp [h]

theorem lookup_removeAll_of_not_under (h : under path p = false) : (t.removeAll path).lookup p = t.lookup p :=
  (lookup_filter (fun q => !under path q) t p).trans (if_pos (by simp [h]))

/-- What is written wins over what was there. -/
theorem lookup_writeAll (t : StoredFiles) (files : List (Bytes × Bytes)) (p : Bytes) :
    (t.writeAll files).lookup p = ((writeAll [] files).lookup p).or (t.lookup p) := by
  induction files using List.reverseRecOn with
  | nil => rfl
  | append_singleton files f ih =>
    rw [writeAll, writeAll, foldl_append, foldl_append]
    change ((t.writeAll files).write f.1 f.2).lookup p = (((writeAll [] files).write f.1 f.2).lookup p).or _
    by_cases hp : p = f.1
    · subst hp
      rw [lookup_write_self, lookup_write_self]
      rfl
    · rw [lookup_write_of_ne hp, lookup_write_of_ne hp, ih]

/-- Only what is written is there. -/
theorem exists_of_lookup_writeAll {files : List (Bytes × Bytes)} (h : (writeAll [] files).lookup p = some c) :
    ∃ f ∈ files, f.1 = p := by
  induction files using List.reverseRecOn with
  | nil => cases h
  | append_singleton files f ih =>
    rw [writeAll, foldl_append] at h
    change ((writeAll [] files).write f.1 f.2).lookup p = some c at h
    by_cases hp : p = f.1
    · exact ⟨f, by simp, hp.symm⟩
    · rw [lookup_write_of_ne hp] at h
      obtain ⟨f', hf', heq⟩ := ih h
      exact ⟨f', mem_append_left _ hf', heq⟩

end StoredFiles

/-! ## Directories -/

namespace ArtifactDir

variable {H : ArtifactHost} {a : ArtifactId} {dir dir' : ArtifactDir}

/-- All that was unpacked is there, but for what the manifest has replaced. -/
structure Complete (H : ArtifactHost) (dir : ArtifactDir) : Prop where
  entry : (H.unpack dir.request).entry = some dir.request.entrypoint
  files : ∀ path c, path ≠ manifestName →
    (writeAll [] (H.unpack dir.request).files).lookup path = some c → dir.files.lookup path = some c
  entrypoint : (dir.files.lookup dir.request.entrypoint).isSome

/-- What `cacheValid` looks for. -/
structure Valid (H : ArtifactHost) (a : ArtifactId) (dir : ArtifactDir) : Prop where
  entrypoint : (dir.files.lookup a.entrypoint).isSome
  manifest : (dir.files.lookup manifestName).isSome
  matches_ : manifestMatches H a ((dir.files.lookup manifestName).getD []) = true

/-- A directory in its place: what is not complete does not look so. -/
structure Sound (H : ArtifactHost) (a : ArtifactId) (dir : ArtifactDir) : Prop where
  id : H.artifactId dir.request = a
  unreserved : dir.request.Unreserved H
  complete : dir.Complete H ∨ ¬dir.Valid H a

/-- The files are the same, but for the manifest and what is written to be moved there. -/
structure Same (dir dir' : ArtifactDir) : Prop where
  request : dir'.request = dir.request
  files : ∀ path, path ≠ manifestName → ¬Touched path → dir'.files.lookup path = dir.files.lookup path
  manifest : (dir.files.lookup manifestName).isSome → (dir'.files.lookup manifestName).isSome

theorem Same.refl (dir : ArtifactDir) : dir.Same dir := ⟨rfl, fun _ _ _ => rfl, id⟩

/-- A file that is not one of those for a new manifest is still there. -/
theorem Same.isSome (h : dir.Same dir') (hpt : ¬Touched path) (hdir : (dir.files.lookup path).isSome) :
    (dir'.files.lookup path).isSome := by
  by_cases hm : path = manifestName
  · subst hm
    exact h.manifest hdir
  · rw [h.files path hm hpt]
    exact hdir

theorem Sound.not_touched (h : dir.Sound H a) : ¬Touched a.entrypoint := h.id ▸ h.unreserved.entrypoint

theorem Complete.same (hdir : dir.Complete H) (hreq : dir.request.Unreserved H) (h : dir.Same dir') :
    dir'.Complete H := by
  refine ⟨?_, fun path c hpt hlk => ?_, ?_⟩
  · rw [h.request]
    exact hdir.entry
  · rw [h.request] at hlk
    obtain ⟨f, hf, rfl⟩ := exists_of_lookup_writeAll hlk
    rw [h.files f.1 hpt (hreq.files f hf)]
    exact hdir.files f.1 c hpt hlk
  · rw [h.request]
    exact h.isSome hreq.entrypoint hdir.entrypoint

theorem mem_extracted {f : Bytes × Bytes} (h : f ∈ dir.extracted H) :
    f.1 ≠ manifestName ∧ (∃ f' ∈ (H.unpack dir.request).files, f'.1 = f.1) ∧ dir.files.lookup f.1 = some f.2 := by
  obtain ⟨path, hpt, hf⟩ := mem_filterMap.1 h
  obtain ⟨f', hf', rfl⟩ := List.mem_map.1 hpt
  split_ifs at hf with hm
  obtain ⟨c, hc, rfl⟩ := map_eq_some_iff.1 hf
  exact ⟨hm, ⟨f', hf', rfl⟩, hc⟩

end ArtifactDir

/-! ## What an action may do -/

namespace ArtifactWorld

/-- What a thread may do to the rest: the locks and leases of others stay; what is below the directory of an artifact or
    staged for it is changed by who holds the lock for its installation, and all but the manifest by who holds the lease
    exclusively. -/
structure Moves (i : ℕ) (g g' : ArtifactWorld) : Prop where
  install : ∀ a j, j ≠ i → (g.install a).exclusive = some j → (g'.install a).exclusive = some j
  lease : ∀ a j, j ≠ i → (g.lease a).exclusive = some j → (g'.lease a).exclusive = some j
  owners : ∀ o ∈ g.owners, o.thread ≠ i → o ∈ g'.owners
  newOwners : ∀ o ∈ g'.owners, (∃ o' ∈ g.owners, o'.handle = o.handle ∧ o'.id = o.id) ∨ g.nextHandle ≤ o.handle
  next : g.nextHandle ≤ g'.nextHandle
  artifacts : ∀ a, (g.install a).exclusive ≠ some i → g'.artifacts a = g.artifacts a
  staging : ∀ s : StagingName, (g.install s.id).exclusive ≠ some i → g'.staging s = g.staging s
  kept : ∀ a, (g.lease a).exclusive ≠ some i → ∀ dir, g.artifacts a = some dir →
    ∃ dir', g'.artifacts a = some dir' ∧ dir.Same dir'

/-- What the caller with a lease relies on. -/
structure Kept (H : ArtifactHost) (g : ArtifactWorld) (l : HeldLease) : Prop where
  exists_dir : ∃ dir, g.artifacts l.owner.id = some dir ∧ (∀ f ∈ l.files, dir.files.lookup f.1 = some f.2) ∧
    (dir.files.lookup l.owner.id.entrypoint).isSome ∧
    (l.installed = true → H.sha256Hex dir.request.contents = l.owner.id.digest ∧ dir.Complete H)

structure Inv (H : ArtifactHost) (g : ArtifactWorld) : Prop where
  dirs : ∀ a dir, g.artifacts a = some dir → dir.Sound H a
  shared : ∀ o ∈ g.owners, o.handle ∈ (g.lease o.id).shared
  fresh : ∀ a, ∀ h ∈ (g.lease a).shared, h < g.nextHandle
  leases : ∀ l ∈ g.leases, l.owner ∈ g.owners ∧ (∀ f ∈ l.files, f.1 ≠ manifestName ∧ ¬Touched f.1) ∧ g.Kept H l

variable {H : ArtifactHost} {g g' : ArtifactWorld} {i : ℕ}

theorem Moves.refl (i : ℕ) (g : ArtifactWorld) : g.Moves i g where
  install _ _ _ h := h
  lease _ _ _ h := h
  owners _ h _ := h
  newOwners o h := .inl ⟨o, h, rfl, rfl⟩
  next := le_rfl
  artifacts _ _ := rfl
  staging _ _ := rfl
  kept _ _ dir h := ⟨dir, h, .refl dir⟩

/-- The directory of a lease stays the same. -/
theorem Inv.same_of_owner (hg : g.Inv H) (hm : g.Moves i g') {o : LeaseOwner} (ho : o ∈ g.owners) {dir : ArtifactDir}
    (hdir : g.artifacts o.id = some dir) : ∃ dir', g'.artifacts o.id = some dir' ∧ dir.Same dir' := by
  have hfr := Flock.exclusive_of_mem_shared (hg.shared o ho)
  exact hm.kept o.id (by rw [hfr]; exact (some_ne_none i).symm) dir hdir

theorem Kept.moves {l : HeldLease} (h : g.Kept H l) (hg : g.Inv H) (hm : g.Moves i g') (ho : l.owner ∈ g.owners)
    (hfl : ∀ f ∈ l.files, f.1 ≠ manifestName ∧ ¬Touched f.1) : g'.Kept H l := by
  obtain ⟨dir, hdir, hkp, hent, hin⟩ := h
  obtain ⟨dir', hdir', hsm⟩ := hg.same_of_owner hm ho hdir
  have hsnd := hg.dirs _ dir hdir
  refine ⟨dir', hdir', fun f hf => ?_, hsm.isSome hsnd.not_touched hent, fun hl => ?_⟩
  · rw [hsm.files f.1 (hfl f hf).1 (hfl f hf).2]
    exact hkp f hf
  · obtain ⟨hdg, hcp⟩ := hin hl
    rw [hsm.request]
    exact ⟨hdg, hcp.same hsnd.unreserved hsm⟩

/-- The leases need no attention if none is returned and their owners stay. -/
theorem Inv.of_moves (hg : g.Inv H) (hm : g.Moves i g') (hdr : ∀ a dir, g'.artifacts a = some dir → dir.Sound H a)
    (hsh : ∀ o ∈ g'.owners, o.handle ∈ (g'.lease o.id).shared)
    (hfr : ∀ a, ∀ h ∈ (g'.lease a).shared, h < g'.nextHandle)
    (hls : ∀ l ∈ g'.leases, l ∈ g.leases ∧ l.owner ∈ g'.owners) : g'.Inv H := by
  refine ⟨hdr, hsh, hfr, fun l hl => ?_⟩
  obtain ⟨hmem, hown⟩ := hls l hl
  obtain ⟨ho, hfl, hkp⟩ := hg.leases l hmem
  exact ⟨hown, hfl, hkp.moves hg hm ho hfl⟩

theorem Inv.same_files {staging install registry registryMutex stagingCounter} (hg : g.Inv H)
    (hm : g.Moves i { g with staging, install, registry, registryMutex, stagingCounter }) :
    ({ g with staging, install, registry, registryMutex, stagingCounter } : ArtifactWorld).Inv H :=
  hg.of_moves hm hg.dirs hg.shared hg.fresh fun l hl => ⟨hl, (hg.leases l hl).1⟩

end ArtifactWorld

namespace Artifact

open ArtifactWorld

/-- All threads keep the invariant, and do nothing else than they may. -/
abbrev discipline (H : ArtifactHost) : Discipline ArtifactWorld ArtifactInput := { inv := Inv H, guar := Moves }

/-- From `P` on, the program keeps to the discipline and returns with `Q`. -/
abbrev Runs (H : ArtifactHost) (i : ℕ) {β : Type} (Q : β → ArtifactWorld → Prop) (c : ArtifactProg β)
    (P : ArtifactWorld → Prop) : Prop := Meets (discipline H) i Q c P

/-- The same, with an assertion for exceptions. -/
abbrev Ends (H : ArtifactHost) (i : ℕ) {β : Type} (R : β → ArtifactWorld → Prop) (E : ArtifactWorld → Prop)
    (c : ExceptT ArtifactError ArtifactProg β) (P : ArtifactWorld → Prop) : Prop := Runs H i (Outcome R E) c.run P

variable {H : ArtifactHost} {i h : ℕ} {a : ArtifactId} {F : ArtifactWorld → Prop}

/-! ## Assertions -/

def HoldsInstall (i : ℕ) (a : ArtifactId) (g : ArtifactWorld) : Prop := (g.install a).exclusive = some i

def HoldsLease (i : ℕ) (a : ArtifactId) (g : ArtifactWorld) : Prop := (g.lease a).exclusive = some i

/-- The thread keeps a lease open, and knows something of the directory. -/
def Leased (i h : ℕ) (a : ArtifactId) (X : ArtifactDir → Prop) (g : ArtifactWorld) : Prop :=
  ⟨h, a, i⟩ ∈ g.owners ∧ ∃ dir, g.artifacts a = some dir ∧ X dir

def CompleteAt (H : ArtifactHost) (a : ArtifactId) (g : ArtifactWorld) : Prop :=
  ∃ dir, g.artifacts a = some dir ∧ dir.Complete H

def InvalidAt (H : ArtifactHost) (a : ArtifactId) (g : ArtifactWorld) : Prop :=
  ∀ dir, g.artifacts a = some dir → ¬dir.Valid H a

theorem stable_holdsInstall : (discipline H).Stable i (HoldsInstall i a) :=
  fun _ _ _ hj _ _ hm h => hm.install a i hj.symm h

theorem stable_holdsLease : (discipline H).Stable i (HoldsLease i a) := fun _ _ _ hj _ _ hm h => hm.lease a i hj.symm h

/-- Nobody else changes what is below the directory. -/
theorem stable_artifacts (X : Option ArtifactDir → Prop) :
    (discipline H).Stable i fun g => HoldsInstall i a g ∧ X (g.artifacts a) := by
  intro g g' j hj hg hg' hm h
  refine ⟨stable_holdsInstall hj hg hg' hm h.1, ?_⟩
  have hot : (g.install a).exclusive ≠ some j := by
    rw [h.1]
    exact fun heq => hj (some.inj heq).symm
  rw [hm.artifacts a hot]
  exact h.2

theorem stable_staging {s : StagingName} (X : Option StoredFiles → Prop) :
    (discipline H).Stable i fun g => HoldsInstall i s.id g ∧ X (g.staging s) := by
  intro g g' j hj hg hg' hm h
  refine ⟨stable_holdsInstall hj hg hg' hm h.1, ?_⟩
  have hot : (g.install s.id).exclusive ≠ some j := by
    rw [h.1]
    exact fun heq => hj (some.inj heq).symm
  rw [hm.staging s hot]
  exact h.2

/-- What a thread knows and its own actions do not disturb either, as long as it drops no lease. -/
def Calm (H : ArtifactHost) (i : ℕ) (F : ArtifactWorld → Prop) : Prop :=
  ∀ ⦃g g' : ArtifactWorld⦄, g.Inv H → g.Moves i g' → (∀ o ∈ g.owners, o ∈ g'.owners) → F g → F g'

section Leased

variable {X : ArtifactDir → Prop}
  (hX : ∀ dir dir' : ArtifactDir, dir.Sound H a → dir.Same dir' → X dir → X dir')

include hX

theorem Leased.moves {g g' : ArtifactWorld} {j : ℕ} (hl : Leased i h a X g) (hg : g.Inv H) (hm : g.Moves j g')
    (ho : (⟨h, a, i⟩ : LeaseOwner) ∈ g'.owners) : Leased i h a X g' := by
  obtain ⟨hown, dir, hdir, hx⟩ := hl
  obtain ⟨dir', hdir', hsm⟩ := hg.same_of_owner hm hown hdir
  exact ⟨ho, dir', hdir', hX dir dir' (hg.dirs a dir hdir) hsm hx⟩

theorem stable_leased : (discipline H).Stable i (Leased i h a X) :=
  fun _ _ _ hj hg _ hm hl => hl.moves hX hg hm (hm.owners _ hl.1 hj.symm)

theorem calm_leased : Calm H i (Leased i h a X) := fun _ _ hg hm hown hl => hl.moves hX hg hm (hown _ hl.1)

end Leased

theorem calm_true : Calm H i fun _ => True := fun _ _ _ _ _ _ => trivial

theorem meets_attempt {β : Type} {f : ArtifactWorld → Option (ArtifactWorld × Except ArtifactError β)}
    {P E : ArtifactWorld → Prop} {R : β → ArtifactWorld → Prop} (hR : ∀ b, (discipline H).Stable i (R b))
    (hE : (discipline H).Stable i E)
    (h : ∀ g g' r, g.Inv H → P g → f g = some (g', r) → g'.Inv H ∧ g.Moves i g' ∧ Outcome R E r g')
    (hPE : ∀ g, g.Inv H → P g → E g) :
    Ends H i R E (attempt f) P := by
  refine meets_atomic (fun r => ?_) fun g input g' r hg hp heq => ?_
  · rcases r with e | b
    · exact hE
    · exact hR b
  · by_cases hfl : input.fails = true
    · rw [if_pos hfl] at heq
      cases heq
      exact ⟨hg, .refl i g, hPE g hg hp⟩
    · rw [if_neg hfl] at heq
      exact h g g' r hg hp heq

/-! ## Locks -/

section Update

variable {L : ArtifactId → Flock} {l : Flock}

theorem exclusive_update (hl : ∀ j, j ≠ i → (L a).exclusive = some j → l.exclusive = some j) (b : ArtifactId) (j : ℕ)
    (hj : j ≠ i) (hb : (L b).exclusive = some j) : (update L a l b).exclusive = some j := by
  by_cases hba : b = a
  · subst hba
    rw [update_self]
    exact hl j hj hb
  · rwa [update_of_ne hba]

theorem shared_update (hl : l.shared = (L a).shared) (b : ArtifactId) : (update L a l b).shared = (L b).shared := by
  by_cases hba : b = a
  · subst hba
    rw [update_self, hl]
  · rw [update_of_ne hba]

theorem exclusive_update_lock (hl : (L a).lockExclusive i = some l) : (update L a l a).exclusive = some i := by
  rw [update_self, (Flock.lockExclusive_eq hl).2.2.1]

/-- A lock that is free is nobody else's. -/
theorem others_of_lock (hl : (L a).lockExclusive i = some l) (j : ℕ) (_ : j ≠ i) (hj : (L a).exclusive = some j) :
    l.exclusive = some j := by
  rw [(Flock.lockExclusive_eq hl).1] at hj
  cases hj

end Update

variable {g : ArtifactWorld}

/-- Other changes of the leases than by their owners. -/
theorem lease_inv {L : ArtifactId → Flock} (hg : g.Inv H) (hm : g.Moves i { g with lease := L })
    (hL : ∀ b, (L b).shared = (g.lease b).shared) : ({ g with lease := L } : ArtifactWorld).Inv H := by
  refine hg.of_moves hm hg.dirs (fun o ho => ?_) (fun b h hh => ?_) fun l hl => ⟨hl, (hg.leases l hl).1⟩
  · exact (hL o.id).symm ▸ hg.shared o ho
  · exact hg.fresh b h (hL b ▸ hh)

theorem spec_lockInstall (hs : (discipline H).Stable i F) (hc : Calm H i F) :
    Ends H i (fun _ g => F g ∧ HoldsInstall i a g) F (lockInstall i a) F := by
  refine meets_attempt (fun _ => hs.and stable_holdsInstall) hs (fun g g' r hg hf heq => ?_) fun _ _ => id
  obtain ⟨l, hl, heq⟩ := map_eq_some_iff.1 heq
  cases heq
  have hm : g.Moves i { g with install := update g.install a l } :=
    { Moves.refl i g with install := exclusive_update (others_of_lock hl) }
  exact ⟨hg.same_files hm, hm, hc hg hm (fun _ ho => ho) hf, exclusive_update_lock hl⟩

theorem spec_unlockInstall (hs : (discipline H).Stable i F) (hc : Calm H i F) :
    Runs H i (fun _ => F) (unlockInstall i a) F := by
  refine meets_modify hs fun g hg hf => ?_
  have hm : g.Moves i { g with install := update g.install a ((g.install a).unlockExclusive i) } :=
    { Moves.refl i g with install := exclusive_update fun _ => Flock.exclusive_unlockExclusive }
  exact ⟨hg.same_files hm, hm, hc hg hm (fun _ ho => ho) hf⟩

/-- An exclusive lock of the lease, where it is free, disturbs nobody. -/
theorem lockLease_moves {l : Flock} (hg : g.Inv H) (hl : (g.lease a).lockExclusive i = some l) :
    g.Moves i { g with lease := update g.lease a l } ∧
      ({ g with lease := update g.lease a l } : ArtifactWorld).Inv H := by
  have hm : g.Moves i { g with lease := update g.lease a l } :=
    { Moves.refl i g with lease := exclusive_update (others_of_lock hl) }
  obtain ⟨-, hno, -, hsh⟩ := Flock.lockExclusive_eq hl
  exact ⟨hm, lease_inv hg hm (shared_update (hsh.trans hno.symm))⟩

/-- What a thread knows and does not depend on leases. -/
def LeaseFrame (H : ArtifactHost) (i : ℕ) (F : ArtifactWorld → Prop) : Prop :=
  ∀ (g : ArtifactWorld) (L : ArtifactId → Flock), g.Inv H → g.Moves i { g with lease := L } → F g →
    F { g with lease := L }

theorem Calm.leaseFrame (hc : Calm H i F) : LeaseFrame H i F := fun _ _ hg hm hf => hc hg hm (fun _ ho => ho) hf

theorem LeaseFrame.and_holdsInstall (hF : LeaseFrame H i F) : LeaseFrame H i fun g => F g ∧ HoldsInstall i a g :=
  fun g L hg hm hf => ⟨hF g L hg hm hf.1, hf.2⟩

section

variable (hs : (discipline H).Stable i F) (hF : LeaseFrame H i F)

include hs hF

theorem spec_lockLease : Ends H i (fun _ g => F g ∧ HoldsLease i a g) F (lockLease i a) F := by
  refine meets_attempt (fun _ => hs.and stable_holdsLease) hs (fun g g' r hg hf heq => ?_) fun _ _ => id
  obtain ⟨l, hl, heq⟩ := map_eq_some_iff.1 heq
  cases heq
  obtain ⟨hm, hinv⟩ := lockLease_moves hg hl
  exact ⟨hinv, hm, hF g _ hg hm hf, exclusive_update_lock hl⟩

theorem spec_tryLease : Ends H i (fun got g => F g ∧ (got = true → HoldsLease i a g)) F (tryLease i a) F := by
  refine meets_attempt (fun got => hs.and (.imp fun _ => stable_holdsLease)) hs (fun g g' r hg hf heq => ?_)
    fun _ _ => id
  rcases hl : (g.lease a).lockExclusive i with _ | l <;> rw [hl] at heq <;> cases heq
  · exact ⟨hg, .refl i g, hf, fun h => absurd h (by decide)⟩
  · obtain ⟨hm, hinv⟩ := lockLease_moves hg hl
    exact ⟨hinv, hm, hF g _ hg hm hf, fun _ => exclusive_update_lock hl⟩

theorem spec_unlockLease : Runs H i (fun _ => F) (unlockLease i a) F := by
  refine meets_modify hs fun g hg hf => ?_
  have hm : g.Moves i { g with lease := update g.lease a ((g.lease a).unlockExclusive i) } :=
    { Moves.refl i g with lease := exclusive_update fun _ => Flock.exclusive_unlockExclusive }
  exact ⟨lease_inv hg hm (shared_update Flock.shared_unlockExclusive), hm, hF g _ hg hm hf⟩

end

/-- A lease of one's own. What is known and does not depend on leases stays. -/
theorem spec_acquireShared (hs : (discipline H).Stable i F)
    (hF : ∀ g L n o, F g → F { g with lease := L, nextHandle := n, owners := o }) :
    Ends H i (fun h g => F g ∧ ⟨h, a, i⟩ ∈ g.owners) F (acquireShared i a) F := by
  have hown : ∀ h, (discipline H).Stable i fun g => ⟨h, a, i⟩ ∈ g.owners :=
    fun h _ _ _ hj _ _ hm ho => hm.owners _ ho hj.symm
  refine meets_attempt (fun h => hs.and (hown h)) hs (fun g g' r hg hf heq => ?_) fun _ _ => id
  obtain ⟨l, hl, heq⟩ := map_eq_some_iff.1 heq
  cases heq
  obtain ⟨hex, hsh⟩ := Flock.lockShared_eq hl
  have hm : g.Moves i { g with
      lease := update g.lease a l
      nextHandle := g.nextHandle + 1
      owners := ⟨g.nextHandle, a, i⟩ :: g.owners } := by
    refine { Moves.refl i g with
      lease := exclusive_update fun j _ hj => hex.trans hj
      owners := fun o ho _ => mem_cons_of_mem _ ho
      newOwners := fun o ho => ?_
      next := Nat.le_succ _ }
    rcases mem_cons.1 ho with rfl | ho
    · exact .inr le_rfl
    · exact .inl ⟨o, ho, rfl, rfl⟩
  have hsub : ∀ b, ∀ h ∈ (g.lease b).shared, h ∈ (update g.lease a l b).shared := by
    intro b h hh
    by_cases hba : b = a
    · subst hba
      rw [update_self, hsh]
      exact mem_cons_of_mem _ hh
    · rwa [update_of_ne hba]
  refine ⟨hg.of_moves hm hg.dirs (fun o ho => ?_) (fun b h hh => ?_) (fun l hl => ?_), hm, hF g _ _ _ hf, mem_cons_self⟩
  · rcases mem_cons.1 ho with rfl | ho
    · change g.nextHandle ∈ (update g.lease a l a).shared
      rw [update_self, hsh]
      exact mem_cons_self
    · exact hsub o.id o.handle (hg.shared o ho)
  · change h ∈ (update g.lease a l b).shared at hh
    by_cases hba : b = a
    · subst hba
      rw [update_self, hsh] at hh
      rcases mem_cons.1 hh with rfl | hh
      · exact Nat.lt_succ_self _
      · exact Nat.lt_succ_of_lt (hg.fresh b h hh)
    · rw [update_of_ne hba] at hh
      exact Nat.lt_succ_of_lt (hg.fresh b h hh)
  · exact ⟨hl, mem_cons_of_mem _ (hg.leases l hl).1⟩

/-- No pointer keeps the lease open. -/
def Unowned (h : ℕ) (a : ArtifactId) (g : ArtifactWorld) : Prop :=
  h < g.nextHandle ∧ ∀ o ∈ g.owners, ¬(o.handle = h ∧ o.id = a)

theorem stable_unowned : (discipline H).Stable i (Unowned h a) := by
  intro g g' j _ _ _ hm hu
  refine ⟨hu.1.trans_le hm.next, fun o ho heq => ?_⟩
  rcases hm.newOwners o ho with ⟨o', ho', hhn, hid⟩ | hle
  · exact hu.2 o' ho' ⟨hhn.trans heq.1, hid.trans heq.2⟩
  · exact absurd (heq.1 ▸ hle) (Nat.not_le.2 hu.1)

theorem spec_dropLease : Runs H i (fun _ _ => True) (dropLease i a h) fun g => (⟨h, a, i⟩ : LeaseOwner) ∈ g.owners := by
  have hdr : Runs H i (fun last g => last = true → Unowned h a g) (dropOwner i a h) fun g => ⟨h, a, i⟩ ∈ g.owners := by
    refine meets_atomic (fun _ => .imp fun _ => stable_unowned) fun g input g' last hg ho heq => ?_
    cases heq
    have hm : g.Moves i { g with
        owners := g.owners.filter (· ≠ ⟨h, a, i⟩)
        leases := g.leases.filter fun l => l.owner ≠ ⟨h, a, i⟩ } := by
      refine { Moves.refl i g with
        owners := fun o ho hne => mem_filter.2 ⟨ho, decide_eq_true fun heq => hne (heq ▸ rfl)⟩
        newOwners := fun o ho => .inl ⟨o, mem_of_mem_filter ho, rfl, rfl⟩ }
    refine ⟨hg.of_moves hm hg.dirs (fun o ho => hg.shared o (mem_of_mem_filter ho)) hg.fresh fun l hl => ?_, hm,
      fun hls => ⟨hg.fresh a h (hg.shared _ ho), fun o ho heq => ?_⟩⟩
    · obtain ⟨hmem, hne⟩ := mem_filter.1 hl
      exact ⟨hmem, mem_filter.2 ⟨(hg.leases l hmem).1, hne⟩⟩
    · rw [Bool.not_eq_true'] at hls
      have hno := List.any_eq_false.1 hls o ho
      simp [heq.1, heq.2] at hno
  refine hdr.bind fun last => ?_
  rcases last with _ | _
  · exact meets_pure fun _ _ _ => trivial
  refine meets_modify (Discipline.stable_const True) fun g hg hu => ?_
  replace hu : Unowned h a g := hu rfl
  have hm : g.Moves i { g with lease := update g.lease a ((g.lease a).unlockShared h) } :=
    { Moves.refl i g with lease := exclusive_update fun _ _ hj => hj }
  refine ⟨hg.of_moves hm hg.dirs (fun o ho => ?_) (fun b k hk => ?_) fun l hl => ⟨hl, (hg.leases l hl).1⟩, hm, trivial⟩
  · change o.handle ∈ (update g.lease a _ o.id).shared
    by_cases hoa : o.id = a
    · rw [hoa, update_self, Flock.mem_unlockShared]
      exact ⟨hoa ▸ hg.shared o ho, fun hh => hu.2 o ho ⟨hh, hoa⟩⟩
    · rw [update_of_ne hoa]
      exact hg.shared o ho
  · change k ∈ (update g.lease a _ b).shared at hk
    by_cases hba : b = a
    · subst hba
      rw [update_self, Flock.mem_unlockShared] at hk
      exact hg.fresh b k hk.1
    · rw [update_of_ne hba] at hk
      exact hg.fresh b k hk

/-! ## Files -/

section Staging

variable {s : StagingName}

/-- What is staged, by who may change it. -/
def Staged (i : ℕ) (s : StagingName) (X : StoredFiles → Prop) (g : ArtifactWorld) : Prop :=
  HoldsInstall i s.id g ∧ ∃ t, g.staging s = some t ∧ X t

theorem stable_staged (X : StoredFiles → Prop) : (discipline H).Stable i (Staged i s X) :=
  stable_staging fun d => ∃ t, d = some t ∧ X t

/-- What a thread knows and does not depend on what is staged. -/
def StagingFrame (H : ArtifactHost) (i : ℕ) (F : ArtifactWorld → Prop) : Prop :=
  ∀ (g : ArtifactWorld) (S : StagingName → Option StoredFiles), g.Inv H → g.Moves i { g with staging := S } → F g →
    F { g with staging := S }

theorem Calm.stagingFrame (hc : Calm H i F) : StagingFrame H i F := fun _ _ hg hm hf => hc hg hm (fun _ ho => ho) hf

theorem StagingFrame.and_holdsLease (hF : StagingFrame H i F) : StagingFrame H i fun g => F g ∧ HoldsLease i a g :=
  fun g S hg hm hf => ⟨hF g S hg hm hf.1, hf.2⟩

theorem staging_moves (hi : HoldsInstall i s.id g) (d : Option StoredFiles) :
    g.Moves i { g with staging := update g.staging s d } := by
  refine { Moves.refl i g with staging := fun s' hs' => ?_ }
  refine update_of_ne (fun heq => hs' ?_) _ _
  rw [heq]
  exact hi

variable (hs : (discipline H).Stable i F) (hF : StagingFrame H i F)

include hs hF

/-- A change of what is staged. -/
theorem spec_staging (d : ArtifactWorld → Option StoredFiles) :
    Runs H i (fun _ g => F g ∧ HoldsInstall i s.id g)
      (modify fun g => { g with staging := update g.staging s (d g) } : ArtifactProg Unit)
      fun g => F g ∧ HoldsInstall i s.id g := by
  refine meets_modify (hs.and stable_holdsInstall) fun g hg hf => ?_
  have hm := staging_moves hf.2 (d g)
  exact ⟨hg.same_files hm, hm, hF g _ hg hm hf.1, hf.2⟩

theorem spec_rmRf_staging :
    Runs H i (fun _ g => F g ∧ HoldsInstall i s.id g) (rmRf (.staging s)) fun g => F g ∧ HoldsInstall i s.id g :=
  (meets_ask (hs.and stable_holdsInstall) (Moves.refl i)).bind fun paths =>
    (meets_forEach paths fun _ _ => spec_staging hs hF _).bind fun _ => spec_staging hs hF _

theorem spec_makeStaging :
    Ends H i (fun _ g => F g ∧ Staged i s (fun _ => True) g) F (makeStaging s)
      fun g => F g ∧ HoldsInstall i s.id g := by
  refine meets_attempt (fun _ => hs.and (stable_staged _)) hs (fun g g' r hg hf heq => ?_) fun _ _ hf => hf.1
  cases heq
  have hm := staging_moves hf.2 (some ((g.staging s).getD []))
  exact ⟨hg.same_files hm, hm, hF g _ hg hm hf.1, hf.2, _, update_self .., trivial⟩

theorem spec_writeStaging {X Y : StoredFiles → Prop} {c : Bytes} (hXY : ∀ t, X t → Y (t.write path c)) :
    Ends H i (fun _ g => F g ∧ Staged i s Y g) F (writeStaging s path c) fun g => F g ∧ Staged i s X g := by
  refine meets_attempt (fun _ => hs.and (stable_staged _)) hs (fun g g' r hg hf heq => ?_) fun _ _ hf => hf.1
  obtain ⟨hf, hi, t, ht, hx⟩ := hf
  split_ifs at heq <;> cases heq
  · exact ⟨hg, .refl i g, hf⟩
  · have hm := staging_moves hi ((g.staging s).map (·.write path c))
    refine ⟨hg.same_files hm, hm, hF g _ hg hm hf, hi, t.write path c, ?_, hXY t hx⟩
    exact (update_self ..).trans (by rw [ht]; rfl)

theorem spec_writeAllStaging (done files : List (Bytes × Bytes)) :
    Ends H i (fun _ g => F g ∧ Staged i s (fun t => ∃ base : StoredFiles,
      t = base.writeAll (done ++ files)) g) F (writeAllStaging s files)
      fun g => F g ∧ Staged i s (fun t => ∃ base : StoredFiles, t = base.writeAll done) g := by
  induction files generalizing done with
  | nil =>
    rw [append_nil]
    exact meets_return fun _ _ => id
  | cons f files ih =>
    have hst := ih (done ++ [f])
    rw [append_assoc] at hst
    refine (spec_writeStaging hs hF ?_).thenE fun _ => hst
    rintro t ⟨base, rfl⟩
    exact ⟨base, by rw [writeAll, writeAll, foldl_append]; rfl⟩

end Staging

end Artifact

end Vgi
