import Vgi.Catalog.Set
import Vgi.Exchange.Key
import Vgi.Lib.Machine

/-!
# The known version of a catalog

Threads ask the worker for its version with a poll (`CheckAndInvalidateCache`) or get it with a snapshot
(`RevalidateContents`, `TakeCatalogContents`). That of a snapshot is recorded if it is not older than what is known
(`AdoptCatalogVersion`), that of a poll if it is another one, so a poll whose reply was overtaken takes the known
version back (`reply_overtaken`).

* `known_le`: if no version is recorded while another poll is under way, the known version only grows.
-/

namespace Vgi.Catalog

/-- The version of the worker, `last_known_catalog_version_`, and what threads have been told: by a poll, by a poll
    that was found to differ from what is known, and with a snapshot. -/
structure Versions where
  worker : ℤ
  known : ℤ
  polled : List ℤ := []
  changed : List ℤ := []
  received : List ℤ := []

/-- The worker goes on, a thread asks it, or has its turn with what it was told. -/
inductive VersionAct
  | grow (d : ℕ)
  | poll
  | compare (v : ℤ)
  | store (v : ℤ)
  | request
  | adopt (v : ℤ)

namespace Versions

def machine : Machine Versions VersionAct where
  step s
    | .grow d => some { s with worker := s.worker + d }
    | .poll => some { s with polled := s.worker :: s.polled }
    | .compare v =>
      if v ∈ s.polled then
        some { s with
          polled := s.polled.erase v
          changed := if v = 0 ∨ v = s.known then s.changed else v :: s.changed }
      else none
    | .store v => if v ∈ s.changed then some { s with known := v, changed := s.changed.erase v } else none
    | .request => some { s with received := s.worker :: s.received }
    | .adopt v =>
      if v ∈ s.received then
        some { s with
          known := if v = 0 then s.known else (World.adoptVersion v { knownVersion := s.known }).1.knownVersion
          received := s.received.erase v }
      else none

/-- No version is recorded while another poll is under way. -/
abbrev Unraced (s : Versions) : VersionAct → Prop
  | .store v => s.polled = [] ∧ s.changed = [v]
  | .adopt _ => s.polled = [] ∧ s.changed = []
  | _ => True

instance (s : Versions) (a : VersionAct) : Decidable (s.Unraced a) := by
  rcases a <;> infer_instance

/-- What was told is not newer than the worker, by a poll not older than what is known. -/
structure Inv (s : Versions) : Prop where
  known : s.known ≤ s.worker
  polled : ∀ v, v ∈ s.polled ∨ v ∈ s.changed → s.known ≤ v ∧ v ≤ s.worker
  received : ∀ v ∈ s.received, v ≤ s.worker

variable {s s' : Versions} {acts acts' : List VersionAct}

theorem Inv.step {a : VersionAct} (h : s.Inv) (ha : s.Unraced a) (hs : machine.step s a = some s') :
    s'.Inv ∧ s.known ≤ s'.known := by
  obtain ⟨hk, hp, hr⟩ := h
  cases a with
  | grow | poll | request =>
    cases hs
    exact ⟨by constructor <;> grind, le_rfl⟩
  | compare v =>
    obtain ⟨hv, hs⟩ := Option.ite_none_right_eq_some.1 hs
    cases hs
    refine ⟨⟨hk, fun w hw => hp w ?_, hr⟩, le_rfl⟩
    grind [List.mem_of_mem_erase]
  | store v =>
    obtain ⟨hv, hs⟩ := Option.ite_none_right_eq_some.1 hs
    cases hs
    obtain ⟨hpl, hch⟩ := ha
    have hvk := hp v (.inr hv)
    exact ⟨⟨hvk.2, by simp [hpl, hch], hr⟩, hvk.1⟩
  | adopt v =>
    obtain ⟨hv, hs⟩ := Option.ite_none_right_eq_some.1 hs
    cases hs
    obtain ⟨hpl, hch⟩ := ha
    have hvw := hr v hv
    refine ⟨⟨?_, by simp [hpl, hch], fun w hw => hr w (List.mem_of_mem_erase hw)⟩, ?_⟩ <;> grind [World.adoptVersion]

theorem Inv.run (h : s.Inv) (hC : machine.Along Unraced s acts) (hs : machine.run s acts = some s') :
    s'.Inv ∧ s.known ≤ s'.known :=
  Machine.run_invariant_along (I := fun t => t.Inv ∧ s.known ≤ t.known)
    (fun h ha hs => ⟨(h.1.step ha hs).1, h.2.trans (h.1.step ha hs).2⟩) ⟨h, le_rfl⟩ hC hs

/-- In every run from an attached catalog in which no version is recorded while another poll is under way: the known
    version only grows, and no key of an exchange or a scan is built with a lower one than was known before. -/
theorem known_le {worker known : ℤ} (hknown : known ≤ worker) (hacts : machine.Along Unraced { worker, known } acts)
    (hs : machine.run { worker, known } acts = some s) (hacts' : machine.Along Unraced s acts')
    (hs' : machine.run s acts' = some s') :
    s.known ≤ s'.known ∧
    (∀ {V : Type} (toStr : V → Bytes) (c : ExchangeCall V) (catalog : CatalogRef) (key label),
      c.versioned = some catalog → catalog.knownCatalogVersion = s'.known →
        c.staticKey toStr = .ok (key, label) → s.known ≤ key.catalogVersion) ∧
    ∀ {V F : Type} (ctx : KeyContext V F) (scan : ScanInput V F) (catalog : CatalogRef) (e),
      scan.table = some catalog → catalog.knownCatalogVersion = s'.known →
        scan.evaluateCacheEligibility ctx = .ok e → s.known ≤ e.key.catalogVersion := by
  have hinv : Inv { worker, known } := ⟨hknown, by simp, nofun⟩
  have hle := ((hinv.run hacts hs).1.run hacts' hs').2
  refine ⟨hle, fun toStr c catalog key label hc hv hkey => ?_, fun ctx scan catalog e hc hv he => ?_⟩
  · obtain ⟨-, scope, version, hid, rfl⟩ := ExchangeCall.staticKey_eq_ok.1 hkey
    simp only [ExchangeCall.identity, hc] at hid
    split_ifs at hid
    cases hid
    exact hle.trans_eq hv.symm
  · obtain ⟨i, filters, sample, hid, hkey⟩ := ScanInput.exists_key_eq he
    simp only [ScanInput.identity, hc] at hid
    split_ifs at hid
    cases hid
    exact hle.trans_eq (hv.symm.trans (congrArg ResultCacheKey.catalogVersion hkey).symm)

/-- A thread polls and is told 5, and then another one is told 6 and records it. The first one records 5. -/
theorem reply_overtaken : ∃ s s',
    machine.run { worker := 5, known := 4 } [.poll, .grow 1, .poll, .compare 6, .store 6] = some s ∧
      machine.run s [.compare 5, .store 5] = some s' ∧ s.known = 6 ∧ s'.known = 5 :=
  ⟨_, _, rfl, rfl, rfl, rfl⟩

/-- One poll, then one adoption. -/
theorem known_le_serial : ∃ s s', machine.run { worker := 5, known := 4 } [.poll, .compare 5, .store 5] = some s ∧
    machine.run s [.grow 1, .request, .adopt 6] = some s' ∧ s.known ≤ s'.known :=
  ⟨_, _, rfl, rfl, (@known_le _ _ [.poll, .compare 5, .store 5] [.grow 1, .request, .adopt 6] 5 4
    (by decide) (by decide) rfl (by decide) rfl).1⟩

end Versions

end Vgi.Catalog
