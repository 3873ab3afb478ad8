import Vgi.Lib.Machine

/-!
# Threads over a shared state

A program whose threads, started at any time, take atomic steps on a state they share and on their own local state. The
threads are numbered in the order they start. Its configurations make a machine (`Threads.machine`): an action starts a
thread, or is the next step of one of them, so the runs of the machine are all interleavings of the threads.

* `Threads.Outline.run`: a *proof outline* is an invariant of the shared state together with an assertion on each
  thread, which the steps of the thread keep and those of the other threads do not disturb, if they meet a condition (a
  `Rule`); it holds in all runs whose actions meet the condition.
* `Threads.run_conserved`: a quantity of the shared state that changes by what the local quantity of the stepping thread
  changes is the sum of these.
-/

namespace Vgi

open List

/-- A program: how threads start (from a `B`), and their steps. -/
structure Threads (G L B A : Type*) where
  /-- Start the thread of this number. -/
  spawn : G → ℕ → B → Option (G × L)
  /-- A step of the thread of this number. -/
  step : G → ℕ → L → A → Option (G × L)

namespace Threads

/-- The shared state, and the local states of the threads started. -/
structure Config (G L : Type*) where
  shared : G
  locals : List L

/-- Start a thread, or take a step in one. -/
inductive Act (B A : Type*)
  | spawn (b : B)
  | step (i : ℕ) (a : A)

variable {G L B A : Type*} (t : Threads G L B A)

/-- The interleavings of the threads. -/
def machine : Machine (Config G L) (Act B A) where
  step s
    | .spawn b => (t.spawn s.shared s.locals.length b).map fun gl => ⟨gl.1, s.locals ++ [gl.2]⟩
    | .step i a => s.locals[i]?.bind fun l =>
      (t.step s.shared i l a).map fun gl => ⟨gl.1, s.locals.set i gl.2⟩

variable {t} {s s' : Config G L}

theorem machine_spawn {b : B} (h : t.machine.step s (.spawn b) = some s') :
    ∃ g l, t.spawn s.shared s.locals.length b = some (g, l) ∧ s' = ⟨g, s.locals ++ [l]⟩ := by
  obtain ⟨⟨g, l⟩, hgl, rfl⟩ := Option.map_eq_some_iff.1 h
  exact ⟨g, l, hgl, rfl⟩

theorem machine_step {i : ℕ} {a : A} (h : t.machine.step s (.step i a) = some s') :
    ∃ l g l', s.locals[i]? = some l ∧ t.step s.shared i l a = some (g, l') ∧ s' = ⟨g, s.locals.set i l'⟩ := by
  obtain ⟨l, hl, hst⟩ := Option.bind_eq_some_iff.1 h
  obtain ⟨⟨g, l'⟩, hgl, rfl⟩ := Option.map_eq_some_iff.1 hst
  exact ⟨l, g, l', hl, hgl, rfl⟩

/-! ## Proof outlines -/

/-- A condition on what happens: which threads start, and which steps they take. -/
structure Rule (G L B A : Type*) where
  spawn : G → B → Prop := fun _ _ => True
  step : G → ℕ → L → A → Prop := fun _ _ _ _ => True

/-- The condition, on the actions of the machine. -/
def Rule.At (c : Rule G L B A) (s : Config G L) : Act B A → Prop
  | .spawn b => c.spawn s.shared b
  | .step i a => ∀ l, s.locals[i]? = some l → c.step s.shared i l a

instance {c : Rule G L B A} [∀ g b, Decidable (c.spawn g b)] [∀ g i l a, Decidable (c.step g i l a)]
    (s : Config G L) : ∀ a, Decidable (c.At s a)
  | .spawn b => inferInstanceAs (Decidable (c.spawn s.shared b))
  | .step i a => inferInstanceAs (Decidable (∀ l ∈ s.locals[i]?, c.step s.shared i l a))

/-- A proof outline under a condition: the invariant `I` of the shared state, given
    the number of threads, and the assertion `P` on each thread. -/
structure Outline (t : Threads G L B A) (c : Rule G L B A) (I : ℕ → G → Prop)
    (P : G → ℕ → L → Prop) : Prop where
  spawn : ∀ {g n b g' l}, I n g → c.spawn g b → t.spawn g n b = some (g', l) →
    I (n + 1) g' ∧ P g' n l ∧ ∀ j m, j < n → P g j m → P g' j m
  step : ∀ {g n i l a g' l'}, I n g → i < n → P g i l → c.step g i l a →
    t.step g i l a = some (g', l') → I n g' ∧ P g' i l' ∧ ∀ j m, j ≠ i → P g j m → P g' j m

/-- The configuration meets the outline. -/
structure Config.Meets (I : ℕ → G → Prop) (P : G → ℕ → L → Prop) (s : Config G L) : Prop where
  shared : I s.locals.length s.shared
  locals : ∀ i l, s.locals[i]? = some l → P s.shared i l

variable {c : Rule G L B A} {I : ℕ → G → Prop} {P : G → ℕ → L → Prop}

theorem Outline.meets_step (o : t.Outline c I P) {a : Act B A} (hs : s.Meets I P) (hc : c.At s a)
    (h : t.machine.step s a = some s') : s'.Meets I P := by
  cases a with
  | spawn b =>
    obtain ⟨g, l, hgl, rfl⟩ := machine_spawn h
    obtain ⟨hI, hP, hkp⟩ := o.spawn hs.shared hc hgl
    refine ⟨?_, fun j m hm => ?_⟩
    · rw [length_append]
      exact hI
    rcases lt_or_ge j s.locals.length with hj | hj
    · rw [getElem?_append_left hj] at hm
      exact hkp j m hj (hs.locals j m hm)
    -- only the new thread has this number
    rw [getElem?_append_right hj, getElem?_singleton] at hm
    split at hm
    · obtain rfl : j = s.locals.length := by omega
      cases hm
      exact hP
    · cases hm
  | step i a =>
    obtain ⟨l, g, l', hl, hgl, rfl⟩ := machine_step h
    have hi : i < s.locals.length := (List.getElem?_eq_some_iff.1 hl).1
    obtain ⟨hI, hP, hkp⟩ := o.step hs.shared hi (hs.locals i l hl) (hc l hl) hgl
    refine ⟨?_, fun j m hm => ?_⟩
    · rw [length_set]
      exact hI
    rcases eq_or_ne i j with rfl | hij
    · rw [getElem?_set_self hi] at hm
      cases hm
      exact hP
    · rw [getElem?_set_ne hij] at hm
      exact hkp j m hij.symm (hs.locals j m hm)

/-- A proof outline holds in every configuration reached under its condition. -/
theorem Outline.run (o : t.Outline c I P) {as : List (Act B A)} (hs : s.Meets I P) (hc : t.machine.Along c.At s as)
    (h : t.machine.run s as = some s') : s'.Meets I P :=
  Machine.run_invariant_along o.meets_step hs hc h

/-- The condition that everything meets. -/
theorem Rule.at_any (s : Config G L) (a : Act B A) : ({} : Rule G L B A).At s a := by
  cases a with
  | spawn b => trivial
  | step i a => exact fun _ _ => trivial

/-- An outline over one that holds in all runs: what this one says may be used. -/
theorem Outline.extend {I₂ : ℕ → G → Prop} {P₂ : G → ℕ → L → Prop} (o : t.Outline {} I P)
    (spawn : ∀ {g n b g' l}, I n g → I₂ n g → c.spawn g b → t.spawn g n b = some (g', l) →
      I₂ (n + 1) g' ∧ P₂ g' n l ∧ ∀ j m, j < n → P₂ g j m → P₂ g' j m)
    (step : ∀ {g n i l a g' l'}, I n g → I₂ n g → P g i l → P₂ g i l → c.step g i l a →
      t.step g i l a = some (g', l') → I₂ n g' ∧ P₂ g' i l' ∧ ∀ j m, j ≠ i → P g j m → P₂ g j m → P₂ g' j m) :
    t.Outline c (fun n g => I n g ∧ I₂ n g) (fun g i l => P g i l ∧ P₂ g i l) where
  spawn hI hc h := by
    obtain ⟨hI₁, hP₁, hkp₁⟩ := o.spawn hI.1 trivial h
    obtain ⟨hI₂, hP₂, hkp₂⟩ := spawn hI.1 hI.2 hc h
    exact ⟨⟨hI₁, hI₂⟩, ⟨hP₁, hP₂⟩, fun j m hj hP => ⟨hkp₁ j m hj hP.1, hkp₂ j m hj hP.2⟩⟩
  step hI hi hP hc h := by
    obtain ⟨hI₁, hP₁, hkp₁⟩ := o.step hI.1 hi hP.1 trivial h
    obtain ⟨hI₂, hP₂, hkp₂⟩ := step hI.1 hI.2 hP.1 hP.2 hc h
    exact ⟨⟨hI₁, hI₂⟩, ⟨hP₁, hP₂⟩, fun j m hj hP => ⟨hkp₁ j m hj hP.1, hkp₂ j m hj hP.1 hP.2⟩⟩

/-! ## Conserved quantities -/

theorem sum_map_set {M : Type*} [AddCommMonoid M] (f : L → M) {ls : List L} {i : ℕ} {l : L}
    (h : ls[i]? = some l) (l' : L) : ((ls.set i l').map f).sum + f l = (ls.map f).sum + f l' := by
  induction ls generalizing i with
  | nil => simp at h
  | cons m ls ih =>
    cases i with
    | zero =>
      obtain rfl : m = l := by simpa using h
      simp only [set_cons_zero, map_cons, sum_cons]
      abel
    | succ i =>
      have h' := ih (by simpa using h)
      simp only [set_cons_succ, map_cons, sum_cons, add_assoc, h']

/-- A quantity of the shared state that changes by what the quantity of the
    stepping thread changes is the sum of these. -/
theorem run_conserved {M : Type*} [AddCancelCommMonoid M] {c : G → M} {f : L → M}
    (hsp : ∀ {g n b g' l}, t.spawn g n b = some (g', l) → c g' = c g + f l)
    (hst : ∀ {g i l a g' l'}, t.step g i l a = some (g', l') → c g' + f l = c g + f l') {as : List (Act B A)}
    (hs : c s.shared = (s.locals.map f).sum) (h : t.machine.run s as = some s') :
    c s'.shared = (s'.locals.map f).sum := by
  refine Machine.run_invariant (I := fun s => c s.shared = (s.locals.map f).sum) (fun {s a s'} hs h => ?_) hs h
  cases a with
  | spawn b =>
    obtain ⟨g, l, hgl, rfl⟩ := machine_spawn h
    rw [hsp hgl, hs, map_append, sum_append, map_singleton, sum_singleton]
  | step i a =>
    obtain ⟨l, g, l', hl, hgl, rfl⟩ := machine_step h
    have hsum := sum_map_set f hl l'
    rw [← hs, ← hst hgl] at hsum
    exact (add_right_cancel hsum).symm

end Threads

end Vgi
