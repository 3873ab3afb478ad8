import Mathlib

/-!
# Machines

A *machine* takes a step from a state with an action, where the action is possible. Its runs are the sequences of its
steps (`Machine.run`); a run meets a condition on the steps if each of them does in the state it is taken from
(`Machine.Along`).

* `Machine.run_invariant`: what holds at the start and is kept by each step holds at the end of each run;
* `Machine.run_invariant_along`: the same for runs that meet a condition.
-/

namespace Vgi

/-- A machine with the states `S` and the actions `A`. -/
structure Machine (S A : Type*) where
  /-- The state after an action, `none` if the action is not possible. -/
  step : S → A → Option S

namespace Machine

variable {S A : Type*} (m : Machine S A)

/-- The state after a sequence of actions, `none` if one of them is not possible. -/
def run : S → List A → Option S
  | s, [] => some s
  | s, a :: as => (m.step s a).bind (run · as)

/-- Each step of the run from `s` meets the condition `C`. -/
def Along (C : S → A → Prop) : S → List A → Prop
  | _, [] => True
  | s, a :: as => C s a ∧ ∀ s', m.step s a = some s' → Along C s' as

variable {m} {as : List A}

theorem run_cons {s s' : S} {a : A} :
    m.run s (a :: as) = some s' ↔ ∃ s₁, m.step s a = some s₁ ∧ m.run s₁ as = some s' := by
  rw [run, Option.bind_eq_some_iff]

instance decidableAlong {C : S → A → Prop} [∀ s a, Decidable (C s a)] :
    ∀ s as, Decidable (m.Along C s as)
  | _, [] => isTrue trivial
  | s, a :: as =>
    have : ∀ s', Decidable (m.Along C s' as) := fun s' => decidableAlong s' as
    inferInstanceAs (Decidable (C s a ∧ ∀ s' ∈ m.step s a, m.Along C s' as))

variable {C : S → A → Prop}

/-- What holds at the start of a run, and is kept by the steps that meet a
    condition, holds at the end if all steps of the run meet it. -/
theorem run_invariant_along {I : S → Prop} (hst : ∀ {s a s'}, I s → C s a → m.step s a = some s' → I s') {s s' : S}
    (hs : I s) (hC : m.Along C s as) (h : m.run s as = some s') : I s' := by
  induction as generalizing s with
  | nil =>
    cases h
    exact hs
  | cons a as ih =>
    obtain ⟨s₁, ha, has⟩ := run_cons.1 h
    exact ih (hst hs hC.1 ha) (hC.2 s₁ ha) has

theorem Along.mono {C' : S → A → Prop} (hC : ∀ {s a}, C s a → C' s a) {s : S} (h : m.Along C s as) :
    m.Along C' s as := by
  induction as generalizing s with
  | nil => trivial
  | cons a as ih => exact ⟨hC h.1, fun s' hs' => ih (h.2 s' hs')⟩

/-- The steps of a run are those of its actions. -/
theorem Along.and_mem {s : S} (h : m.Along C s as) : m.Along (fun s a => C s a ∧ a ∈ as) s as := by
  induction as generalizing s with
  | nil => trivial
  | cons a as ih =>
    refine ⟨⟨h.1, List.mem_cons_self⟩, fun s' hs' => (ih (h.2 s' hs')).mono fun hC => ?_⟩
    exact ⟨hC.1, List.mem_cons_of_mem a hC.2⟩

theorem along_of_forall (hC : ∀ s a, C s a) (s : S) (as : List A) : m.Along C s as := by
  induction as generalizing s with
  | nil => trivial
  | cons a as ih => exact ⟨hC s a, fun s' _ => ih s'⟩

/-- What holds at the start of a run and is kept by all steps holds at the end. -/
theorem run_invariant {I : S → Prop} (hst : ∀ {s a s'}, I s → m.step s a = some s' → I s') {s s' : S} (hs : I s)
    (h : m.run s as = some s') : I s' :=
  run_invariant_along (fun hs _ => hst hs) hs (along_of_forall (fun _ _ => trivial) s as) h

end Machine

end Vgi
