import Mathlib

/-!
# Computations with exceptions

Computations over a state that return a value or throw an exception, which may be caught by its kind:
`ExceptT` over `StateM`. Their rules of pre- and postconditions: `Spec P c Q E` says that from a state
with `P`, if `c` returns `a` then `Q a` holds afterwards, and if it throws `e` then `E e` does.
-/

namespace Vgi

universe u

/-- Computations on the states `S` that may throw an `ε`. -/
abbrev Throwing (ε S : Type u) : Type u → Type u := ExceptT ε (StateM S)

namespace Throwing

variable {ε S α β : Type u}

/-- What the computation comes to, and the state it leaves. -/
def exec (c : Throwing ε S α) (s : S) : Except ε α × S := c s

/-- From a state with `P`: `Q a` if `a` is returned, `E e` if `e` is thrown. -/
def Spec (P : S → Prop) (c : Throwing ε S α) (Q : α → S → Prop) (E : ε → S → Prop) : Prop :=
  ∀ s, P s → match c.exec s with
    | (.ok a, s') => Q a s'
    | (.error e, s') => E e s'

variable {P P' : S → Prop} {Q : α → S → Prop} {E E' : ε → S → Prop} {c : Throwing ε S α}

/-- What holds afterwards in any case. -/
theorem Spec.state {R : S → Prop} (h : Spec P c (fun _ => R) fun _ => R) {s : S} (hs : P s) : R (c.exec s).2 := by
  have hc := h s hs
  rcases hcs : c.exec s with ⟨e | a, s'⟩ <;> rw [hcs] at hc <;> exact hc

theorem Spec.pre (h : Spec P c Q E) (hP : ∀ s, P' s → P s) : Spec P' c Q E := fun s hs => h s (hP s hs)

theorem Spec.weaken (h : Spec P c Q E) (hE : ∀ e s, E e s → E' e s) : Spec P c Q E' := by
  intro s hs
  have hc := h s hs
  rcases hcs : c.exec s with ⟨e | a, s'⟩ <;> rw [hcs] at hc
  · exact hE e s' hc
  · exact hc

/-- A condition that is not about the state. -/
theorem Spec.assume {φ : Prop} (h : φ → Spec P c Q E) : Spec (fun s => P s ∧ φ) c Q E := fun s hs => h hs.2 s hs.1

theorem spec_pure (a : α) (h : ∀ s, P s → Q a s) : Spec P (pure a) Q E := h

theorem spec_throw (e : ε) (h : ∀ s, P s → E e s) : Spec P (throw e) Q E := h

theorem spec_get {Q : S → S → Prop} (h : ∀ s, P s → Q s s) : Spec P (get : Throwing ε S S) Q E := h

theorem exec_bind (f : α → Throwing ε S β) (s : S) : (c >>= f).exec s = match c.exec s with
    | (.ok a, s') => (f a).exec s'
    | (.error e, s') => (.error e, s') := by
  simp only [exec, bind, ExceptT.bind, ExceptT.mk, StateT.bind]
  rcases c s with ⟨_ | _, _⟩ <;> rfl

theorem exec_tryCatch (f : ε → Throwing ε S α) (s : S) : (tryCatch c f).exec s = match c.exec s with
    | (.ok a, s') => (.ok a, s')
    | (.error e, s') => (f e).exec s' := by
  simp only [exec, tryCatch, tryCatchThe, MonadExceptOf.tryCatch, ExceptT.tryCatch, ExceptT.mk, bind, StateT.bind]
  rcases c s with ⟨_ | _, _⟩ <;> rfl

theorem Spec.bind {f : α → Throwing ε S β} {R : β → S → Prop} (h : Spec P c Q E)
    (hf : ∀ a, Spec (Q a) (f a) R E) : Spec P (c >>= f) R E := by
  intro s hs
  have hc := h s hs
  rw [exec_bind]
  rcases hcs : c.exec s with ⟨e | a, s'⟩ <;> rw [hcs] at hc
  · exact hc
  · exact hf a s' hc

theorem Spec.tryCatch {f : ε → Throwing ε S α} {H : ε → S → Prop} (h : Spec P c Q H)
    (hf : ∀ e, Spec (H e) (f e) Q E) : Spec P (tryCatch c f) Q E := by
  intro s hs
  have hc := h s hs
  rw [exec_tryCatch]
  rcases hcs : c.exec s with ⟨e | a, s'⟩ <;> rw [hcs] at hc
  · exact hf e s' hc
  · exact hc

end Throwing

end Vgi
