import Mathlib

/-!
# Computations that may throw

A computation over a state that returns a value or throws; what it has changed by
then stays (`Fallible`). Its rules of pre- and postconditions: `Spec P c Q E` says
that from a state with `P`, if `c` returns `a` then `Q a` holds afterwards, and if it
throws then `E` does.

Where nothing is changed before a throw, `Except` is enough: what returns a value
is taken apart by `bind_eq_ok`, and a loop by `ok_of_foldlM` and `foldlM_append`; when one throws is said by
`throws_bind` and `throws_foldlM`.
-/

namespace Vgi

open List

/-! ## Without a state -/

section Except

universe u

variable {ε : Type*} {σ α β : Type u} {f : α → Except ε β}

variable {x : Except ε α}

theorem bind_eq_ok {b : β} : (x >>= f) = .ok b ↔ ∃ a, x = .ok a ∧ f a = .ok b := by
  rcases x with e | a
  · exact ⟨nofun, fun ⟨_, h, _⟩ => (nomatch h)⟩
  · exact ⟨fun h => ⟨a, rfl, h⟩, fun ⟨_, h, h'⟩ => Except.ok.inj h ▸ h'⟩

theorem ok_eq_ok_iff {P : Prop} (hp : P) {a b : α} : (.ok a : Except ε α) = .ok b ↔ P ∧ b = a :=
  ⟨fun h => ⟨hp, (Except.ok.inj h).symm⟩, fun h => congrArg _ h.2.symm⟩

/-- A check that throws. -/
def refuseIf (c : Bool) (e : ε) : Except ε PUnit.{u + 1} :=
  if c then .error e else .ok ⟨⟩

@[simp]
theorem refuseIf_eq_ok {c : Bool} {e : ε} {u : PUnit} : refuseIf c e = .ok u ↔ c = false := by
  cases c <;> simp [refuseIf]

/-- In a loop that does not throw, no round does. -/
theorem ok_of_foldlM {f : σ → α → Except ε σ} {xs : List α} {s s' : σ} (h : xs.foldlM f s = .ok s') {a : α}
    (ha : a ∈ xs) : ∃ s₁ s₂, f s₁ a = .ok s₂ := by
  induction xs generalizing s with
  | nil => cases ha
  | cons b xs ih =>
    rw [foldlM_cons] at h
    obtain ⟨s₁, hb, h⟩ := bind_eq_ok.1 h
    rcases mem_cons.1 ha with rfl | ha
    · exact ⟨s, s₁, hb⟩
    · exact ih h ha

variable {l : List α}

/-- If all succeed, these are the results. -/
theorem mapM_eq_ok {bs : List β} (h : l.mapM f = .ok bs) : List.Forall₂ (fun a b => f a = .ok b) l bs := by
  induction l generalizing bs with
  | nil =>
    rw [mapM_nil] at h
    cases h
    exact .nil
  | cons a l ih =>
    rw [mapM_cons] at h
    obtain ⟨b, hb, h⟩ := bind_eq_ok.1 h
    obtain ⟨bs', hbs, h⟩ := bind_eq_ok.1 h
    cases h
    exact .cons hb (ih hbs)

theorem mapM_of_ok {g : α → β} (h : ∀ a ∈ l, f a = .ok (g a)) : l.mapM f = .ok (l.map g) := by
  induction l with
  | nil => rfl
  | cons a l ih =>
    rw [mapM_cons, h a mem_cons_self, ih fun b hb => h b (mem_cons_of_mem _ hb)]
    rfl

theorem ok_of_mapM {bs : List β} (h : l.mapM f = .ok bs) {a : α} (ha : a ∈ l) : ∃ b, f a = .ok b := by
  obtain ⟨i, hi, rfl⟩ := getElem_of_mem ha
  have hbs := mapM_eq_ok h
  exact ⟨_, hbs.get hi (hbs.length_eq ▸ hi)⟩

/-- A loop that collects something from each element has collected it from all of them. -/
theorem foldlM_append {f : σ → α → Except ε σ} {π : σ → List β} {out : α → List β}
    (h : ∀ s a s', f s a = .ok s' → π s' = π s ++ out a) {xs : List α} {s s' : σ}
    (hxs : xs.foldlM f s = .ok s') : π s' = π s ++ xs.flatMap out := by
  induction xs generalizing s with
  | nil =>
    cases hxs
    rw [flatMap_nil, append_nil]
  | cons a xs ih =>
    rw [foldlM_cons] at hxs
    obtain ⟨s₁, ha, hxs⟩ := bind_eq_ok.1 hxs
    rw [ih hxs, h s a s₁ ha, flatMap_cons, append_assoc]

/-- The computation ends with an exception. -/
def Throws (x : Except ε α) : Prop := ∃ e, x = .error e

@[simp]
theorem throws_error (e : ε) : Throws (.error e : Except ε α) := ⟨e, rfl⟩

@[simp]
theorem not_throws_ok (a : α) : ¬Throws (.ok a : Except ε α) := by
  rintro ⟨e, h⟩
  cases h

theorem throws_bind : Throws (x >>= f) ↔ Throws x ∨ ∃ a, x = .ok a ∧ Throws (f a) := by
  rcases x with e | a
  · exact iff_of_true (throws_error e) (.inl (throws_error e))
  · refine ⟨fun h => .inr ⟨a, rfl, h⟩, ?_⟩
    rintro (h | ⟨_, h, hf⟩)
    · exact absurd h (not_throws_ok a)
    · exact Except.ok.inj h ▸ hf

@[simp]
theorem throws_map {f : α → β} : Throws (x.map f) ↔ Throws x := by
  rcases x with e | a
  · exact iff_of_true (throws_error e) (throws_error e)
  · exact iff_of_false (not_throws_ok (f a)) (not_throws_ok a)

/-- If it depends on the element alone whether a round throws, the loop does for one such element. -/
theorem throws_foldlM {f : σ → α → Except ε σ} {p : α → Prop} (h : ∀ s a, Throws (f s a) ↔ p a) (xs : List α)
    (s : σ) : Throws (xs.foldlM f s) ↔ ∃ a ∈ xs, p a := by
  induction xs generalizing s with
  | nil => exact iff_of_false (not_throws_ok s) (by simp)
  | cons a xs ih =>
    rw [foldlM_cons, throws_bind, exists_mem_cons_iff, h]
    constructor
    · rintro (ha | ⟨s', -, hxs⟩)
      · exact .inl ha
      · exact .inr ((ih s').1 hxs)
    · rintro (ha | hxs)
      · exact .inl ha
      · rcases hs : f s a with e | s'
        · exact .inl ((h s a).1 ⟨e, hs⟩)
        · exact .inr ⟨s', rfl, (ih s').2 hxs⟩

end Except

/-! ## Over a state -/

/-- A computation on the states `S`. It throws where the value is `none`. -/
def Fallible (S α : Type*) := S → Option α × S

namespace Fallible

universe u

variable {S T : Type*} {α β : Type u}

instance : Monad (Fallible S) where
  pure a := fun s => (some a, s)
  bind c f := fun s =>
    match c s with
    | (some a, s) => f a s
    | (none, s) => (none, s)

def throw : Fallible S α := fun s => (none, s)

/-- What is done when `c` throws. -/
def catching (c h : Fallible S α) : Fallible S α := fun s =>
  match c s with
  | (some a, s) => (some a, s)
  | (none, s) => h s

def get : Fallible S S := fun s => (some s, s)

def modify (f : S → S) : Fallible S Unit := fun s => (some (), f s)

/-- A loop over a list. -/
def forEach (xs : List β) (body : β → Fallible S Unit) : Fallible S Unit :=
  match xs with
  | [] => pure ()
  | x :: xs => do
    body x
    forEach xs body

/-- A computation on a part of the state. -/
def zoom (get : S → T) (set : T → S → S) (c : Fallible T α) : Fallible S α := fun s =>
  match c (get s) with
  | (a, t) => (a, set t s)

variable {f : α → Fallible S β}

theorem get_then {S α : Type} (f : S → Fallible S α) (s : S) : (get >>= f) s = f s s := rfl

theorem bind_of_some {c : Fallible S α} {s s' : S} {a : α} (h : c s = (some a, s')) : (c >>= f) s = f a s' := by
  change (match c s with
    | (some a, s) => f a s
    | (none, s) => (none, s)) = _
  rw [h]

theorem bind_of_none {c : Fallible S α} {s s' : S} (h : c s = (none, s')) : (c >>= f) s = (none, s') := by
  change (match c s with
    | (some a, s) => f a s
    | (none, s) => (none, s)) = _
  rw [h]

theorem forEach_modify (xs : List β) (f : β → S → S) (s : S) :
    forEach xs (fun x => modify (f x)) s = (some PUnit.unit, xs.foldl (fun s x => f x s) s) := by
  induction xs generalizing s with
  | nil => rfl
  | cons x xs ih => exact ih (f x s)

/-! ## Pre- and postconditions -/

/-- From a state with `P`: `Q a` if `a` is returned, `E` if `c` throws. -/
def Spec (P : S → Prop) (c : Fallible S α) (Q : α → S → Prop) (E : S → Prop) : Prop :=
  ∀ s, P s → match c s with
    | (some a, s') => Q a s'
    | (none, s') => E s'

variable {P P' E E' : S → Prop} {Q Q' : α → S → Prop} {c : Fallible S α}

/-- What holds afterwards in any case. -/
theorem Spec.state (h : Spec P c (fun _ => E) E) {s : S} (hs : P s) : E (c s).2 := by
  have hc := h s hs
  rcases hcs : c s with ⟨_ | a, s'⟩ <;> rw [hcs] at hc <;> exact hc

theorem Spec.weaken (h : Spec P c Q E) (hP : ∀ s, P' s → P s) (hQ : ∀ a s, Q a s → Q' a s)
    (hE : ∀ s, E s → E' s) : Spec P' c Q' E' := by
  intro s hs
  have hc := h s (hP s hs)
  rcases hcs : c s with ⟨_ | a, s'⟩ <;> rw [hcs] at hc
  · exact hE s' hc
  · exact hQ a s' hc

theorem Spec.pre (h : Spec P c Q E) (hP : ∀ s, P' s → P s) : Spec P' c Q E := h.weaken hP (fun _ _ => id) (fun _ => id)

theorem Spec.post (h : Spec P c Q E) (hQ : ∀ a s, Q a s → Q' a s) : Spec P c Q' E :=
  h.weaken (fun _ => id) hQ (fun _ => id)

theorem spec_pure (a : α) (h : ∀ s, P s → Q a s) : Spec P (pure a) Q E := h

theorem spec_throw (h : ∀ s, P s → E s) : Spec P (throw : Fallible S α) Q E := h

theorem spec_get {Q : S → S → Prop} (h : ∀ s, P s → Q s s) : Spec P get Q E := h

theorem spec_modify {f : S → S} {Q : Unit → S → Prop} (h : ∀ s, P s → Q () (f s)) : Spec P (modify f) Q E := h

theorem Spec.bind {R : β → S → Prop} (h : Spec P c Q E) (hf : ∀ a, Spec (Q a) (f a) R E) : Spec P (c >>= f) R E := by
  intro s hs
  have hc := h s hs
  change match (match c s with
    | (some a, s) => f a s
    | (none, s) => (none, s)) with
    | (some b, s') => R b s'
    | (none, s') => E s'
  rcases hcs : c s with ⟨_ | a, s'⟩ <;> rw [hcs] at hc
  · exact hc
  · exact hf a s' hc

theorem Spec.catching {c' : Fallible S α} (h : Spec P c Q E) (h' : Spec E c' Q E') : Spec P (catching c c') Q E' := by
  intro s hs
  have hc := h s hs
  rw [Fallible.catching]
  rcases hcs : c s with ⟨_ | a, s'⟩ <;> rw [hcs] at hc
  · exact h' s' hc
  · exact hc

/-- A loop keeps what each of its rounds keeps, given what is left to do. -/
theorem spec_forEach {I : List β → S → Prop} {body : β → Fallible S Unit} (xs : List β)
    (h : ∀ x xs, Spec (I (x :: xs)) (body x) (fun _ => I xs) E) :
    Spec (I xs) (forEach xs body) (fun _ => I []) E := by
  induction xs with
  | nil => exact spec_pure () fun _ => id
  | cons x xs ih => exact (h x xs).bind fun _ => ih

end Fallible

end Vgi
