import Vgi.Lib.Threads

/-!
# Programs of atomic actions

A sequential program (`Prog`) takes atomic actions on a state that it shares with other programs, and returns a
value. Many of them run side by side, each started by a call (`Prog.threads`), in any interleaving of their actions.

They are proved by what each of them may rely on and has to guarantee (`Discipline`): an invariant of the shared
state, and for each thread a relation that its actions stay in, given a condition on what the environment decides. An
assertion about the shared state is stable for a thread if no action that another thread may take disturbs it.
`Prog.Meets` says of a program that its actions keep the invariant and the guarantee, and that it returns with its
postcondition, whatever the others do meanwhile.

* `Prog.Meets.bind`, `Prog.meets_atomic`, `Prog.meets_forEach`: the rules;
* `Prog.run_meets`: in every interleaving of programs that meet the discipline, if the condition is met, the invariant
  holds, and what has returned has its postcondition;
* `Prog.run_meets_under`: the same, where the condition also depends on what was called.

Of a program that only stays in a relation (`Prog.Keeps`) there is nothing else to be shown.
-/

namespace Vgi

/-- A program that returns an `α`. An action is on the shared state `G` and on what the environment decides, an `A`.
    Where it gives `none` it is not possible, and the program has to wait. -/
inductive Prog (G A : Type) (α : Type) : Type 1
  | ret (a : α)
  | act {β : Type} (f : G → A → Option (G × β)) (k : β → Prog G A α)

namespace Prog

variable {G A α β ε : Type}

def bind : Prog G A α → (α → Prog G A β) → Prog G A β
  | ret a, k => k a
  | act f k', k => act f fun b => (k' b).bind k

instance : Monad (Prog G A) where
  pure := ret
  bind := bind

/-- A single action. -/
def atomic (f : G → A → Option (G × β)) : Prog G A β := act f ret

/-- A change that is always possible. -/
def modify (f : G → G) : Prog G A Unit := atomic fun g _ => some (f g, ())

/-- Look at the shared state. -/
def read (f : G → β) : Prog G A β := atomic fun g _ => some (g, f g)

/-- What the environment decides. -/
def ask (f : A → β) : Prog G A β := atomic fun g a => some (g, f a)

def forEach (xs : List β) (body : β → Prog G A Unit) : Prog G A Unit :=
  match xs with
  | [] => pure ()
  | x :: xs => do
    body x
    forEach xs body

/-- What is taken before is given back afterwards, also if there is an exception. -/
def holding (lock : ExceptT ε (Prog G A) Unit) (unlock : Prog G A Unit) (body : ExceptT ε (Prog G A) α) :
    ExceptT ε (Prog G A) α := do
  lock
  ExceptT.mk do
    let r ← body.run
    unlock
    return r

/-- `handler` runs before an exception goes on. -/
def onError (body : ExceptT ε (Prog G A) α) (handler : Prog G A Unit) : ExceptT ε (Prog G A) α :=
  ExceptT.mk do
    match ← body.run with
    | .ok a => return .ok a
    | .error e => do
      handler
      return .error e

/-- The next action. -/
def step (g : G) (a : A) : Prog G A α → Option (G × Prog G A α)
  | ret _ => none
  | act f k => (f g a).map fun r => (r.1, k r.2)

/-- Calls of programs, each with what it was called with and what is left of its program. -/
def threads {B : Type} (main : ℕ → B → Prog G A α) : Threads G (B × Prog G A α) B A where
  spawn g i b := some (g, b, main i b)
  step g _ l a := (l.2.step g a).map fun r => (r.1, l.1, r.2)

end Prog

/-! ## Disciplines -/

/-- What all threads keep, what each of them may do, and what the environment is assumed to decide. -/
structure Discipline (G A : Type) where
  inv : G → Prop
  guar : ℕ → G → G → Prop
  allowed : ℕ → G → A → Prop := fun _ _ _ => True

namespace Discipline

variable {G A : Type} (D : Discipline G A) (i : ℕ)

/-- An assertion that no other thread disturbs. -/
def Stable (P : G → Prop) : Prop :=
  ∀ ⦃g g' : G⦄ ⦃j : ℕ⦄, j ≠ i → D.inv g → D.inv g' → D.guar j g g' → P g → P g'

variable {D i}

theorem stable_const (p : Prop) : D.Stable i fun _ => p := fun _ _ _ _ _ _ _ h => h

theorem Stable.and {P Q : G → Prop} (hP : D.Stable i P) (hQ : D.Stable i Q) : D.Stable i fun g => P g ∧ Q g :=
  fun _ _ _ hj hg hg' hgr h => ⟨hP hj hg hg' hgr h.1, hQ hj hg hg' hgr h.2⟩

/-- The discipline with a further condition on what the environment decides. -/
def under (D : Discipline G A) (K : G → A → Prop) : Discipline G A :=
  { D with allowed := fun i g a => D.allowed i g a ∧ K g a }

theorem Stable.imp {p : Prop} {P : G → Prop} (hP : p → D.Stable i P) : D.Stable i fun g => p → P g :=
  fun _ _ _ hj hg hg' hgr h hp => hP hp hj hg hg' hgr (h hp)

end Discipline

/-! ## Programs that keep to a discipline -/

namespace Prog

variable {G A α β ε : Type} {D : Discipline G A} {i : ℕ} {P P' : G → Prop} {Q Q' : α → G → Prop}

/-- From a state with `P`, all actions of the program keep the invariant and the guarantee, and it returns with
    `Q`. Between two actions there is an assertion that is stable. -/
def Meets (D : Discipline G A) (i : ℕ) (Q : α → G → Prop) : Prog G A α → (G → Prop) → Prop
  | ret a, P => ∀ g, D.inv g → P g → Q a g
  | act (β := β) f k, P => ∃ R : β → G → Prop, (∀ b, D.Stable i (R b)) ∧
      (∀ g a g' b, D.allowed i g a → D.inv g → P g → f g a = some (g', b) → D.inv g' ∧ D.guar i g g' ∧ R b g') ∧
      ∀ b, Meets D i Q (k b) (R b)

theorem meets_pure {a : α} (h : ∀ g, D.inv g → P g → Q a g) : Meets D i Q (pure a : Prog G A α) P := h

variable {f : G → A → Option (G × α)}

theorem meets_allowed (hQ : ∀ a, D.Stable i (Q a))
    (h : ∀ g a g' b, D.allowed i g a → D.inv g → P g → f g a = some (g', b) → D.inv g' ∧ D.guar i g g' ∧ Q b g') :
    Meets D i Q (atomic f) P :=
  ⟨Q, hQ, h, fun _ _ _ hq => hq⟩

theorem meets_atomic (hQ : ∀ a, D.Stable i (Q a))
    (h : ∀ g a g' b, D.inv g → P g → f g a = some (g', b) → D.inv g' ∧ D.guar i g g' ∧ Q b g') :
    Meets D i Q (atomic f) P :=
  meets_allowed hQ fun g a g' b _ => h g a g' b

variable {p : Prog G A α}

theorem Meets.pre (h : Meets D i Q p P) (hP : ∀ g, D.inv g → P' g → P g) : Meets D i Q p P' := by
  cases p with
  | ret a => exact fun g hg hg' => h g hg (hP g hg hg')
  | act f k =>
    obtain ⟨R, hR, hf, hk⟩ := h
    exact ⟨R, hR, fun g a g' b ha hg hp => hf g a g' b ha hg (hP g hg hp), hk⟩

/-- Nothing is to be shown of a program that is not reached. -/
theorem meets_of_false (p : Prog G A α) (h : ∀ g, ¬P g) : Meets D i Q p P := by
  induction p generalizing P with
  | ret a => exact fun g _ hp => absurd hp (h g)
  | act f k ih =>
    exact ⟨fun _ _ => False, fun _ => D.stable_const False, fun g _ _ _ _ _ hp => absurd hp (h g),
      fun b => ih b fun _ => id⟩

/-- What is known of other things than the state. -/
theorem meets_of_fact {c : Prop} (h : c → Meets D i Q p P) : Meets D i Q p fun g => P g ∧ c := by
  by_cases hc : c
  · exact (h hc).pre fun _ _ hp => hp.1
  · exact meets_of_false p fun _ hp => hc hp.2

theorem Meets.post (h : Meets D i Q p P) (hQ : ∀ a g, D.inv g → Q a g → Q' a g) : Meets D i Q' p P := by
  induction p generalizing P with
  | ret a => exact fun g hg hp => hQ a g hg (h g hg hp)
  | act f k ih =>
    obtain ⟨R, hR, hf, hk⟩ := h
    exact ⟨R, hR, hf, fun b => ih b (hk b)⟩

theorem Meets.bind {p : Prog G A β} {k : β → Prog G A α} {R : β → G → Prop} (hp : Meets D i R p P)
    (hk : ∀ b, Meets D i Q (k b) (R b)) : Meets D i Q (p >>= k) P := by
  change Meets D i Q (p.bind k) P
  induction p generalizing P with
  | ret b => exact (hk b).pre fun g hg hp' => hp g hg hp'
  | act f k' ih =>
    obtain ⟨R', hR', hf, hk'⟩ := hp
    exact ⟨R', hR', hf, fun b => ih b (hk' b)⟩

theorem meets_read {f : G → α} (hQ : ∀ a, D.Stable i (Q a)) (hgr : ∀ g, D.guar i g g)
    (h : ∀ g, D.inv g → P g → Q (f g) g) : Meets D i Q (read f : Prog G A α) P := by
  refine meets_atomic hQ fun g a g' b hg hp heq => ?_
  cases heq
  exact ⟨hg, hgr g, h g hg hp⟩

theorem meets_ask {f : A → α} (hP : D.Stable i P) (hgr : ∀ g, D.guar i g g) :
    Meets D i (fun _ => P) (ask f : Prog G A α) P := by
  refine meets_atomic (fun _ => hP) fun g a g' b hg hp heq => ?_
  cases heq
  exact ⟨hg, hgr g, hp⟩

theorem meets_modify {f : G → G} {Q : Unit → G → Prop} (hQ : D.Stable i (Q ()))
    (h : ∀ g, D.inv g → P g → D.inv (f g) ∧ D.guar i g (f g) ∧ Q () (f g)) :
    Meets D i Q (modify f : Prog G A Unit) P := by
  refine meets_atomic (fun _ => hQ) fun g a g' b hg hp heq => ?_
  cases heq
  exact h g hg hp

/-- A loop keeps what each of its rounds keeps, given what is left to do. -/
theorem meets_forEach {body : β → Prog G A Unit} {I : List β → G → Prop} (xs : List β)
    (h : ∀ x xs, Meets D i (fun _ => I xs) (body x) (I (x :: xs))) :
    Meets D i (fun _ => I []) (forEach xs body) (I xs) := by
  induction xs with
  | nil => exact meets_pure fun _ _ => id
  | cons x xs ih => exact (h x xs).bind fun _ => ih

/-! ## Exceptions -/

/-- One assertion for what is returned, and one for an exception. -/
def Outcome (R : α → G → Prop) (E : G → Prop) : Except ε α → G → Prop
  | .ok a => R a
  | .error _ => E

variable {k : β → ExceptT ε (Prog G A) α} {E : G → Prop} {x : ExceptT ε (Prog G A) β} {R : β → G → Prop}
  {S : α → G → Prop} {T : Except ε α → G → Prop}

theorem Meets.bindE (hx : Meets D i (Outcome R E) x.run P) (hk : ∀ b, Meets D i T (k b).run (R b))
    (hE : ∀ e g, D.inv g → E g → T (.error e) g) : Meets D i T (x >>= k).run P := by
  refine hx.bind fun r => ?_
  rcases r with e | b
  · exact meets_pure (hE e)
  · exact hk b

theorem Meets.lift (h : Meets D i Q p P) (E : G → Prop) :
    Meets D i (Outcome Q E) (ExceptT.lift p : ExceptT ε (Prog G A) α).run P :=
  h.bind fun _ => meets_pure fun _ _ hq => hq

/-- An exception is passed on. -/
theorem Meets.thenE (hx : Meets D i (Outcome R E) x.run P) (hk : ∀ b, Meets D i (Outcome S E) (k b).run (R b)) :
    Meets D i (Outcome S E) (x >>= k).run P :=
  hx.bindE hk fun _ _ _ h => h

/-- Nothing is said of exceptions. -/
theorem Meets.tryE (hx : Meets D i (Outcome R E) x.run P)
    (hk : ∀ b, Meets D i (Outcome S fun _ => True) (k b).run (R b)) :
    Meets D i (Outcome S fun _ => True) (x >>= k).run P :=
  hx.bindE hk fun _ _ _ _ => trivial

/-- There is no exception. -/
theorem Meets.liftE {p : Prog G A β} (hp : Meets D i R p P) (hk : ∀ b, Meets D i T (k b).run (R b)) :
    Meets D i T (ExceptT.lift p >>= k).run P :=
  (hp.lift fun _ => False).bindE hk fun _ _ _ h => h.elim

variable {body : ExceptT ε (Prog G A) α} {lock : ExceptT ε (Prog G A) Unit} {unlock : Prog G A Unit}

/-- What is taken is given back, also after an exception. -/
theorem meets_holding {U : Except ε α → G → Prop} (hlc : Meets D i (Outcome (fun _ => P') E) lock.run P)
    (hbd : Meets D i U body.run P') (hun : ∀ r, Meets D i (fun _ => T r) unlock (U r))
    (hE : ∀ e g, D.inv g → E g → T (.error e) g) :
    Meets D i T (holding lock unlock body).run P :=
  hlc.bindE (fun _ => hbd.bind fun r => (hun r).bind fun _ => meets_pure fun _ _ => id) hE

theorem meets_onError {han : Prog G A Unit} (hbd : Meets D i (Outcome S E) body.run P)
    (hhn : Meets D i (fun _ => E) han E) (hS : ∀ a g, D.inv g → S a g → T (.ok a) g)
    (hE : ∀ e g, D.inv g → E g → T (.error e) g) : Meets D i T (onError body han).run P := by
  refine hbd.bind fun r => ?_
  rcases r with e | a
  · exact hhn.bind fun _ => meets_pure (hE e)
  · exact meets_pure (hS a)

theorem meets_throw {e : ε} (h : ∀ g, D.inv g → P g → T (.error e) g) :
    Meets D i T (throw e : ExceptT ε (Prog G A) α).run P := h

theorem meets_return {a : α} (h : ∀ g, D.inv g → P g → T (.ok a) g) :
    Meets D i T (pure a : ExceptT ε (Prog G A) α).run P := h

/-- A further condition does no harm. -/
theorem Meets.under (h : Meets D i Q p P) (K : G → A → Prop) : Meets (D.under K) i Q p P := by
  induction p generalizing P with
  | ret a => exact h
  | act f k ih =>
    obtain ⟨R, hR, hf, hk⟩ := h
    exact ⟨R, hR, fun g a g' b ha => hf g a g' b ha.1, fun b => ih b (hk b)⟩

/-! ## Programs that stay in a relation -/

section Keeps

variable {R : G → G → Prop}

/-- All actions of the program stay in the relation. -/
def Keeps (R : G → G → Prop) : Prog G A α → Prop
  | ret _ => True
  | act f k => (∀ g a g' b, f g a = some (g', b) → R g g') ∧ ∀ b, (k b).Keeps R

theorem keeps_pure (a : α) : Keeps R (pure a : Prog G A α) := trivial

theorem keeps_atomic (h : ∀ g a g' b, f g a = some (g', b) → R g g') : Keeps R (atomic f) := ⟨h, fun _ => trivial⟩

theorem Keeps.bind {p : Prog G A β} {k : β → Prog G A α} (hp : Keeps R p) (hk : ∀ b, Keeps R (k b)) :
    Keeps R (p >>= k) := by
  change Keeps R (p.bind k)
  induction p with
  | ret b => exact hk b
  | act f k' ih => exact ⟨hp.1, fun b => ih b (hp.2 b)⟩

theorem keeps_forEach {body : β → Prog G A Unit} (h : ∀ x, Keeps R (body x)) (xs : List β) :
    Keeps R (forEach xs body) := by
  induction xs with
  | nil => exact keeps_pure ()
  | cons x xs ih => exact (h x).bind fun _ => ih

theorem Keeps.bindE (hx : Keeps R x.run) (hk : ∀ b, Keeps R (k b).run) : Keeps R (x >>= k).run := by
  refine hx.bind fun r => ?_
  rcases r with e | b
  exacts [keeps_pure _, hk b]

theorem Keeps.lift {p : Prog G A α} (h : Keeps R p) : Keeps R (ExceptT.lift p : ExceptT ε (Prog G A) α).run :=
  h.bind fun _ => keeps_pure _

theorem keeps_holding (hlc : Keeps R lock.run) (hbd : Keeps R body.run) (hun : Keeps R unlock) :
    Keeps R (holding lock unlock body).run :=
  hlc.bindE fun _ => hbd.bind fun _ => hun.bind fun _ => keeps_pure _

/-- If the relation is all that is guaranteed, the program meets the discipline. -/
theorem Keeps.meets {p : Prog G A α} (h : Keeps R p) (hinv : ∀ g, D.inv g) (hgr : ∀ g g', R g g' → D.guar i g g') :
    Meets D i (fun _ _ => True) p fun _ => True := by
  induction p with
  | ret a => exact fun _ _ _ => trivial
  | act f k ih =>
    exact ⟨fun _ _ => True, fun _ => D.stable_const True,
      fun g a g' b _ _ _ heq => ⟨hinv g', hgr g g' (h.1 g a g' b heq), trivial⟩, fun b => ih b (h.2 b)⟩

end Keeps

/-! ## All interleavings -/

section Threads

variable {B : Type} {main : ℕ → B → Prog G A α} {C : B → Prop} {Q : ℕ → B → α → G → Prop}

/-- The calls are of this kind, and the environment decides as it is assumed to. -/
def rule (D : Discipline G A) (C : B → Prop) : Threads.Rule G (B × Prog G A α) B A where
  spawn _ b := C b
  step g i _ a := D.allowed i g a

/-- The same, with a condition that depends on the call. -/
def ruleUnder (D : Discipline G A) (C : B → Prop) (K : B → G → A → Prop) : Threads.Rule G (B × Prog G A α) B A where
  spawn _ b := C b
  step g i l a := D.allowed i g a ∧ K l.1 g a

variable {K : B → G → A → Prop}

/-- What is left of a program goes on from where it is. -/
def Pending (D : Discipline G A) (K : B → G → A → Prop) (Q : ℕ → B → α → G → Prop) (g : G) (i : ℕ)
    (l : B × Prog G A α) : Prop :=
  ∃ P, D.Stable i P ∧ P g ∧ Meets (D.under (K l.1)) i (Q i l.1) l.2 P

theorem outline (hmn : ∀ i b, C b → Meets (D.under (K b)) i (Q i b) (main i b) fun _ => True) :
    (threads main).Outline (ruleUnder D C K) (fun _ => D.inv) (Pending D K Q) where
  spawn {g n b g' l} hg hb h := by
    cases h
    exact ⟨hg, ⟨fun _ => True, D.stable_const True, trivial, hmn n b hb⟩, fun _ _ _ => id⟩
  step {g n i l a g' l'} hg hi hl ha h := by
    obtain ⟨⟨g₁, p⟩, hst, heq⟩ := Option.map_eq_some_iff.1 h
    cases heq
    obtain ⟨b, p₀⟩ := l
    obtain ⟨P, -, hp, hmt⟩ := hl
    cases p₀ with
    | ret x => cases hst
    | act f k =>
      obtain ⟨⟨g₂, y⟩, hf, heq⟩ := Option.map_eq_some_iff.1 hst
      cases heq
      obtain ⟨R, hR, hact, hk⟩ := hmt
      obtain ⟨hg', hgr, hr⟩ := hact g a g₂ y ha hg hp hf
      refine ⟨hg', ⟨R y, hR y, hr, hk y⟩, fun j m hj hm => ?_⟩
      obtain ⟨P', hP', hp', hm⟩ := hm
      exact ⟨P', hP', hP' hj.symm hg hg' hgr hp', hm⟩

variable {acts : List (Threads.Act B A)}

/-- Nothing is assumed but on the calls. -/
theorem along_of_calls (hD : ∀ i g a, D.allowed i g a) (h : ∀ b, .spawn b ∈ acts → C b)
    (s : Threads.Config G (B × Prog G A α)) : (threads main).machine.Along (rule D C).At s acts := by
  induction acts generalizing s with
  | nil => trivial
  | cons act acts ih =>
    refine ⟨?_, fun s' _ => ih (fun b hb => h b (List.mem_cons_of_mem act hb)) s'⟩
    rcases act with b | ⟨i, a⟩
    · exact h b List.mem_cons_self
    · exact fun _ _ => hD i s.shared a

variable {s : Threads.Config G (B × Prog G A α)}

/-- If all calls meet the discipline under a condition of their own, then in every interleaving of them that meets the
    conditions the invariant holds, and those that have returned have their postcondition. -/
theorem run_meets_under (hmn : ∀ i b, C b → Meets (D.under (K b)) i (Q i b) (main i b) fun _ => True) {g : G}
    (hg : D.inv g) (hrl : (threads main).machine.Along (ruleUnder D C K).At ⟨g, []⟩ acts)
    (hrun : (threads main).machine.run ⟨g, []⟩ acts = some s) :
    D.inv s.shared ∧ ∀ i b a, s.locals[i]? = some (b, ret a) → Q i b a s.shared := by
  have hst : Threads.Config.Meets (fun _ => D.inv) (Pending D K Q) ⟨g, ([] : List (B × Prog G A α))⟩ := ⟨hg, nofun⟩
  have hs := (outline hmn).run hst hrl hrun
  refine ⟨hs.shared, fun i b a hl => ?_⟩
  obtain ⟨P, -, hp, hmt⟩ := hs.locals i _ hl
  exact hmt s.shared hs.shared hp

/-- If all calls meet the discipline, then in every interleaving of them the invariant holds, and those that have
    returned have their postcondition. -/
theorem run_meets (hmn : ∀ i b, C b → Meets D i (Q i b) (main i b) fun _ => True) {g : G} (hg : D.inv g)
    (hrl : (threads main).machine.Along (rule D C).At ⟨g, []⟩ acts)
    (hrun : (threads main).machine.run ⟨g, []⟩ acts = some s) :
    D.inv s.shared ∧ ∀ i b a, s.locals[i]? = some (b, ret a) → Q i b a s.shared := by
  refine run_meets_under (K := fun _ _ _ => True) (fun i b hb => (hmn i b hb).under _) hg
    (hrl.mono fun {s a} h => ?_) hrun
  rcases a with b | ⟨i, a⟩
  exacts [h, fun l hl => ⟨h l hl, trivial⟩]

end Threads

end Prog

end Vgi
