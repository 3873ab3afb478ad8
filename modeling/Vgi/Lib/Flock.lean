import Mathlib

/-!
# Advisory locks on files

A file is locked by one holder exclusively, or by any number of holders together, never both (`Flock.compatible`).
Holders are open files, and have numbers.
-/

namespace Vgi

/-- Who has locked a file. -/
structure Flock where
  exclusive : Option ℕ
  shared : List ℕ
  compatible : exclusive = none ∨ shared = []

namespace Flock

/-- Nobody has locked it. -/
def free : Flock := ⟨none, [], .inl rfl⟩

/-- Lock it exclusively, if nobody has locked it. -/
def lockExclusive (l : Flock) (i : ℕ) : Option Flock :=
  if l.exclusive = none ∧ l.shared = [] then some ⟨some i, [], .inr rfl⟩ else none

/-- Lock it together with others, if nobody has locked it exclusively. -/
def lockShared (l : Flock) (h : ℕ) : Option Flock :=
  if l.exclusive = none then some ⟨none, h :: l.shared, .inl rfl⟩ else none

def unlockExclusive (l : Flock) (i : ℕ) : Flock :=
  if l.exclusive = some i then ⟨none, l.shared, .inl rfl⟩ else l

def unlockShared (l : Flock) (h : ℕ) : Flock where
  exclusive := l.exclusive
  shared := l.shared.filter (· ≠ h)
  compatible := l.compatible.imp_right fun h => by rw [h]; rfl

variable {l l' : Flock} {i j h : ℕ}

theorem exclusive_of_mem_shared (hh : h ∈ l.shared) : l.exclusive = none := by
  rcases l.compatible with hno | hnil
  · exact hno
  · rw [hnil] at hh
    exact absurd hh List.not_mem_nil

theorem lockExclusive_eq (hl : l.lockExclusive i = some l') :
    l.exclusive = none ∧ l.shared = [] ∧ l'.exclusive = some i ∧ l'.shared = [] := by
  rw [lockExclusive] at hl
  split_ifs at hl with hfr
  cases hl
  exact ⟨hfr.1, hfr.2, rfl, rfl⟩

theorem lockShared_eq (hl : l.lockShared h = some l') : l'.exclusive = l.exclusive ∧ l'.shared = h :: l.shared := by
  rw [lockShared] at hl
  split_ifs at hl with hfr
  cases hl
  exact ⟨hfr.symm, rfl⟩

@[simp]
theorem shared_unlockExclusive : (l.unlockExclusive i).shared = l.shared := by
  rw [unlockExclusive]
  split_ifs <;> rfl

/-- Only the holder unlocks. -/
theorem exclusive_unlockExclusive (hj : j ≠ i) (hl : l.exclusive = some j) :
    (l.unlockExclusive i).exclusive = some j := by
  rw [unlockExclusive, if_neg]
  · exact hl
  · rw [hl, Option.some.injEq]
    exact hj

theorem mem_unlockShared : j ∈ (l.unlockShared h).shared ↔ j ∈ l.shared ∧ j ≠ h := by
  rw [unlockShared, List.mem_filter, decide_eq_true_eq]

end Flock

end Vgi
