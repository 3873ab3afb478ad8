import Mathlib

/-!
# Association lists

Facts on the keys and entries of an `AList` after an insertion or an erasure.
-/

namespace Vgi

open List

variable {κ : Type*} [DecidableEq κ] {β : κ → Type*}

theorem length_keys_insert_le (l : AList β) (a : κ) (b : β a) : (l.insert a b).keys.length ≤ l.keys.length + 1 := by
  rw [AList.keys_insert, length_cons]
  exact Nat.succ_le_succ length_erase_le

/-- What is found after an insertion was inserted, or was there. -/
theorem lookup_insert_eq_some {γ : Type*} {l : AList fun _ : κ => γ} {a k : κ} {b v : γ}
    (h : (l.insert a b).lookup k = some v) : k = a ∧ b = v ∨ k ≠ a ∧ l.lookup k = some v := by
  rcases eq_or_ne k a with rfl | hne
  · exact .inl ⟨rfl, Option.some.inj ((AList.lookup_insert l).symm.trans h)⟩
  · exact .inr ⟨hne, by rwa [AList.lookup_insert_ne hne] at h⟩

theorem lookup_erase_sub {l : AList β} {a k : κ} {v : β k} (h : (l.erase a).lookup k = some v) :
    l.lookup k = some v := by
  rcases eq_or_ne k a with rfl | hne
  · rw [AList.lookup_erase] at h
    cases h
  · rwa [AList.lookup_erase_ne hne] at h

theorem dedupKeys_of_nodupKeys {l : List (Sigma β)} (h : l.NodupKeys) : l.dedupKeys = l := by
  induction l with
  | nil => rfl
  | cons x l ih =>
    rw [dedupKeys_cons, ih (nodupKeys_of_nodupKeys_cons h), kinsert_def,
      kerase_of_notMem_keys (notMem_keys_of_nodupKeys_cons h)]

theorem sum_map_kerase (f : Sigma β → ℕ) {l : List (Sigma β)} {a : κ} {b : β a}
    (h : l.dlookup a = some b) : ((l.kerase a).map f).sum + f ⟨a, b⟩ = (l.map f).sum := by
  induction l with
  | nil => cases h
  | cons x l ih =>
    rcases eq_or_ne a x.1 with rfl | hne
    · rw [dlookup_cons_eq, Option.some_inj] at h
      rw [kerase_cons_eq rfl, map_cons, sum_cons, ← h, Nat.add_comm]
    · rw [dlookup_cons_ne _ _ hne] at h
      rw [kerase_cons_ne hne, map_cons, sum_cons, map_cons, sum_cons, ← ih h, Nat.add_assoc]

end Vgi
