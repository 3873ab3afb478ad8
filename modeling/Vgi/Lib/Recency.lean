import Mathlib

/-!
# Recency lists

A doubly linked list whose nodes keep their address for life, front first,
beside an index from keys to the addresses of the nodes: the usual layout of a
least-recently-used map. The two halves are updated by separate operations
(`erase`, `splice`, `pushFront`, `popBack`), so that nothing but the invariant
`Recency.WF` ties them together: the index maps exactly the keys of the list to
the addresses of their nodes, and no key occurs twice.

What a well-formed recency list *is*, is its list of values (`Recency.vals`),
with distinct keys: each operation is specified by what it does to it.
-/

namespace Vgi

open List

/-- A list node: its address, and the value it holds. -/
structure Node (V : Type*) where
  addr : ℕ
  val : V
  deriving DecidableEq

/-- A list of nodes, and an index from keys to the addresses of nodes. -/
structure Recency (K V : Type*) where
  /-- The nodes, the most recently used first. -/
  lru : List (Node V)
  /-- The address of the node of each key. -/
  index : AList fun _ : K => ℕ
  /-- The next address to be allocated. -/
  fresh : ℕ

namespace Recency

variable {K V : Type*} [DecidableEq K] (r : Recency K V)

/-- Nothing in the list. -/
def empty : Recency K V := ⟨[], ∅, 0⟩

/-- The values, the most recently used first. -/
def vals : List V := r.lru.map Node.val

/-- The node at the address `a`. -/
def deref (a : ℕ) : Option (Node V) := r.lru.find? (·.addr = a)

/-- The node the index holds for the key `k`. -/
def find (k : K) : Option (Node V) := (r.index.lookup k).bind r.deref

/-- Unlink the node at `a` and forget the key `k`. -/
def erase (k : K) (a : ℕ) : Recency K V :=
  { r with lru := r.lru.filter (·.addr ≠ a), index := r.index.erase k }

/-- Move the node `n` of the key `k` to the front, with the value `v`. -/
def splice (k : K) (n : Node V) (v : V) : Recency K V :=
  { r with lru := { n with val := v } :: r.lru.filter (·.addr ≠ n.addr),
           index := r.index.insert k n.addr }

/-- A new node for the key `k` at the front. -/
def pushFront (k : K) (v : V) : Recency K V :=
  { lru := ⟨r.fresh, v⟩ :: r.lru, index := r.index.insert k r.fresh, fresh := r.fresh + 1 }

/-- Unlink the last node, of the key `k`. -/
def popBack (k : K) : Recency K V :=
  { r with lru := r.lru.dropLast, index := r.index.erase k }

/-- The list and the index agree: the index maps exactly the keys of the list
    to the addresses of their nodes, and keys and addresses are distinct. -/
structure WF (key : V → K) (r : Recency K V) : Prop where
  key_nodup : (r.lru.map fun n => key n.val).Nodup
  addr_nodup : (r.lru.map Node.addr).Nodup
  addr_lt : ∀ n ∈ r.lru, n.addr < r.fresh
  index_iff : ∀ k a, r.index.lookup k = some a ↔ ∃ n ∈ r.lru, key n.val = k ∧ n.addr = a

variable {key : V → K} {r : Recency K V}

theorem WF.empty : WF key (empty : Recency K V) where
  key_nodup := by simp [Recency.empty]
  addr_nodup := by simp [Recency.empty]
  addr_lt := by simp [Recency.empty]
  index_iff := by simp [Recency.empty]

/-! ## Nodes -/

variable {n : Node V}

section

variable (h : r.WF key)

include h

/-- Nodes with the same address are the same. -/
theorem WF.eq_of_addr {m : Node V} (hn : n ∈ r.lru) (hm : m ∈ r.lru) (e : n.addr = m.addr) : n = m :=
  inj_on_of_nodup_map h.addr_nodup hn hm e

/-- Nodes with the same key are the same. -/
theorem WF.eq_of_key {m : Node V} (hn : n ∈ r.lru) (hm : m ∈ r.lru) (e : key n.val = key m.val) : n = m :=
  inj_on_of_nodup_map h.key_nodup hn hm e

theorem WF.deref_eq (hn : n ∈ r.lru) : r.deref n.addr = some n := by
  have hs : (r.lru.find? fun m => decide (m.addr = n.addr)).isSome := find?_isSome.2 ⟨n, hn, by simp⟩
  obtain ⟨m, hm⟩ := Option.isSome_iff_exists.1 hs
  have hma : m.addr = n.addr := by simpa using find?_some hm
  rw [deref, hm, h.eq_of_addr (mem_of_find?_eq_some hm) hn hma]

variable {k : K}

/-- What `find` returns: the node of the key. -/
theorem WF.find_eq_some_iff : r.find k = some n ↔ n ∈ r.lru ∧ key n.val = k := by
  constructor
  · intro hf
    obtain ⟨a, ha, hd⟩ := Option.bind_eq_some_iff.1 hf
    obtain ⟨m, hm, hk, rfl⟩ := (h.index_iff k a).1 ha
    rw [h.deref_eq hm, Option.some.injEq] at hd
    exact hd ▸ ⟨hm, hk⟩
  · rintro ⟨hn, hk⟩
    rw [find, (h.index_iff k n.addr).2 ⟨n, hn, hk, rfl⟩, Option.bind_some, h.deref_eq hn]

theorem WF.find_eq_none_iff : r.find k = none ↔ ∀ v ∈ r.vals, key v ≠ k := by
  rw [Option.eq_none_iff_forall_ne_some]
  simp only [ne_eq, h.find_eq_some_iff, vals, mem_map]
  constructor
  · rintro hf _ ⟨n, hn, rfl⟩ hk
    exact hf n ⟨hn, hk⟩
  · rintro hf n ⟨hn, hk⟩
    exact hf n.val ⟨n, hn, rfl⟩ hk

/-- Unlinking the node of a key is dropping the key from the list. -/
theorem WF.filter_addr (hn : n ∈ r.lru) :
    r.lru.filter (·.addr ≠ n.addr) = r.lru.filter fun m => key m.val ≠ key n.val := by
  refine filter_congr fun m hm => ?_
  simp only [ne_eq, decide_not, Bool.not_eq_eq_eq_not, Bool.not_not, decide_eq_decide]
  exact ⟨fun e => by rw [h.eq_of_addr hm hn e], fun e => by rw [h.eq_of_key hm hn e]⟩

theorem WF.vals_nodup : r.vals.Nodup := by
  refine List.Nodup.of_map key ?_
  rw [vals, map_map]
  exact h.key_nodup

/-- The values are that of a node and those of the other keys. -/
theorem WF.vals_perm (hn : n ∈ r.lru) : r.vals.Perm (n.val :: r.vals.filter (key · ≠ key n.val)) := by
  refine (perm_ext_iff_of_nodup h.vals_nodup ?_).2 fun v => ?_
  · exact nodup_cons.2 ⟨by simp, h.vals_nodup.filter _⟩
  simp only [mem_cons, mem_filter, ne_eq, decide_not, Bool.not_eq_eq_eq_not, Bool.not_true, decide_eq_false_iff_not]
  constructor
  · intro hv
    obtain ⟨m, hm, rfl⟩ := mem_map.1 hv
    by_cases e : key m.val = key n.val
    · exact .inl (by rw [h.eq_of_key hm hn e])
    · exact .inr ⟨hv, e⟩
  · rintro (rfl | ⟨hv, _⟩)
    · exact mem_map_of_mem hn
    · exact hv

/-! ## Operations -/

theorem WF.erase (hf : r.find k = some n) : (r.erase k n.addr).WF key := by
  obtain ⟨hn, rfl⟩ := h.find_eq_some_iff.1 hf
  constructor
  · exact (filter_sublist.map _).nodup h.key_nodup
  · exact (filter_sublist.map _).nodup h.addr_nodup
  · exact fun m hm => h.addr_lt m (mem_of_mem_filter hm)
  intro k a
  rw [Recency.erase, h.filter_addr hn]
  simp only [mem_filter, ne_eq, decide_not, Bool.not_eq_eq_eq_not, Bool.not_true, decide_eq_false_iff_not]
  by_cases e : k = key n.val
  · subst e
    simp only [AList.lookup_erase, reduceCtorEq, false_iff]
    rintro ⟨m, ⟨_, hne⟩, he, _⟩
    exact hne he
  · rw [AList.lookup_erase_ne e, h.index_iff]
    constructor
    · rintro ⟨m, hm, hk, ha⟩
      exact ⟨m, ⟨hm, hk ▸ e⟩, hk, ha⟩
    · rintro ⟨m, ⟨hm, _⟩, hk, ha⟩
      exact ⟨m, hm, hk, ha⟩

/-- Erasing a key drops its value. -/
theorem WF.vals_erase (hf : r.find k = some n) : (r.erase k n.addr).vals = r.vals.filter (key · ≠ k) := by
  obtain ⟨hn, rfl⟩ := h.find_eq_some_iff.1 hf
  rw [vals, Recency.erase, h.filter_addr hn, vals, filter_map]
  rfl

theorem WF.pushFront {v : V} (hk : ∀ w ∈ r.vals, key w ≠ key v) : (r.pushFront (key v) v).WF key := by
  have hk' : ∀ n ∈ r.lru, key n.val ≠ key v := fun n hn => hk _ (mem_map_of_mem hn)
  constructor
  · simp only [Recency.pushFront, map_cons, nodup_cons, mem_map, not_exists, not_and]
    exact ⟨hk', h.key_nodup⟩
  · simp only [Recency.pushFront, map_cons, nodup_cons, mem_map, not_exists, not_and]
    exact ⟨fun n hn => Nat.ne_of_lt (h.addr_lt n hn), h.addr_nodup⟩
  · simp only [Recency.pushFront, mem_cons, forall_eq_or_imp]
    exact ⟨Nat.lt_succ_self _, fun n hn => Nat.lt_succ_of_lt (h.addr_lt n hn)⟩
  intro k a
  simp only [Recency.pushFront, mem_cons, exists_eq_or_imp]
  by_cases e : k = key v
  · subst e
    simp only [AList.lookup_insert, Option.some.injEq, true_and]
    exact ⟨.inl, fun h' => h'.elim id fun ⟨n, hn, he, _⟩ => absurd he (hk' n hn)⟩
  · rw [AList.lookup_insert_ne e, h.index_iff]
    exact ⟨.inr, fun h' => h'.elim (fun h'' => absurd h''.1.symm e) id⟩

/-- Moving a node to the front is erasing it and pushing its new value. -/
theorem WF.splice {v : V} (hf : r.find k = some n) (hv : key v = k) : (r.splice k n v).WF key := by
  have he := h.erase hf
  obtain ⟨hn, rfl⟩ := h.find_eq_some_iff.1 hf
  have hk : ∀ m ∈ r.lru.filter (·.addr ≠ n.addr), key m.val ≠ key n.val := by
    rw [h.filter_addr hn]
    exact fun m hm => by simpa using (mem_filter.1 hm).2
  constructor
  · simp only [Recency.splice, map_cons, nodup_cons, mem_map, not_exists, not_and, hv]
    exact ⟨hk, he.key_nodup⟩
  · simp only [Recency.splice, map_cons, nodup_cons, mem_map, not_exists, not_and]
    exact ⟨fun m hm => by simpa using (mem_filter.1 hm).2, he.addr_nodup⟩
  · simp only [Recency.splice, mem_cons, forall_eq_or_imp]
    exact ⟨h.addr_lt n hn, he.addr_lt⟩
  intro k a
  simp only [Recency.splice, mem_cons, exists_eq_or_imp, hv]
  by_cases e : k = key n.val
  · subst e
    simp only [AList.lookup_insert, Option.some.injEq, true_and]
    exact ⟨.inl, fun h' => h'.elim id fun ⟨m, hm, hmk, _⟩ => absurd hmk (hk m hm)⟩
  · have hi := he.index_iff k a
    rw [Recency.erase, AList.lookup_erase_ne e] at hi
    rw [AList.lookup_insert_ne e, hi]
    exact ⟨.inr, fun h' => h'.elim (fun h'' => absurd h''.1.symm e) id⟩

theorem WF.vals_splice (v : V) (hf : r.find k = some n) : (r.splice k n v).vals = v :: r.vals.filter (key · ≠ k) := by
  rw [← h.vals_erase hf]
  rfl

/-- Popping the last node is erasing it. -/
theorem WF.popBack_eq (hn : r.lru.getLast? = some n) : r.popBack (key n.val) = r.erase (key n.val) n.addr := by
  obtain ⟨l, hl⟩ := getLast?_eq_some_iff.1 hn
  have hd := h.addr_nodup
  rw [hl, map_append, nodup_append] at hd
  have hne : ∀ m ∈ l, m.addr ≠ n.addr := fun m hm => hd.2.2 _ (mem_map_of_mem hm) _ (by simp)
  rw [popBack, Recency.erase, hl, dropLast_concat, filter_append]
  congr 1
  rw [filter_eq_self.2 fun m hm => by simpa using hne m hm]
  simp

end

end Recency

end Vgi
