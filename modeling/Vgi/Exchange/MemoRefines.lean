import Vgi.Exchange.MemoArena
import Vgi.Lib.Assoc
import Vgi.Lib.Machine

/-!
# The memo arena memoises

What the arena is for: a map from keys to the values stored for them (`Memo`). A value is
stored for a key if the key has none, or one that is stale then; a probe finds the values that
are not stale.

* `VgiMemoArena.Layout`: where the rows of the slots are;
* `VgiMemoArena.Refines`: the slots hold the values of the memo, those apart that are stale and
  whose slots were dropped;
* `MemoArena.probe_answers`: in every run, a probe answers from the memo.
-/

namespace Vgi

open List Option Function

variable {ρ : Type*}

/-! ## The memo -/

/-- The value stored for a key. -/
structure MemoValue (ρ : Type*) where
  rows : List ρ
  validatorRef : ℤ
  expiresAt : ℤ
  neverExpires : Bool

def MemoValue.isStale (v : MemoValue ρ) (now : ℤ) : Bool := !v.neverExpires && v.expiresAt ≤ now

theorem MemoValue.isStale_mono {v : MemoValue ρ} {now now' : ℤ} (hle : now ≤ now')
    (h : v.isStale now) : v.isStale now' := by
  simp only [isStale, Bool.and_eq_true, decide_eq_true_eq] at h ⊢
  exact ⟨h.1, h.2.trans hle⟩

/-- The values stored for the keys. -/
abbrev Memo (ρ : Type*) := Bytes → Option (MemoValue ρ)

namespace Memo

/-- The value of a key, if it is not stale. -/
def fresh (m : Memo ρ) (now : ℤ) (key : Bytes) : Option (MemoValue ρ) :=
  (m key).filter fun v => !v.isStale now

/-- Store a value, unless there is one that is not stale. -/
def put (m : Memo ρ) (now : ℤ) (key : Bytes) (v : MemoValue ρ) : Memo ρ :=
  if (m.fresh now key).isSome then m else Function.update m key (some v)

/-- All values are good for their keys. -/
def All (P : Bytes → List ρ → Prop) (m : Memo ρ) : Prop := ∀ key v, m key = some v → P key v.rows

theorem All.put {P : Bytes → List ρ → Prop} {m : Memo ρ} (h : m.All P) (now : ℤ) {key : Bytes} {v : MemoValue ρ}
    (hv : P key v.rows) : (m.put now key v).All P := by
  rw [Memo.put]
  split_ifs
  · exact h
  intro k w hw
  rcases eq_or_ne k key with rfl | hne
  · rw [update_self] at hw
    exact some.inj hw ▸ hv
  · rw [update_of_ne hne] at hw
    exact h k w hw

/-- Store the values of a batch one after the other. -/
def store (now expiresAt : ℤ) (neverExpires : Bool) : Memo ρ → List ArenaStoreSpec → List ρ → Memo ρ
  | m, [], _ => m
  | m, sp :: specs, batch =>
    store now expiresAt neverExpires
      (m.put now sp.key ⟨batch.take sp.length, sp.validatorRef, expiresAt, neverExpires⟩) specs
      (batch.drop sp.length)

/-- The result of a probe at `now` is what the memo has for the keys: a key hits if it has a value
    that is not stale; its validator is that of the value; the rows are those of the values, in
    the order of the keys, and each row names the key it is for. -/
structure Answers (m : Memo ρ) (keys : List Bytes) (now : ℤ) (r : ArenaProbeResult ρ) : Prop where
  hit : r.hit = keys.map fun k => (m.fresh now k).isSome
  validatorRef : r.validatorRef = keys.map fun k => (m.fresh now k).elim (-1) (·.validatorRef)
  rows : r.rows.getD [] = keys.flatMap fun k => (m.fresh now k).elim [] (·.rows)
  parent : r.parent = keys.zipIdx.flatMap fun x =>
    List.replicate ((m.fresh now x.1).elim [] (·.rows)).length x.2
  numHits : r.numHits = keys.countP fun k => (m.fresh now k).isSome

end Memo

/-- The value of a slot with these rows. -/
def VgiMemoSlot.value (s : VgiMemoSlot) (rows : List ρ) : MemoValue ρ :=
  ⟨rows, s.validatorRef, s.expiresAt, s.neverExpires⟩

@[simp] theorem VgiMemoSlot.value_isStale (s : VgiMemoSlot) (rows : List ρ) (now : ℤ) :
    (s.value rows).isStale now = s.isStale now := rfl

/-- The rows of two slots do not overlap. -/
def VgiMemoSlot.Apart (s t : VgiMemoSlot) : Prop :=
  s.rowStart + s.length ≤ t.rowStart ∨ t.rowStart + t.length ≤ s.rowStart

/-- The rows of a slot in a row store. -/
def VgiMemoSlot.rowsIn (s : VgiMemoSlot) (rows : List ρ) : List ρ :=
  (rows.drop s.rowStart).take s.length

variable {s : VgiMemoSlot}

theorem VgiMemoSlot.length_rowsIn {rows : List ρ} (h : s.rowStart + s.length ≤ rows.length) :
    (s.rowsIn rows).length = s.length := by
  rw [rowsIn, length_take, length_drop]
  omega

/-- Rows further on do not change those of a slot. -/
theorem VgiMemoSlot.rowsIn_append {rows : List ρ} (h : s.rowStart + s.length ≤ rows.length) (more : List ρ) :
    s.rowsIn (rows ++ more) = s.rowsIn rows := by
  rw [rowsIn, rowsIn, drop_append_of_le_length (by omega), take_append_of_le_length]
  rw [length_drop]
  omega

namespace VgiMemoArena

/-- The rows of the slots are inside of base and tail, each slot on one side, and no two of them
    overlap. What is not dead belongs to a slot. -/
structure Layout (a : VgiMemoArena ρ) : Prop where
  baseRows_eq : a.baseRows = a.base.length
  tailRows_eq : a.tailRows = a.tail.length
  inside : ∀ x ∈ a.slots.entries, x.2.rowStart + x.2.length ≤ a.baseRows + a.tailRows
  side : ∀ x ∈ a.slots.entries,
    x.2.rowStart + x.2.length ≤ a.baseRows ∨ a.baseRows ≤ x.2.rowStart
  apart : a.slots.entries.Pairwise fun x y => x.2.Apart y.2
  dead : a.deadRows + (a.slots.entries.map (·.2.length)).sum = a.baseRows + a.tailRows

/-- The slots hold the values of the memo. What has no slot is stale. -/
structure Refines (a : VgiMemoArena ρ) (m : Memo ρ) (clock : ℤ) : Prop extends Layout a where
  value : ∀ x ∈ a.slots.entries, m x.1 = some (x.2.value (x.2.rowsIn (a.base ++ a.tail)))
  gone : ∀ k v, a.slots.lookup k = none → m k = some v → v.isStale clock

/-! ## Rows -/

variable {a : VgiMemoArena ρ}

/-- Rows are gathered in the order of the offsets, from base and tail. -/
theorem exists_materializeLocked (hbase : a.baseRows = a.base.length)
    {logical : List ℕ} (hin : ∀ l ∈ logical, l < a.base.length + a.tail.length) :
    ∃ rows, a.materializeLocked logical = some rows ∧ rows.map some = logical.map ((a.base ++ a.tail)[·]?) := by
  have hbs l (h : l < a.baseRows) : a.base[l]? = (a.base ++ a.tail)[l]? := by
    rw [getElem?_append_left (hbase ▸ h)]
  have htl l (h : ¬l < a.baseRows) : a.tail[l - a.baseRows]? = (a.base ++ a.tail)[l]? := by
    rw [hbase, getElem?_append_right (by omega)]
  have hsm l (h : l ∈ logical) : ((a.base ++ a.tail)[l]?).isSome := by
    rw [getElem?_eq_getElem (by rw [length_append]; exact hin l h)]
    rfl
  rw [materializeLocked]
  split_ifs with hall
  · obtain ⟨rows, hrw⟩ := exists_map_some hsm
    refine ⟨rows, takeRows_eq_some.2 ?_, hrw⟩
    rw [hrw]
    exact map_congr_left fun l hl => hbs l (by simpa using List.all_eq_true.1 hall l hl)
  · -- the two takes, each of offsets with their places in the output
    let inBase := logical.zipIdx.filter fun x => decide (x.1 < a.baseRows)
    let inTail := logical.zipIdx.filter fun x => !decide (x.1 < a.baseRows)
    have hpr : (inBase ++ inTail).Perm logical.zipIdx := filter_append_perm _ _
    have hmem x (hx : x ∈ logical.zipIdx) : ((a.base ++ a.tail)[x.1]?).isSome := hsm x.1 (fst_mem_of_mem_zipIdx hx)
    obtain ⟨baseRows, hbsr⟩ := exists_map_some fun x hx => hmem x (mem_of_mem_filter hx)
    obtain ⟨tailRows, htlr⟩ := exists_map_some fun x hx => hmem x (mem_of_mem_filter hx)
    have htk : takeRows a.base (inBase.map (·.1)) = some baseRows := by
      rw [takeRows_eq_some, hbsr, List.map_map]
      exact map_congr_left fun x hx => hbs x.1 (by simpa using of_mem_filter hx)
    have htk' : takeRows a.tail (inTail.map (·.1 - a.baseRows)) = some tailRows := by
      rw [takeRows_eq_some, htlr, List.map_map]
      exact map_congr_left fun x hx => htl x.1 (by simpa using of_mem_filter hx)
    have hbt : (baseRows ++ tailRows).map some = (inBase ++ inTail).map fun x => (a.base ++ a.tail)[x.1]? := by
      rw [map_append, hbsr, htlr, map_append]
    obtain ⟨rows, hrw, hmap⟩ := takeRows_placeAt hpr hbt
    refine ⟨rows, ?_, hmap⟩
    rw [map_append, placeAt_append, length_map, Nat.zero_add] at hrw
    simp only [bind_eq_bind]
    rw [htk, bind_some, htk', bind_some, hrw]

/-- The rows of slots are gathered slot by slot. -/
theorem materializeLocked_slots (hbase : a.baseRows = a.base.length) (htl : a.tailRows = a.tail.length)
    {slots : List VgiMemoSlot} (hin : ∀ s ∈ slots, s.rowStart + s.length ≤ a.baseRows + a.tailRows) :
    a.materializeLocked (slots.flatMap (·.logical)) = some (slots.flatMap (·.rowsIn (a.base ++ a.tail))) := by
  have hlen : (a.base ++ a.tail).length = a.baseRows + a.tailRows := by
    rw [length_append, hbase, htl]
  have hlg : ∀ l ∈ slots.flatMap (·.logical), l < a.base.length + a.tail.length := by
    intro l hl
    obtain ⟨s, hs, hl⟩ := mem_flatMap.1 hl
    have := hin s hs
    have := (mem_range'_1.1 hl).2
    omega
  obtain ⟨rows, hrw, hmap⟩ := exists_materializeLocked hbase hlg
  rw [hrw, some_inj]
  refine (map_injective_iff.2 (some_injective ρ)) ?_
  rw [hmap, map_flatMap, map_flatMap]
  refine flatMap_congr fun s hs => ?_
  exact map_range'_getElem? (by rw [hlen]; exact hin s hs)

/-! ## Probe -/

/-- The slot of a key, if it is not stale. -/
def freshSlot (a : VgiMemoArena ρ) (now : ℤ) (key : Bytes) : Option VgiMemoSlot :=
  (a.slots.lookup key).filter fun s => !s.isStale now

variable {clock now : ℤ} {m : Memo ρ}

theorem Layout.length_rows (h : a.Layout) : (a.base ++ a.tail).length = a.baseRows + a.tailRows := by
  rw [length_append, h.baseRows_eq, h.tailRows_eq]

theorem freshSlot_value (h : a.Refines m clock) (hle : clock ≤ now) (key : Bytes) :
    m.fresh now key = (a.freshSlot now key).map fun s => s.value (s.rowsIn (a.base ++ a.tail)) := by
  rw [Memo.fresh, freshSlot]
  rcases hs : a.slots.lookup key with _ | s
  · rcases hv : m key with _ | v
    · rfl
    · have hst := MemoValue.isStale_mono hle (h.gone key v hs hv)
      simp [filter_some, hst]
  · rw [h.value ⟨key, s⟩ (AList.mem_lookup_iff.1 hs)]
    rcases hst : s.isStale now with _ | _ <;> simp [filter_some, hst]

/-- What the probe of the keys, of the indices from `i` on, adds to where it stands. -/
structure Probed (a : VgiMemoArena ρ) (now : ℤ) (keys : List Bytes) (i : ℕ) (st st' : ProbeLoop ρ) :
    Prop where
  hit : st'.r.hit = st.r.hit ++ keys.map fun k => (a.freshSlot now k).isSome
  validatorRef : st'.r.validatorRef =
    st.r.validatorRef ++ keys.map fun k => (a.freshSlot now k).elim (-1) (·.validatorRef)
  logical : st'.logical = st.logical ++ (keys.filterMap (a.freshSlot now)).flatMap (·.logical)
  parent : st'.parent = st.parent ++ (keys.zipIdx i).flatMap fun x =>
    List.replicate ((a.freshSlot now x.1).elim 0 (·.length)) x.2
  numHits : st'.r.numHits = st.r.numHits + keys.countP fun k => (a.freshSlot now k).isSome
  rows : st'.r.rows = st.r.rows
  rparent : st'.r.parent = st.r.parent

theorem foldl_probeKey (a : VgiMemoArena ρ) (now : ℤ) (keys : List Bytes) (i : ℕ) (st : ProbeLoop ρ) :
    a.Probed now keys i st ((keys.zipIdx i).foldl (fun st x => a.probeKey now st x.1 x.2) st) := by
  induction keys generalizing st i with
  | nil => constructor <;> simp
  | cons k keys ih =>
    have hrs := ih (i + 1) (a.probeKey now st k i)
    -- one key, then the others
    refine ⟨hrs.hit.trans ?_, hrs.validatorRef.trans ?_, hrs.logical.trans ?_,
      hrs.parent.trans ?_, hrs.numHits.trans ?_, hrs.rows.trans ?_, hrs.rparent.trans ?_⟩
    all_goals
      rw [probeKey]
      rcases hs : a.slots.lookup k with _ | s
      · simp [freshSlot, hs]
      · rcases hst : s.isStale now with _ | _ <;> simp [freshSlot, hs, filter_some, hst, Nat.add_assoc, Nat.add_comm 1]

variable {key : Bytes}

theorem freshSlot_mem (h : a.freshSlot now key = some s) : ⟨key, s⟩ ∈ a.slots.entries :=
  AList.mem_lookup_iff.1 (eq_some_of_filter_eq_some h)

section

variable (h : a.Refines m clock) (hle : clock ≤ now)

include h hle

theorem Refines.rows_fresh (keys : List Bytes) :
    (keys.filterMap (a.freshSlot now)).flatMap (·.rowsIn (a.base ++ a.tail)) =
      keys.flatMap fun k => (m.fresh now k).elim [] (·.rows) := by
  induction keys with
  | nil => rfl
  | cons k keys ih =>
    rw [flatMap_cons, ← ih, freshSlot_value h hle]
    rcases hs : a.freshSlot now k with _ | s <;> simp [hs, VgiMemoSlot.value]

theorem Refines.length_fresh (k : Bytes) :
    (a.freshSlot now k).elim 0 (·.length) = ((m.fresh now k).elim [] (·.rows)).length := by
  rw [freshSlot_value h hle]
  rcases hs : a.freshSlot now k with _ | s
  · rfl
  · refine (VgiMemoSlot.length_rowsIn ?_).symm
    rw [h.length_rows]
    exact h.inside ⟨k, s⟩ (freshSlot_mem hs)

/-- A probe answers from the memo. -/
theorem Refines.probe (keys : List Bytes) : ∃ r, a.probe keys now = some r ∧ m.Answers keys now r := by
  have hlp : a.Probed now keys 0 {} (a.probeKeys now keys) := foldl_probeKey a now keys 0 {}
  have hmt : a.materializeLocked (a.probeKeys now keys).logical =
      some (keys.flatMap fun k => (m.fresh now k).elim [] (·.rows)) := by
    rw [hlp.logical, nil_append, ← h.rows_fresh hle]
    refine materializeLocked_slots h.baseRows_eq h.tailRows_eq fun s hs => ?_
    obtain ⟨k, -, hk⟩ := mem_filterMap.1 hs
    exact h.inside ⟨k, s⟩ (freshSlot_mem hk)
  have hpar : (a.probeKeys now keys).parent = keys.zipIdx.flatMap fun x =>
      List.replicate ((m.fresh now x.1).elim [] (·.rows)).length x.2 := by
    rw [hlp.parent, nil_append]
    exact flatMap_congr fun x _ => by rw [h.length_fresh hle]
  have hfr k : (a.freshSlot now k).isSome = (m.fresh now k).isSome := by
    rw [freshSlot_value h hle, isSome_map]
  have hhit : (a.probeKeys now keys).r.hit = keys.map fun k => (m.fresh now k).isSome := by
    simp only [hlp.hit, hfr, nil_append]
  have hrf : (a.probeKeys now keys).r.validatorRef = keys.map fun k => (m.fresh now k).elim (-1) (·.validatorRef) := by
    rw [hlp.validatorRef, nil_append]
    refine map_congr_left fun k _ => ?_
    rw [freshSlot_value h hle]
    rcases a.freshSlot now k with _ | s <;> rfl
  have hnm : (a.probeKeys now keys).r.numHits = keys.countP fun k => (m.fresh now k).isSome := by
    simp only [hlp.numHits, hfr, Nat.zero_add]
  rw [VgiMemoArena.probe]
  by_cases hem : (a.probeKeys now keys).logical = []
  · -- nothing to gather: all hits are negative memos
    have hnil : keys.flatMap (fun k => (m.fresh now k).elim [] (·.rows)) = [] := by
      rw [hem] at hmt
      exact (some_inj.1 hmt).symm
    refine ⟨(a.probeKeys now keys).r, by simp [hem], hhit, hrf, ?_, ?_, hnm⟩
    · rw [hlp.rows, hnil]
      rfl
    · rw [hlp.rparent, eq_comm, flatMap_eq_nil_iff]
      intro x hx
      rw [flatMap_eq_nil_iff.1 hnil x.1 (fst_mem_of_mem_zipIdx hx)]
      rfl
  · refine ⟨{ (a.probeKeys now keys).r with
        rows := some (keys.flatMap fun k => (m.fresh now k).elim [] (·.rows))
        parent := (a.probeKeys now keys).parent }, ?_, hhit, hrf, rfl, hpar, hnm⟩
    simp [hem, hmt]

end

/-! ## Compaction -/

/-- The slots of the rebuilt base are those that were kept, one after the other. -/
theorem rebase_spec (cursor : ℕ) (kept : List (Sigma fun _ : Bytes => VgiMemoSlot)) :
    (rebase cursor kept).keys = kept.keys ∧
    ((rebase cursor kept).map (·.2.length)) = kept.map (·.2.length) ∧
    (rebase cursor kept).Pairwise (fun x y => x.2.rowStart + x.2.length ≤ y.2.rowStart) ∧
    ∀ x ∈ rebase cursor kept, cursor ≤ x.2.rowStart ∧
      x.2.rowStart + x.2.length ≤ cursor + (kept.map (·.2.length)).sum := by
  induction kept generalizing cursor with
  | nil => simp [rebase]
  | cons x kept ih =>
    obtain ⟨hks, hln, hpr, hin⟩ := ih (cursor + x.2.length)
    refine ⟨?_, ?_, ?_, ?_⟩
    · rw [rebase, keys_cons, hks, keys_cons]
    · rw [rebase, map_cons, hln, map_cons]
    · exact pairwise_cons.2 ⟨fun y hy => (hin y hy).1, hpr⟩
    intro y hy
    rw [map_cons, sum_cons]
    rcases mem_cons.1 hy with rfl | hy
    · exact ⟨le_refl _, by simp⟩
    · have := hin y hy
      omega

variable {rows : List ρ}

/-- A rebased slot has the rows it had. -/
theorem rowsIn_rebase {kept : List (Sigma fun _ : Bytes => VgiMemoSlot)}
    (hin : ∀ x ∈ kept, x.2.rowStart + x.2.length ≤ rows.length) (before : List ρ)
    {x : Sigma fun _ : Bytes => VgiMemoSlot} (hx : x ∈ rebase before.length kept) :
    ∃ s, ⟨x.1, s⟩ ∈ kept ∧ x.2 = { s with rowStart := x.2.rowStart } ∧
      x.2.rowsIn (before ++ kept.flatMap (·.2.rowsIn rows)) = s.rowsIn rows := by
  induction kept generalizing before with
  | nil => cases hx
  | cons y kept ih =>
    have hlen : (y.2.rowsIn rows).length = y.2.length := VgiMemoSlot.length_rowsIn (hin y mem_cons_self)
    rw [flatMap_cons]
    rcases mem_cons.1 hx with rfl | hx
    · refine ⟨y.2, mem_cons_self, rfl, ?_⟩
      rw [VgiMemoSlot.rowsIn]
      rw [drop_left, take_left' hlen]
    · rw [← hlen, ← length_append] at hx
      obtain ⟨s, hs, heq, hrw⟩ := ih (fun z hz => hin z (mem_cons_of_mem y hz)) _ hx
      exact ⟨s, mem_cons_of_mem y hs, heq, by rw [← append_assoc, hrw]⟩

/-- A compaction succeeds, and drops what is stale by then. -/
theorem Refines.compactLocked (h : a.Refines m clock) (hle : clock ≤ now) (order : VisitOrder) :
    ∃ a', a.compactLocked order now = some a' ∧ a'.validators = a.validators ∧ a'.Refines m now := by
  have hlen := h.length_rows
  obtain ⟨kept, hkp⟩ : ∃ kept, kept = (order.visit a.slots.entries).filter fun x => !x.2.isStale now := ⟨_, rfl⟩
  have hmem (x : Sigma fun _ : Bytes => VgiMemoSlot) : x ∈ kept ↔ x ∈ a.slots.entries ∧ x.2.isStale now = false := by
    rw [hkp, mem_filter, (order.visit_perm _).mem_iff, Bool.not_eq_true']
  have hin : ∀ x ∈ kept, x.2.rowStart + x.2.length ≤ (a.base ++ a.tail).length := fun x hx =>
    hlen ▸ h.inside x ((hmem x).1 hx).1
  have hnd : kept.NodupKeys := by
    rw [hkp]
    exact List.NodupKeys.sublist filter_sublist ((perm_nodupKeys (order.visit_perm _)).2 a.slots.nodupKeys)
  obtain ⟨hks, hln, hpr, hins⟩ := rebase_spec 0 kept
  have hen : (rebase 0 kept).toAList.entries = rebase 0 kept := by
    exact dedupKeys_of_nodupKeys (by rw [List.NodupKeys, hks]; exact hnd)
  have hkpt : ∀ s ∈ kept.map (·.2), s.rowStart + s.length ≤ a.baseRows + a.tailRows := by
    intro s hs
    obtain ⟨x, hx, rfl⟩ := List.mem_map.1 hs
    exact hlen ▸ hin x hx
  have hmt := materializeLocked_slots h.baseRows_eq h.tailRows_eq hkpt
  rw [flatMap_map, flatMap_map] at hmt
  have hbase : (kept.flatMap (·.2.rowsIn (a.base ++ a.tail))).length = (kept.map (·.2.length)).sum := by
    rw [length_flatMap]
    exact congrArg List.sum (map_congr_left fun x hx => VgiMemoSlot.length_rowsIn (hin x hx))
  rw [VgiMemoArena.compactLocked, ← hkp, hmt]
  refine ⟨_, rfl, rfl, ?_⟩
  have hins' (x) (hx : x ∈ (rebase 0 kept).toAList.entries) :
      x.2.rowStart + x.2.length ≤ (kept.map (·.2.length)).sum :=
    (hins x (hen ▸ hx)).2.trans_eq (Nat.zero_add _)
  refine ⟨⟨hbase.symm, rfl, hins', fun x hx => .inl (hins' x hx), ?_, ?_⟩, ?_, ?_⟩
  · rw [hen]
    exact hpr.imp fun hxy => .inl hxy
  · rw [hen, hln]
    dsimp only
    omega
  · intro x hx
    rw [hen] at hx
    obtain ⟨s, hs, heq, hrw⟩ := rowsIn_rebase hin [] hx
    rw [nil_append] at hrw
    rw [h.value ⟨x.1, s⟩ ((hmem _).1 hs).1, append_nil]
    rw [hrw, heq]
    rfl
  · -- a key without a slot had a stale one, or none
    intro k v hk hv
    rcases hs : a.slots.lookup k with _ | s
    · exact MemoValue.isStale_mono hle (h.gone k v hs hv)
    have hent := AList.mem_lookup_iff.1 hs
    rw [h.value ⟨k, s⟩ hent] at hv
    cases hv
    by_contra hfr
    have hk' : k ∈ (rebase 0 kept).keys := hks ▸ mem_keys_of_mem ((hmem ⟨k, s⟩).2 ⟨hent, by simpa using hfr⟩)
    rw [AList.lookup_to_alist] at hk
    exact dlookup_eq_none.1 hk hk'

/-! ## Store -/

/-- The invariant of a store whose rows begin at `batchBase` of the row store `rows`. -/
structure Storing (rows : List ρ) (baseRows batchBase : ℕ) (m : Memo ρ) (now : ℤ) (st : StoreLoop) :
    Prop where
  inside : ∀ x ∈ st.slots.entries, x.2.rowStart + x.2.length ≤ batchBase + st.off
  side : ∀ x ∈ st.slots.entries, x.2.rowStart + x.2.length ≤ baseRows ∨ baseRows ≤ x.2.rowStart
  apart : st.slots.entries.Pairwise fun x y => x.2.Apart y.2
  dead : st.deadRows + st.newDead + (st.slots.entries.map (·.2.length)).sum = batchBase + st.off
  value : ∀ x ∈ st.slots.entries, m x.1 = some (x.2.value (x.2.rowsIn rows))
  gone : ∀ k v, st.slots.lookup k = none → m k = some v → v.isStale now

variable {baseRows batchBase : ℕ} {st : StoreLoop}

section

variable (h : Storing rows baseRows batchBase m now st)

include h

/-- Take the next value of the batch, without a slot for it. -/
theorem Storing.skip (n : ℕ) :
    Storing rows baseRows batchBase m now { st with off := st.off + n, newDead := st.newDead + n } where
  inside x hx := (h.inside x hx).trans (by dsimp only; omega)
  __ := h
  dead := by
    have := h.dead
    dsimp only
    omega

/-- Drop a stale slot. -/
theorem Storing.erase {old : VgiMemoSlot} (hold : st.slots.lookup key = some old) (hst : old.isStale now) :
    Storing rows baseRows batchBase m now
      { st with deadRows := st.deadRows + old.length, slots := st.slots.erase key } := by
  have hsub : (st.slots.erase key).entries.Sublist st.slots.entries := kerase_sublist _ _
  refine ⟨fun x hx => h.inside x (hsub.subset hx), fun x hx => h.side x (hsub.subset hx),
    h.apart.sublist hsub, ?_, fun x hx => h.value x (hsub.subset hx), ?_⟩
  · have hsum := sum_map_kerase (fun x => x.2.length) hold
    have hde := h.dead
    dsimp only at hsum
    change st.deadRows + old.length + st.newDead +
      ((List.kerase key st.slots.entries).map (·.2.length)).sum = batchBase + st.off
    omega
  · intro k v hk hv
    rcases eq_or_ne k key with rfl | hne
    · rw [h.value ⟨k, old⟩ (AList.mem_lookup_iff.1 hold)] at hv
      cases hv
      exact hst
    · rw [AList.lookup_erase_ne hne] at hk
      exact h.gone k v hk hv

/-- Give a key without a slot the next rows of the batch. -/
theorem Storing.insert (hbase : baseRows ≤ batchBase)
    (hkey : st.slots.lookup key = none) (hst : s.rowStart = batchBase + st.off) :
    Storing rows baseRows batchBase (m.put now key (s.value (s.rowsIn rows))) now
      { st with off := st.off + s.length, slots := st.slots.insert key s } := by
  have hput : m.put now key (s.value (s.rowsIn rows)) = Function.update m key (some (s.value (s.rowsIn rows))) := by
    refine if_neg fun hfr => ?_
    obtain ⟨v, hv⟩ := isSome_iff_exists.1 hfr
    have hstl := h.gone key v hkey (eq_some_of_filter_eq_some hv)
    have := filter_eq_some_iff.1 hv
    simp [hstl] at this
  have hen : (st.slots.insert key s).entries = ⟨key, s⟩ :: st.slots.entries := by
    rw [AList.entries_insert_of_notMem (AList.lookup_eq_none.1 hkey)]
  have hne : ∀ x ∈ st.slots.entries, x.1 ≠ key := by
    rintro x hx rfl
    exact AList.lookup_eq_none.1 hkey (mem_keys_of_mem hx)
  rw [hput]
  refine ⟨?_, ?_, ?_, ?_, ?_, ?_⟩
  · intro x hx
    rcases mem_cons.1 (hen ▸ hx) with rfl | hx
    · dsimp only
      omega
    · exact (h.inside x hx).trans (by dsimp only; omega)
  · intro x hx
    rcases mem_cons.1 (hen ▸ hx) with rfl | hx
    · exact .inr (by dsimp only; omega)
    · exact h.side x hx
  · rw [hen]
    exact pairwise_cons.2 ⟨fun x hx => .inr (hst ▸ h.inside x hx), h.apart⟩
  · have := h.dead
    rw [hen, map_cons, sum_cons]
    dsimp only
    omega
  · intro x hx
    rcases mem_cons.1 (hen ▸ hx) with rfl | hx
    · exact update_self ..
    · rw [update_of_ne (hne x hx), h.value x hx]
  · intro k v hk hv
    obtain ⟨hne, hk⟩ := AList.lookup_insert_eq_none.1 hk
    rw [update_of_ne hne] at hv
    exact h.gone k v hk hv

end

variable {expiresAt : ℤ} {neverExpires : Bool}

theorem StoreLoop.off_store (sp : ArenaStoreSpec) :
    (st.store now expiresAt neverExpires batchBase sp).off = st.off + sp.length := by
  have hpb (st : StoreLoop) s : (st.publish sp.key s).off = st.off := by
    rw [publish]
    split_ifs <;> rfl
  rw [store]
  rcases st.slots.lookup sp.key with _ | old
  · exact hpb _ _
  · dsimp only
    split_ifs
    exacts [hpb _ _, rfl]

theorem StoreLoop.off_foldl (specs : List ArenaStoreSpec) :
    (specs.foldl (store now expiresAt neverExpires batchBase) st).off = st.off + (specs.map (·.length)).sum := by
  induction specs generalizing st with
  | nil => rfl
  | cons sp specs ih => rw [foldl_cons, ih, off_store, map_cons, sum_cons, Nat.add_assoc]

variable {K : Finset Bytes}

/-- There is place for a key that is among the few keys `K`, if the slots are for such keys. -/
theorem length_lt_of_keys_subset {slots : MemoSlots} (hK : K.card ≤ kMaxSlots) (hsub : ∀ k ∈ slots.keys, k ∈ K)
    (hkey : key ∈ K) (hno : slots.lookup key = none) : slots.entries.length < kMaxSlots := by
  have hcr : slots.keys.toFinset.card = slots.entries.length := by
    rw [toFinset_card_of_nodup (AList.keys_nodup slots), AList.keys, List.keys, length_map]
  have hlt : slots.keys.toFinset ⊂ K := by
    refine Finset.ssubset_iff_subset_ne.2 ⟨fun k hk => hsub k (List.mem_toFinset.1 hk), ?_⟩
    rintro rfl
    exact AList.lookup_eq_none.1 hno (List.mem_toFinset.1 hkey)
  exact hcr ▸ (Finset.card_lt_card hlt).trans_le hK

section

variable (h : Storing rows baseRows batchBase m now st) (hbase : baseRows ≤ batchBase) (hK : K.card ≤ kMaxSlots)
  (hsub : ∀ k ∈ st.slots.keys, k ∈ K)

include h hbase hK hsub

/-- A value of the batch is stored as in the memo, if there is place for it. -/
theorem Storing.store {sp : ArenaStoreSpec} (hkey : sp.key ∈ K) :
    Storing rows baseRows batchBase
      (m.put now sp.key ⟨(rows.drop (batchBase + st.off)).take sp.length, sp.validatorRef, expiresAt,
        neverExpires⟩) now (st.store now expiresAt neverExpires batchBase sp) ∧
    ∀ k ∈ (st.store now expiresAt neverExpires batchBase sp).slots.keys, k ∈ K := by
  let s : VgiMemoSlot := ⟨batchBase + st.off, sp.length, sp.validatorRef, expiresAt, neverExpires⟩
  have hin {slots : MemoSlots} (hsl : ∀ k ∈ slots.keys, k ∈ K) : ∀ k ∈ (slots.insert sp.key s).keys, k ∈ K := by
    intro k hk
    rcases (AList.mem_insert slots).1 hk with rfl | hk
    · exact hkey
    · exact hsl k hk
  rw [StoreLoop.store]
  rcases hold : st.slots.lookup sp.key with _ | old
  · -- a key without a slot
    rw [StoreLoop.publish, if_neg (Nat.not_le.2 (length_lt_of_keys_subset hK hsub hkey hold))]
    exact ⟨h.insert hbase hold (s := s) rfl, hin hsub⟩
  dsimp only
  rcases hst : old.isStale now with _ | _
  · -- a key with a slot that is not stale
    refine ⟨?_, hsub⟩
    have hfr : (m.fresh now sp.key).isSome := by
      rw [Memo.fresh, h.value ⟨sp.key, old⟩ (AList.mem_lookup_iff.1 hold), filter_some]
      simp [hst]
    rw [Memo.put, if_pos hfr]
    exact h.skip sp.length
  · -- a key with a stale slot
    rw [if_pos rfl, StoreLoop.publish]
    have her : ∀ k ∈ (st.slots.erase sp.key).keys, k ∈ K := fun k hk => hsub k (kerase_keys_subset _ _ hk)
    rw [if_neg (Nat.not_le.2 (length_lt_of_keys_subset hK her hkey (AList.lookup_erase _ _)))]
    exact ⟨(h.erase hold hst).insert hbase (AList.lookup_erase _ _) (s := s) rfl, hin her⟩

variable {specs : List ArenaStoreSpec}

/-- The values of a batch are stored as in the memo. -/
theorem Storing.foldl (hspc : ∀ sp ∈ specs, sp.key ∈ K) (expiresAt : ℤ) (neverExpires : Bool) :
    Storing rows baseRows batchBase (m.store now expiresAt neverExpires specs (rows.drop (batchBase + st.off))) now
      (specs.foldl (StoreLoop.store now expiresAt neverExpires batchBase) st) := by
  induction specs generalizing m st with
  | nil => exact h
  | cons sp specs ih =>
    obtain ⟨hst, hks⟩ := h.store hbase hK hsub (hspc sp mem_cons_self)
    have hof : (st.store now expiresAt neverExpires batchBase sp).off = _ := StoreLoop.off_store sp
    rw [Memo.store, drop_drop, Nat.add_assoc, ← hof]
    exact ih hst hks fun sp' hsp' => hspc sp' (mem_cons_of_mem sp hsp')

end

/-- The keys that have slots after a store are not too many. -/
abbrev WithinCap (a : VgiMemoArena ρ) (specs : List ArenaStoreSpec) : Prop :=
  (a.slots.keys ++ specs.map (·.key)).toFinset.card ≤ kMaxSlots

section

variable (h : a.Refines m clock)

include h

/-- The invariant holds when a store begins. -/
theorem Refines.storing (hle : clock ≤ now) (batch : List ρ) :
    Storing (a.base ++ a.tail ++ batch) a.baseRows (a.baseRows + a.tailRows) m now
      { slots := a.slots, deadRows := a.deadRows } := by
  refine { h with value := fun x hx => ?_, gone := fun k v hk hv => ?_ }
  · have hx' : x.2.rowStart + x.2.length ≤ (a.base ++ a.tail).length := by
      rw [h.length_rows]
      exact h.inside x hx
    rw [h.value x hx, VgiMemoSlot.rowsIn_append hx']
  · exact MemoValue.isStale_mono hle (h.gone k v hk hv)

variable {batch : List ρ}

/-- With the invariant at the end of a store, the arena refines the memo of then. -/
theorem Refines.append_of_storing {m' : Memo ρ} (hrw : batch.length = (specs.map (·.length)).sum)
    (hend : Storing (a.base ++ a.tail ++ batch) a.baseRows (a.baseRows + a.tailRows) m' now
      (specs.foldl (StoreLoop.store now expiresAt neverExpires (a.baseRows + a.tailRows))
        { slots := a.slots, deadRows := a.deadRows })) :
    (a.append batch specs now expiresAt neverExpires).Refines m' now := by
  have hbt : a.baseRows + (a.tailRows + batch.length - batch.length) = a.baseRows + a.tailRows := by
    rw [Nat.add_sub_cancel]
  rw [VgiMemoArena.append, hbt]
  refine ⟨⟨h.baseRows_eq, by rw [length_append, h.tailRows_eq], ?_, hend.side, hend.apart, ?_⟩, ?_, hend.gone⟩
  · intro x hx
    have hin := hend.inside x hx
    rwa [StoreLoop.off_foldl, Nat.zero_add, ← hrw, Nat.add_assoc] at hin
  · have hde := hend.dead
    rwa [StoreLoop.off_foldl, Nat.zero_add, ← hrw, Nat.add_assoc a.baseRows] at hde
  · rw [← append_assoc]
    exact hend.value

theorem Refines.append (hle : clock ≤ now) (hrw : batch.length = (specs.map (·.length)).sum)
    (hcap : a.WithinCap specs) (expiresAt : ℤ) (neverExpires : Bool) :
    (a.append batch specs now expiresAt neverExpires).Refines (m.store now expiresAt neverExpires specs batch) now := by
  have hspc : ∀ sp ∈ specs, sp.key ∈ (a.slots.keys ++ specs.map (·.key)).toFinset := fun sp hsp =>
    List.mem_toFinset.2 (mem_append_right _ (List.mem_map_of_mem hsp))
  have hend := (h.storing hle batch).foldl (Nat.le_add_right _ _) hcap
    (fun k hk => List.mem_toFinset.2 (mem_append_left _ hk)) hspc expiresAt neverExpires
  rw [Nat.add_zero, ← h.length_rows, drop_left, h.length_rows] at hend
  exact h.append_of_storing hrw hend

/-- A store succeeds, and stores the values of the batch as in the memo. -/
theorem Refines.store (hle : clock ≤ now) (order : VisitOrder)
    (hrw : batch.length = (specs.map (·.length)).sum) (hcap : a.WithinCap specs) (expiresAt : ℤ)
    (neverExpires : Bool) :
    ∃ a', a.store order batch specs now expiresAt neverExpires = some a' ∧
      a'.validators = a.validators ∧ a'.Refines (m.store now expiresAt neverExpires specs batch) now := by
  have hap := h.append hle hrw hcap expiresAt neverExpires
  rw [VgiMemoArena.store]
  split_ifs with hcm
  · exact hap.compactLocked le_rfl order
  · exact ⟨_, rfl, rfl, hap⟩

end

/-! ## Stores in an arena that may be full

Whether there is place for a value or not, a store only adds values of its batch. -/

/-- The values of a batch with their keys. -/
def specRows : List ArenaStoreSpec → List ρ → List (Bytes × List ρ)
  | [], _ => []
  | sp :: specs, batch => (sp.key, batch.take sp.length) :: specRows specs (batch.drop sp.length)

variable {P : Bytes → List ρ → Prop}

section

variable (h : Storing rows baseRows batchBase m now st) (hbase : baseRows ≤ batchBase) (hm : m.All P)

include h hbase hm

theorem Storing.store_all {sp : ArenaStoreSpec} (hsp : P sp.key ((rows.drop (batchBase + st.off)).take sp.length)) :
    ∃ m', Storing rows baseRows batchBase m' now (st.store now expiresAt neverExpires batchBase sp) ∧ m'.All P := by
  let s : VgiMemoSlot := ⟨batchBase + st.off, sp.length, sp.validatorRef, expiresAt, neverExpires⟩
  -- a slot without a key, in an arena with place or without
  have hpb {st' : StoreLoop} (h' : Storing rows baseRows batchBase m now st') (hof : st'.off = st.off)
      (hno : st'.slots.lookup sp.key = none) :
      ∃ m', Storing rows baseRows batchBase m' now
          (StoreLoop.publish { st' with off := st'.off + sp.length } sp.key s) ∧ m'.All P := by
    rw [StoreLoop.publish]
    split_ifs
    · exact ⟨m, h'.skip sp.length, hm⟩
    · exact ⟨_, h'.insert hbase hno (by rw [hof]), hm.put now hsp⟩
  rw [StoreLoop.store]
  rcases hold : st.slots.lookup sp.key with _ | old
  · exact hpb h rfl hold
  dsimp only
  rcases hst : old.isStale now with _ | _
  · rw [if_neg Bool.false_ne_true]
    exact ⟨m, h.skip sp.length, hm⟩
  · rw [if_pos rfl]
    exact hpb (h.erase hold hst) rfl (AList.lookup_erase _ _)

theorem Storing.foldl_all
    (specs : List ArenaStoreSpec) (hsp : ∀ x ∈ specRows specs (rows.drop (batchBase + st.off)), P x.1 x.2) :
    ∃ m', Storing rows baseRows batchBase m' now
      (specs.foldl (StoreLoop.store now expiresAt neverExpires batchBase) st) ∧ m'.All P := by
  induction specs generalizing m st with
  | nil => exact ⟨m, h, hm⟩
  | cons sp specs ih =>
    rw [specRows, forall_mem_cons] at hsp
    obtain ⟨m₁, hst, hm₁⟩ := h.store_all hbase hm hsp.1
    refine ih hst hm₁ ?_
    rw [StoreLoop.off_store, ← Nat.add_assoc, ← drop_drop]
    exact hsp.2

end

/-- A store of values that are good for their keys, into an arena of such values, succeeds and leaves one. -/
theorem Refines.store_all (h : a.Refines m clock) (hm : m.All P) (hle : clock ≤ now) (order : VisitOrder)
    (hrw : batch.length = (specs.map (·.length)).sum) (hsp : ∀ x ∈ specRows specs batch, P x.1 x.2)
    (expiresAt : ℤ) (neverExpires : Bool) :
    ∃ a' m', a.store order batch specs now expiresAt neverExpires = some a' ∧ a'.Refines m' now ∧ m'.All P := by
  obtain ⟨m', hend, hm'⟩ := (h.storing hle batch).foldl_all (Nat.le_add_right _ _) hm specs (by
    rw [Nat.add_zero, ← h.length_rows, drop_left]
    exact hsp)
  have hap := h.append_of_storing hrw hend
  rw [VgiMemoArena.store]
  split_ifs with hcm
  · obtain ⟨a', ha', -, hrf⟩ := hap.compactLocked le_rfl order
    exact ⟨a', m', ha', hrf, hm'⟩
  · exact ⟨_, m', rfl, hap, hm'⟩

theorem Refines.mono (h : a.Refines m clock) (hle : clock ≤ now) : a.Refines m now :=
  ⟨h.toLayout, h.value, fun k v hk hv => MemoValue.isStale_mono hle (h.gone k v hk hv)⟩

/-! ## Validators -/

/-- A resolved validator is found under its number. -/
theorem getValidator_resolveValidator (a : VgiMemoArena ρ) (v : ArenaValidator) :
    (a.resolveValidator v).2.getValidator (a.resolveValidator v).1 = v := by
  rw [resolveValidator]
  split_ifs with hv
  · exact hv.symm
  rcases hi : a.validators.findIdx? (· = v) with _ | i
  · simp [getValidator]
  · obtain ⟨hlt, hget, -⟩ := findIdx?_eq_some_iff_getElem.1 hi
    rw [getValidator, if_neg (by simp)]
    simpa [hlt] using hget

/-- Those resolved before are still found. -/
theorem getValidator_resolveValidator_of_known (a : VgiMemoArena ρ) (v : ArenaValidator) {ref : ℤ}
    (hrf : ref < a.validators.length) : (a.resolveValidator v).2.getValidator ref = a.getValidator ref := by
  rw [resolveValidator]
  split_ifs with hv
  · rfl
  rcases a.validators.findIdx? (· = v) with _ | i
  · rw [getValidator, getValidator]
    split_ifs with hng
    · rfl
    · rw [getD_append _ _ _ _ (by omega)]
  · rfl

theorem length_le_resolveValidator (a : VgiMemoArena ρ) (v : ArenaValidator) :
    a.validators.length ≤ (a.resolveValidator v).2.validators.length ∧
      (a.resolveValidator v).1 < (a.resolveValidator v).2.validators.length := by
  rw [resolveValidator]
  split_ifs with hv
  · exact ⟨le_rfl, by dsimp only; omega⟩
  rcases hi : a.validators.findIdx? (· = v) with _ | i
  · simp
  · obtain ⟨hlt, -⟩ := findIdx?_eq_some_iff_getElem.1 hi
    exact ⟨le_rfl, by dsimp only; omega⟩

theorem Refines.resolveValidator (h : a.Refines m clock)
    (v : ArenaValidator) : (a.resolveValidator v).2.Refines m clock := by
  have hsm : (a.resolveValidator v).2 = { a with validators := (a.resolveValidator v).2.validators } := by
    rw [VgiMemoArena.resolveValidator]
    split_ifs
    · rfl
    · rcases a.validators.findIdx? (· = v) with _ | i <;> rfl
  rw [hsm]
  exact ⟨{ h with }, h.value, h.gone⟩

end VgiMemoArena

/-! ## Runs -/

namespace MemoArena

/-- An arena, the memo it stands for, the time of the last operation, and the validators that
    were resolved with the numbers they got. -/
structure World (ρ : Type*) where
  arena : VgiMemoArena ρ := {}
  memo : Memo ρ := fun _ => none
  clock : ℤ
  resolved : List (ℤ × ArenaValidator) := []

inductive Action (ρ : Type*)
  | resolveValidator (v : ArenaValidator)
  | store (order : VisitOrder) (batch : List ρ) (specs : List ArenaStoreSpec) (now expiresAt : ℤ)
    (neverExpires : Bool)
  | probe (keys : List Bytes) (now : ℤ)
  | compact (order : VisitOrder) (now : ℤ)

/-- The clock does not go backwards, a batch has the rows of its values, and there are not more
    values than the arena takes. -/
abbrev Admissible (w : World ρ) : Action ρ → Prop
  | .resolveValidator _ => True
  | .store _ batch specs now _ _ =>
    w.clock ≤ now ∧ batch.length = (specs.map (·.length)).sum ∧ w.arena.WithinCap specs
  | .probe _ now => w.clock ≤ now
  | .compact _ now => w.clock ≤ now

instance (w : World ρ) (act : Action ρ) : Decidable (Admissible w act) := by
  rcases act <;> infer_instance

/-- What an operation does to the arena, `none` if it throws, and what it is to do to the memo. -/
def perform (w : World ρ) : Action ρ → Option (World ρ)
  | .resolveValidator v =>
    some { w with
      arena := (w.arena.resolveValidator v).2
      resolved := ((w.arena.resolveValidator v).1, v) :: w.resolved }
  | .store order batch specs now expiresAt neverExpires =>
    (w.arena.store order batch specs now expiresAt neverExpires).map fun arena =>
      { w with arena, memo := w.memo.store now expiresAt neverExpires specs batch, clock := now }
  | .probe keys now => (w.arena.probe keys now).map fun _ => { w with clock := now }
  | .compact order now => (w.arena.compactLocked order now).map fun arena => { w with arena, clock := now }

def machine : Machine (World ρ) (Action ρ) where
  step w act := if Admissible w act then perform w act else none

variable {w : World ρ}

theorem machine_step {act : Action ρ} (hact : Admissible w act) : machine.step w act = perform w act := if_pos hact

structure Inv (w : World ρ) : Prop where
  refines : w.arena.Refines w.memo w.clock
  known : ∀ x ∈ w.resolved, x.1 < w.arena.validators.length
  resolved : ∀ x ∈ w.resolved, w.arena.getValidator x.1 = x.2

theorem inv_start (clock : ℤ) : Inv (ρ := ρ) { clock } where
  refines := by
    refine ⟨⟨rfl, rfl, ?_, ?_, .nil, rfl⟩, ?_, ?_⟩
    · exact nofun
    · exact nofun
    · exact nofun
    · exact nofun
  known _ hx := nomatch hx
  resolved _ hx := nomatch hx

/-- The validators stay found in an arena with the same ones. -/
theorem Inv.of_validators_eq {w' : World ρ} (h : Inv w) (hrs : w'.resolved = w.resolved)
    (hsm : w'.arena.validators = w.arena.validators) (hrf : w'.arena.Refines w'.memo w'.clock) : Inv w' := by
  refine ⟨hrf, fun x hx => ?_, fun x hx => ?_⟩
  · rw [hsm]
    exact h.known x (hrs ▸ hx)
  · rw [VgiMemoArena.getValidator, hsm]
    exact h.resolved x (hrs ▸ hx)

/-- An operation does not throw and keeps the invariant. -/
theorem Inv.perform (h : Inv w) {act : Action ρ} (hact : Admissible w act) :
    ∃ w', perform w act = some w' ∧ Inv w' := by
  rcases act with v | ⟨order, batch, specs, now, expiresAt, neverExpires⟩ | ⟨keys, now⟩ | ⟨order, now⟩
  · obtain ⟨hle, hlt⟩ := w.arena.length_le_resolveValidator v
    refine ⟨_, rfl, h.refines.resolveValidator v, fun x hx => ?_, fun x hx => ?_⟩
    · rcases mem_cons.1 hx with rfl | hx
      · exact hlt
      · exact (h.known x hx).trans_le (by exact_mod_cast hle)
    · rcases mem_cons.1 hx with rfl | hx
      · exact w.arena.getValidator_resolveValidator v
      · exact (w.arena.getValidator_resolveValidator_of_known v (h.known x hx)).trans (h.resolved x hx)
  · obtain ⟨hle, hrw, hcap⟩ := hact
    obtain ⟨a, ha, hsm, hrf⟩ := h.refines.store hle order hrw hcap expiresAt neverExpires
    rw [MemoArena.perform, ha]
    exact ⟨_, rfl, h.of_validators_eq rfl hsm hrf⟩
  · obtain ⟨r, hr, -⟩ := h.refines.probe hact keys
    rw [MemoArena.perform, hr]
    exact ⟨_, rfl, h.of_validators_eq rfl rfl (h.refines.mono hact)⟩
  · obtain ⟨a, ha, hsm, hrf⟩ := h.refines.compactLocked hact order
    rw [MemoArena.perform, ha]
    exact ⟨_, rfl, h.of_validators_eq rfl hsm hrf⟩

theorem Inv.run {clock : ℤ} {acts : List (Action ρ)} (hw : machine.run { clock } acts = some w) : Inv w := by
  refine Machine.run_invariant (fun {w act w'} h hst => ?_) (inv_start clock) hw
  obtain ⟨hact, hpr⟩ : Admissible w act ∧ MemoArena.perform w act = some w' := by
    simpa [machine] using hst
  obtain ⟨w₁, hw₁, hinv⟩ := h.perform hact
  rw [hw₁, some_inj] at hpr
  exact hpr ▸ hinv

/-- In every run of operations on an arena, a probe answers from the memo; the validators that were resolved are found
    under their numbers; the rows of the slots do not overlap; and no operation throws. -/
theorem probe_answers (clock : ℤ) {acts : List (Action ρ)} {w : World ρ} (hw : machine.run { clock } acts = some w) :
    (∀ keys now, w.clock ≤ now → ∃ r, w.arena.probe keys now = some r ∧ w.memo.Answers keys now r) ∧
    (∀ x ∈ w.resolved, w.arena.getValidator x.1 = x.2) ∧
    w.arena.Layout ∧ (∀ act, Admissible w act → (machine.step w act).isSome) := by
  have h := Inv.run hw
  refine ⟨fun keys now hle => h.refines.probe hle keys, h.resolved, h.refines.toLayout, fun act hact => ?_⟩
  obtain ⟨w', hw', -⟩ := h.perform hact
  rw [machine_step hact, hw']
  rfl

/-- The slots in the order of the list. -/
def inOrder : VisitOrder := ⟨id, fun slots => List.Perm.refl slots⟩

def reversed : VisitOrder := ⟨List.reverse, fun slots => reverse_perm slots⟩

/-- Two stores with a repeated key and a negative memo, then one when the first values are stale. -/
def storedTwice : List (Action ℕ) :=
  [.resolveValidator { etag := ascii "v1" },
   .store reversed [10, 11, 12] [⟨ascii "a", 2, 0⟩, ⟨ascii "b", 0, -1⟩, ⟨ascii "a", 1, -1⟩] 0 100 false,
   .probe [ascii "a", ascii "b", ascii "c"] 50,
   .store inOrder [20, 21] [⟨ascii "c", 1, 0⟩, ⟨ascii "a", 1, -1⟩] 60 0 true,
   .store inOrder [30, 31, 32] [⟨ascii "d", 1, -1⟩, ⟨ascii "a", 2, -1⟩] 100 200 false]

def storedTwiceWorld : World ℕ := (machine.run { clock := 0 } storedTwice).get (by decide +kernel)

/-- The first store of a key holds until it is stale. -/
theorem storedTwice_answers :
    (∃ r, storedTwiceWorld.arena.probe [ascii "c", ascii "b", ascii "a"] 150 = some r ∧
      storedTwiceWorld.memo.Answers [ascii "c", ascii "b", ascii "a"] 150 r) ∧
    (storedTwiceWorld.arena.probe [ascii "c", ascii "b", ascii "a"] 150).map
      (fun r => (r.rows, r.parent, r.hit, r.validatorRef)) =
        some (some [20, 31, 32], [0, 2, 2], [true, false, true], [0, -1, -1]) :=
  ⟨(probe_answers 0 (some_get _).symm).1 _ 150 (by decide +kernel), by decide +kernel⟩

end MemoArena

end Vgi
