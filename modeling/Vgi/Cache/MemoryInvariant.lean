import Vgi.Cache.Memory

/-!
# The invariant of the memory tier

The list, the index and the byte counter of the memory tier are updated by hand, in different orders, by each operation.
What an operation does is stated on the list of entries alone (`entries`), the rest following from the part `Accounted`
of the invariant.

* `MemoryTier.Inv`: the representation invariant, i.e., the index maps exactly the keys of the list to their positions,
  no key occurs twice, the counter is the sum of the sizes of the entries, and both caps hold.
* `Inv.step`: every operation keeps it, hence `Inv.run`: so does every sequence of operations, and it holds in every run
  of a new cache (`run_init_inv`).
-/

namespace Vgi

open List Recency MemoryTier

namespace MemoryTier

variable {P : Type*}

/-! ## Accounting -/

/-- The list, the index and the byte counter agree. -/
structure Accounted (t : MemoryTier P) : Prop where
  wf : t.lists.WF ResultCacheEntry.key
  total_eq : t.totalBytes = (t.entries.map (·.totalBytes)).sum
  nonneg : ∀ e ∈ t.entries, 0 ≤ e.totalBytes

variable {t : MemoryTier P}

theorem accounted_init : Accounted (init : MemoryTier P) where
  wf := .empty
  total_eq := rfl
  nonneg := by simp [init, entries, vals, empty]

section

variable (h : t.Accounted)

include h

/-- The rest of the state does not matter. -/
theorem Accounted.congr {t' : MemoryTier P} (hl : t'.lists = t.lists := by rfl)
    (hb : t'.totalBytes = t.totalBytes := by rfl) : t'.Accounted := by
  have he : t'.entries = t.entries := congrArg vals hl
  exact ⟨hl ▸ h.wf, by rw [hb, he, h.total_eq], he ▸ h.nonneg⟩

variable {n : Node (ResultCacheEntry P)} {k : ResultCacheKey}

theorem Accounted.find_iff : t.find k = some n ↔ n ∈ t.lists.lru ∧ n.val.key = k := h.wf.find_eq_some_iff

theorem Accounted.mem_entries (hf : t.find k = some n) : n.val ∈ t.entries := mem_map_of_mem (h.find_iff.1 hf).1

/-- Uncounting the bytes of a node leaves those of the other keys. -/
theorem Accounted.total_sub (hn : n ∈ t.lists.lru) : t.totalBytes - n.val.totalBytes =
      ((t.entries.filter (·.key ≠ n.val.key)).map (·.totalBytes)).sum := by
  have hp := ((h.wf.vals_perm hn).map (·.totalBytes)).sum_eq
  rw [map_cons, sum_cons] at hp
  rw [h.total_eq, entries, hp]
  omega

theorem Accounted.entries_dropNode (hn : n ∈ t.lists.lru) :
    (t.dropNode n).entries = t.entries.filter (·.key ≠ n.val.key) :=
  h.wf.vals_erase (h.find_iff.2 ⟨hn, rfl⟩)

theorem Accounted.dropNode (hn : n ∈ t.lists.lru) : (t.dropNode n).Accounted where
  wf := h.wf.erase (h.find_iff.2 ⟨hn, rfl⟩)
  total_eq := by rw [h.entries_dropNode hn]; exact h.total_sub hn
  nonneg e he := by
    rw [h.entries_dropNode hn] at he
    exact h.nonneg e (mem_of_mem_filter he)

end

@[simp]
theorem entries_link (t : MemoryTier P) (e : ResultCacheEntry P) : (t.link e).entries = e :: t.entries := rfl

theorem Accounted.link (h : t.Accounted) {e : ResultCacheEntry P}
    (hk : ∀ e' ∈ t.entries, e'.key ≠ e.key) (hb : 0 ≤ e.totalBytes) : (t.link e).Accounted where
  wf := h.wf.pushFront hk
  total_eq := by
    rw [entries_link, map_cons, sum_cons, ← h.total_eq]
    exact Int.add_comm _ _
  nonneg := by
    rw [entries_link]
    exact forall_mem_cons.2 ⟨hb, h.nonneg⟩

/-! ## Eviction -/

@[simp]
theorem evictLoop_settings (b : ℤ) (a : Bool) (n : ℕ) (t : MemoryTier P) :
    (evictLoop b a n t).settings = t.settings := by
  induction n generalizing t with
  | zero => rfl
  | succ n ih => rw [evictLoop]; grind [evictBack]

@[simp]
theorem evictLoop_disk (b : ℤ) (a : Bool) (n : ℕ) (t : MemoryTier P) : (evictLoop b a n t).disk = t.disk := by
  induction n generalizing t with
  | zero => rfl
  | succ n ih => rw [evictLoop]; grind [evictBack]

@[simp]
theorem evictToFitLocked_settings (t : MemoryTier P) (b : ℤ) (a : Bool) :
    (t.evictToFitLocked b a).settings = t.settings := evictLoop_settings ..

@[simp]
theorem evictToFitLocked_disk (t : MemoryTier P) (b : ℤ) (a : Bool) :
    (t.evictToFitLocked b a).disk = t.disk := evictLoop_disk ..

theorem Accounted.evictBack (h : t.Accounted) (hn : t.lists.lru.getLast? = some n) : (t.evictBack n).Accounted :=
  (h.dropNode (mem_of_getLast? hn)).congr (h.wf.popBack_eq hn) rfl

theorem entries_evictBack (t : MemoryTier P) (n : Node (ResultCacheEntry P)) :
    (t.evictBack n).entries = t.entries.dropLast := by
  simp [entries, vals, evictBack, popBack, map_dropLast]

/-- What the loop leaves: a consistent state whose entries are the most recently
    used ones, none at all or within both caps. -/
theorem Accounted.evictLoop (b : ℤ) (a : Bool) {n : ℕ} (h : t.Accounted) (hn : t.lists.lru.length ≤ n) :
    (evictLoop b a n t).Accounted ∧ (evictLoop b a n t).entries <+: t.entries ∧
      ((evictLoop b a n t).entries = [] ∨ (evictLoop b a n t).overCap b a = false) := by
  induction n generalizing t with
  | zero =>
    have hl : t.lists.lru = [] := length_eq_zero_iff.1 (Nat.le_zero.1 hn)
    exact ⟨h, prefix_rfl, .inl (by simp [MemoryTier.evictLoop, entries, vals, hl])⟩
  | succ n ih =>
    rw [MemoryTier.evictLoop]
    split
    case h_1 hl =>
      rw [getLast?_eq_none_iff] at hl
      exact ⟨h, prefix_rfl, .inl (by simp [entries, vals, hl])⟩
    case h_2 v hl =>
      split
      case isTrue =>
        have hlen : (t.evictBack v).lists.lru.length ≤ n := by
          simp only [MemoryTier.evictBack, popBack, length_dropLast]
          omega
        obtain ⟨ha, hp, hc⟩ := ih (h.evictBack hl) hlen
        exact ⟨ha, hp.trans (entries_evictBack t v ▸ dropLast_prefix _), hc⟩
      case isFalse ho => exact ⟨h, prefix_rfl, .inr (by simpa using ho)⟩

theorem Accounted.evict (h : t.Accounted) (b : ℤ) (a : Bool) :
    (t.evictToFitLocked b a).Accounted := (h.evictLoop b a le_rfl).1

theorem Accounted.entries_evict (h : t.Accounted) (b : ℤ) (a : Bool) :
    (t.evictToFitLocked b a).entries <+: t.entries := (h.evictLoop b a le_rfl).2.1

/-- After an eviction there is room for `b` bytes and, when admitting, for one more entry. -/
theorem Accounted.evict_room (h : t.Accounted) {b : ℤ} (a : Bool)
    (hm : t.settings.maxBytes < 2 ^ 63) (hb : b ≤ t.settings.maxBytes) :
    (t.evictToFitLocked b a).totalBytes + b ≤ t.settings.maxBytes ∧
      (0 < t.settings.maxEntries →
        (t.evictToFitLocked b a).entries.length + (if a then 1 else 0) ≤ t.settings.maxEntries) := by
  have hac := h.evict b a
  have hlen : (t.evictToFitLocked b a).lists.lru.length = (t.evictToFitLocked b a).entries.length := by
    simp [entries, vals]
  rcases (h.evictLoop b a le_rfl).2.2 with he | ho
  · -- nothing is left
    change (t.evictToFitLocked b a).entries = [] at he
    rw [hac.total_eq, he]
    refine ⟨by simpa using hb, fun _ => ?_⟩
    have ha : (if a then 1 else 0) ≤ 1 := by split <;> omega
    simp only [length_nil]
    omega
  · change (t.evictToFitLocked b a).overCap b a = false at ho
    simp only [overCap, evictToFitLocked_settings, toInt64_of_lt hm, hlen, Bool.or_eq_false_iff,
      Bool.and_eq_false_iff, decide_eq_false_iff_not] at ho
    refine ⟨by omega, fun hc => ?_⟩
    rcases ho.2 with h0 | h1
    · exact absurd hc h0
    · exact Nat.le_of_not_lt h1

/-! ## The invariant -/

/-- The representation invariant of the memory tier. -/
structure Inv (t : MemoryTier P) : Prop extends Accounted t where
  limit : t.settings.maxBytes < 2 ^ 63
  bytes_le : t.totalBytes ≤ t.settings.maxBytes
  count_le : 0 < t.settings.maxEntries → t.lists.lru.length ≤ t.settings.maxEntries

theorem length_entries (t : MemoryTier P) : t.entries.length = t.lists.lru.length := by
  simp [entries, vals]

theorem inv_init : Inv (init : MemoryTier P) :=
  { accounted_init with
    limit := by simp [init]
    bytes_le := by simp [init]
    count_le := by simp [init, empty] }

/-- An operation that takes neither bytes nor entries more keeps the caps. -/
theorem Inv.of_le (h : t.Inv) {t' : MemoryTier P} (ha : t'.Accounted) (hs : t'.settings = t.settings)
    (hb : t'.totalBytes ≤ t.totalBytes) (hl : t'.entries.length ≤ t.entries.length) : t'.Inv :=
  { ha with
    limit := hs ▸ h.limit
    bytes_le := hs ▸ hb.trans h.bytes_le
    count_le := fun hc => by
      rw [length_entries, length_entries] at hl
      rw [hs] at hc ⊢
      exact hl.trans (h.count_le hc) }

/-- The counters do not matter. -/
theorem Inv.counters (h : t.Inv) (c : CacheCounters) : ({ t with counters := c }).Inv :=
  h.of_le h.toAccounted.congr rfl le_rfl le_rfl

theorem Inv.noteHit (h : t.Inv) : t.noteHit.Inv := h.counters _

theorem Inv.noteMiss (h : t.Inv) : t.noteMiss.Inv := h.counters _

theorem Inv.noteTtl (h : t.Inv) (n : ℕ) : (t.noteTtl n).Inv := h.counters _

theorem Inv.dropNode (h : t.Inv) (hn : n ∈ t.lists.lru) : (t.dropNode n).Inv := by
  have hb := h.nonneg n.val (mem_map_of_mem hn)
  refine h.of_le (h.toAccounted.dropNode hn) rfl (Int.sub_le_self _ hb) ?_
  rw [h.entries_dropNode hn]
  exact length_filter_le _ _

/-- Evicting and then admitting an entry of a new key, within the byte cap. -/
theorem Accounted.inv_link (h : t.Accounted) (hm : t.settings.maxBytes < 2 ^ 63) {e : ResultCacheEntry P} {b : ℤ}
    (hk : ∀ e' ∈ t.entries, e'.key ≠ e.key) (he : e.totalBytes = b) (hb : 0 ≤ b) (hle : b ≤ t.settings.maxBytes) :
    ((t.evictToFitLocked b true).link e).Inv := by
  obtain ⟨hrm, hcn⟩ := h.evict_room true hm hle
  have hk' : ∀ e' ∈ (t.evictToFitLocked b true).entries, e'.key ≠ e.key := fun e' he' =>
    hk e' ((h.entries_evict b true).subset he')
  have hs : ((t.evictToFitLocked b true).link e).settings = t.settings := evictToFitLocked_settings ..
  refine { (h.evict b true).link hk' (he ▸ hb) with limit := hs ▸ hm, bytes_le := ?_, count_le := ?_ }
  · rw [hs, MemoryTier.link, he]
    exact hrm
  · rw [hs, ← length_entries, entries_link]
    exact hcn

/-! ## The operations keep the invariant -/

theorem Inv.configure (h : t.Inv) {s : CacheSettings} (hs : s.maxBytes < 2 ^ 63) : (t.configure s).Inv := by
  rw [MemoryTier.configure]
  generalize ht : ({ t with settings := s, disk := _ } : MemoryTier P) = t₁
  have hset : t₁.settings = s := ht ▸ rfl
  have h₁ : t₁.Accounted := h.toAccounted.congr (ht ▸ rfl) (ht ▸ rfl)
  obtain ⟨hrm, hcn⟩ := h₁.evict_room false (hset ▸ hs) (Int.natCast_nonneg _)
  refine { h₁.evict 0 false with limit := ?_, bytes_le := ?_, count_le := ?_ }
  · rw [evictToFitLocked_settings, hset]
    exact hs
  · rw [evictToFitLocked_settings]
    simpa using hrm
  · rw [evictToFitLocked_settings, ← length_entries]
    exact hcn

/-- A fresh entry moves to the front. -/
theorem Accounted.splice (h : t.Accounted) (hf : t.find k = some n) :
    ({ t with lists := t.lists.splice k n n.val.hit }).Accounted := by
  obtain ⟨hn, rfl⟩ := h.find_iff.1 hf
  have hv := h.wf.vals_splice n.val.hit hf
  have hsub := h.total_sub hn
  refine ⟨h.wf.splice hf rfl, ?_, ?_⟩
  · rw [entries, hv, map_cons, sum_cons, ResultCacheEntry.hit_totalBytes]
    rw [entries] at hsub
    rw [← hsub]
    simp
  · rw [entries, hv]
    exact forall_mem_cons.2 ⟨h.nonneg n.val (h.mem_entries hf), fun e he => h.nonneg e (mem_of_mem_filter he)⟩

theorem Inv.probe (h : t.Inv) (k : ResultCacheKey) (now : ℤ) : (t.probe k now).1.Inv := by
  rw [MemoryTier.probe]
  split
  · exact h
  rename_i n hf
  obtain ⟨hn, rfl⟩ := h.find_iff.1 hf
  split
  · exact (h.dropNode hn).noteTtl 1
  refine (h.of_le (h.toAccounted.splice hf) rfl le_rfl ?_).noteHit
  have hlen := (h.wf.vals_perm hn).length_eq
  rw [entries, h.wf.vals_splice _ hf, entries, hlen]
  rfl

theorem Inv.adopt (h : t.Inv) {e : ResultCacheEntry P} (he : 0 ≤ e.totalBytes) : (t.adopt e).1.Inv := by
  rw [MemoryTier.adopt]
  split
  case isTrue hc =>
    simp only [Bool.and_eq_true, Option.isNone_iff_eq_none, decide_eq_true_eq, toInt64_of_lt h.limit] at hc
    have hk : ∀ e' ∈ t.entries, e'.key ≠ e.hit.key := h.wf.find_eq_none_iff.1 hc.1.1
    exact (h.inv_link h.limit hk rfl he hc.2).noteHit
  case isFalse => exact h.noteHit

theorem Inv.probeCounted (h : t.Inv) (k : ResultCacheKey) (now : ℤ) : (t.probeCounted k now).1.Inv := by
  have hp := h.probe k now
  rw [MemoryTier.probeCounted]
  split
  case h_1 he => rwa [he] at hp
  rename_i he
  rw [he] at hp
  exact hp.noteMiss

theorem Inv.lookupBatch (h : t.Inv) (now : ℤ) (ks : List ResultCacheKey) : (t.lookupBatch now ks).1.Inv := by
  induction ks generalizing t with
  | nil => exact h
  | cons k ks ih => exact ih (h.probeCounted k now)

@[simp]
theorem dropKey_settings (t : MemoryTier P) (k : ResultCacheKey) : (t.dropKey k).settings = t.settings := by
  rw [dropKey]
  split <;> rfl

@[simp]
theorem dropKey_disk (t : MemoryTier P) (k : ResultCacheKey) : (t.dropKey k).disk = t.disk := by
  rw [dropKey]
  split <;> rfl

/-- After the drop no entry has the key. -/
theorem Accounted.entries_dropKey (h : t.Accounted) (k : ResultCacheKey) :
    (t.dropKey k).entries = t.entries.filter (·.key ≠ k) := by
  rw [dropKey]
  split
  case h_1 n hf =>
    obtain ⟨hn, rfl⟩ := h.find_iff.1 hf
    exact h.entries_dropNode hn
  case h_2 hf => exact (filter_eq_self.2 fun e he => by simpa using h.wf.find_eq_none_iff.1 hf e he).symm

theorem Inv.dropKey (h : t.Inv) (k : ResultCacheKey) : (t.dropKey k).Inv := by
  rw [MemoryTier.dropKey]
  split
  case h_1 n hf => exact h.dropNode (h.find_iff.1 hf).1
  case h_2 => exact h

theorem Inv.replace (h : t.Inv) {e : ResultCacheEntry P} (he : 0 ≤ e.totalBytes) : (t.replace e).Inv := by
  have hd := h.dropKey e.key
  rw [MemoryTier.replace]
  split
  case isTrue hr =>
    refine hd.inv_link hd.limit (fun e' he' => ?_) rfl he ?_
    · rw [h.entries_dropKey] at he'
      simpa using (mem_filter.1 he').2
    · simpa [retains, toInt64_of_lt h.limit] using hr
  case isFalse => exact hd

theorem Inv.noteInsert (h : t.Inv) (stored : Bool) : (t.noteInsert stored).Inv := by
  rw [MemoryTier.noteInsert]
  split
  · exact h.counters _
  · exact h

theorem Inv.insertLocked (h : t.Inv) {e : ResultCacheEntry P} (he : 0 ≤ e.totalBytes)
    (allowDisk : Bool) : (t.insertLocked e allowDisk).1.Inv := by
  rw [MemoryTier.insertLocked]
  split
  case isTrue => exact h
  case isFalse => exact (h.replace he).noteInsert _

/-- The walk over part of the list drops, of the keys seen, the entries that satisfy `p`. -/
theorem Accounted.walk (p : ResultCacheEntry P → Bool) (l : List (Node (ResultCacheEntry P)))
    (c : ℕ) (h : t.Accounted) (hl : ∀ n ∈ l, n ∈ t.lists.lru) (hnd : (l.map Node.addr).Nodup) :
    let r := l.foldl (fun s n => if p n.val then (s.1.dropNode n, s.2 + 1) else s) (t, c)
    r.1.Accounted ∧ r.1.settings = t.settings ∧ r.1.disk = t.disk ∧
      r.1.entries = t.entries.filter fun e => !(p e && (l.map (·.val.key)).contains e.key) := by
  induction l generalizing t c with
  | nil => exact ⟨h, rfl, rfl, by simp⟩
  | cons n l ih =>
    obtain ⟨hn, hl⟩ := forall_mem_cons.1 hl
    obtain ⟨hna, hnd⟩ := nodup_cons.1 hnd
    -- an entry with the key of the node is the entry of the node
    have hun : ∀ e ∈ t.entries, e.key = n.val.key → p e = p n.val := by
      intro e he hk
      obtain ⟨m, hm, rfl⟩ := mem_map.1 he
      rw [h.wf.eq_of_key hm hn hk]
    simp only [foldl_cons]
    cases hp : p n.val
    case true =>
      have hl' : ∀ m ∈ l, m ∈ (t.dropNode n).lists.lru := fun m hm =>
        mem_filter.2 ⟨hl m hm, by
          simpa using fun ha => hna (mem_map.2 ⟨m, hm, ha⟩)⟩
      obtain ⟨ha, hs, hd, he⟩ := ih (c + 1) (h.dropNode hn) hl' hnd
      refine ⟨ha, hs, hd, he.trans ?_⟩
      rw [h.entries_dropNode hn, filter_filter]
      refine filter_congr fun e he => ?_
      by_cases hk : e.key = n.val.key
      · simp [hk, hun e he hk, hp]
      · simp [hk]
    case false =>
      obtain ⟨ha, hs, hd, he⟩ := ih c h hl hnd
      refine ⟨ha, hs, hd, he.trans (filter_congr fun e he => ?_)⟩
      by_cases hk : e.key = n.val.key
      · simp [hun e he hk, hp]
      · simp [hk]

/-- Walking the whole list keeps the entries that do not satisfy `p`. -/
theorem Accounted.dropWhere (h : t.Accounted) (p : ResultCacheEntry P → Bool) :
    (t.dropWhere p).1.Accounted ∧ (t.dropWhere p).1.settings = t.settings ∧
      (t.dropWhere p).1.disk = t.disk ∧ (t.dropWhere p).1.entries = t.entries.filter (!p ·) := by
  obtain ⟨ha, hs, hd, he⟩ := h.walk p t.lists.lru 0 (fun _ => id) h.wf.addr_nodup
  refine ⟨ha, hs, hd, he.trans (filter_congr fun e he => ?_)⟩
  obtain ⟨n, hn, rfl⟩ := mem_map.1 he
  have : (t.lists.lru.map (·.val.key)).contains n.val.key = true := contains_iff_mem.2 (mem_map.2 ⟨n, hn, rfl⟩)
  rw [this, Bool.and_true]

theorem Inv.dropWhere (h : t.Inv) (p : ResultCacheEntry P → Bool) : (t.dropWhere p).1.Inv := by
  obtain ⟨ha, hs, -, he⟩ := h.toAccounted.dropWhere p
  refine h.of_le ha hs ?_ (he ▸ length_filter_le _ _)
  rw [ha.total_eq, h.total_eq, he]
  refine (filter_sublist.map _).sum_le_sum fun b hb => ?_
  obtain ⟨e, he, rfl⟩ := mem_map.1 hb
  exact h.nonneg e he

theorem accounted_flushAllLocked (t : MemoryTier P) : t.flushAllLocked.1.Accounted :=
  ⟨⟨by simp [flushAllLocked], by simp [flushAllLocked], by simp [flushAllLocked], by simp [flushAllLocked]⟩, rfl,
    by simp [flushAllLocked, entries, vals]⟩

theorem Inv.flushAllLocked (h : t.Inv) : t.flushAllLocked.1.Inv := by
  refine h.of_le (accounted_flushAllLocked t) rfl ?_ (Nat.zero_le _)
  rw [h.total_eq]
  refine sum_nonneg fun b hb => ?_
  obtain ⟨e, he, rfl⟩ := mem_map.1 hb
  exact h.nonneg e he

theorem Inv.reapStaleLocked (h : t.Inv) (now : ℤ) : (t.reapStaleLocked now).1.Inv := (h.dropWhere _).noteTtl _

/-- What `Lookup` can do to memory, and answer. -/
inductive Looked (t : MemoryTier P) (k : ResultCacheKey) (now nowUnix : ℤ) (d : DiskReads P) :
    MemoryTier P × Option (ResultCacheEntry P) → Prop
  | hit {e} (he : (t.probe k now).2 = some e) : t.Looked k now nowUnix d ((t.probe k now).1, some e)
  /-- What the packed store has, or else the loose one, is adopted. -/
  | adopt {e}
    (he : d.packLookup (t.probe k now).1.disk.dir k nowUnix = some e ∨
      d.packLookup (t.probe k now).1.disk.dir k nowUnix = none ∧
        d.loadFromDisk k (t.probe k now).1.disk.dir = some e) :
    t.Looked k now nowUnix d (((t.probe k now).1.adopt e).1, some ((t.probe k now).1.adopt e).2)
  | stream {e} (hpack : d.packLookup (t.probe k now).1.disk.dir k nowUnix = none)
    (he : d.loadFromDiskStreaming k (t.probe k now).1.disk.dir = some e) :
    t.Looked k now nowUnix d ((t.probe k now).1.noteHit, some e)
  | miss : t.Looked k now nowUnix d ((t.probe k now).1.noteMiss, none)

theorem looked_lookup (t : MemoryTier P) (k : ResultCacheKey) (now nowUnix : ℤ) (d : DiskReads P) :
    t.Looked k now nowUnix d (t.lookup k now nowUnix d) := by
  rw [lookup]
  split
  case h_1 t₁ e he =>
    obtain ⟨rfl, han⟩ := Prod.ext_iff.1 he
    exact .hit han
  case h_2 t₁ he =>
    obtain ⟨rfl, -⟩ := Prod.ext_iff.1 he
    split
    case isFalse => exact .miss
    case isTrue =>
      split
      case h_1 e hpc => exact .adopt (.inl hpc)
      rename_i hpc
      dsimp only
      split
      · split
        case h_1 e hld => exact .stream hpc hld
        case h_2 => exact .miss
      · split
        · split
          case h_1 e hld => exact .adopt (.inr ⟨hpc, hld⟩)
          case h_2 => exact .miss
        · exact .miss

theorem Inv.lookup (h : t.Inv) (k : ResultCacheKey) (now nowUnix : ℤ) {d : DiskReads P}
    (hd : d.Nonneg) : (t.lookup k now nowUnix d).1.Inv := by
  have hp := h.probe k now
  have hlk := t.looked_lookup k now nowUnix d
  revert hlk
  generalize t.lookup k now nowUnix d = r
  rintro (_ | he | _ | _)
  · exact hp
  · rcases he with he | ⟨-, he⟩
    · exact hp.adopt (hd.packLookup he)
    · exact hp.adopt (hd.loadFromDisk he)
  · exact hp.noteHit
  · exact hp.noteMiss

/-! ## Runs -/

/-- Every operation keeps the invariant. -/
theorem Inv.step (h : t.Inv) {op : Op P} (hop : op.Sized) : (t.step op).Inv := by
  cases op with
  | configure s => exact h.configure hop.1
  | lookup k now nowUnix disk => exact h.lookup k now nowUnix hop
  | probe k now => exact h.probe k now
  | adopt e => exact h.adopt hop
  | lookupBatch ks now => exact h.lookupBatch now ks
  | lookupForRevalidation k now => exact h
  | insert e allowDisk => exact h.insertLocked hop allowDisk
  | flushCatalog catalog => exact h.dropWhere _
  | flushAll => exact h.flushAllLocked
  | reapStale now => exact h.reapStaleLocked now

/-- Every sequence of operations keeps the invariant. -/
theorem Inv.run (h : t.Inv) {ops : List (Op P)} (hops : ∀ op ∈ ops, op.Sized) : (t.run ops).Inv := by
  induction ops generalizing t with
  | nil => exact h
  | cons op ops ih =>
    obtain ⟨hop, hops⟩ := forall_mem_cons.1 hops
    exact ih (h.step hop) hops

/-- The representation invariant of the memory tier, after any sequence of operations on a new cache: the index maps
    exactly the keys of the list to the positions of their nodes, no key occurs twice, the byte counter is the sum over
    the list, and both caps hold. -/
theorem run_init_inv (ops : List (Op P)) (hops : ∀ op ∈ ops, op.Sized) : let t := (init : MemoryTier P).run ops
    (∀ k a, t.lists.index.lookup k = some a ↔
        ∃ n ∈ t.lists.lru, n.val.key = k ∧ n.addr = a) ∧
      (t.lists.lru.map Node.addr).Nodup ∧
      (t.lists.lru.map (·.val.key)).Nodup ∧
      t.totalBytes = (t.lists.lru.map (·.val.totalBytes)).sum ∧
      t.totalBytes ≤ t.settings.maxBytes ∧
      (0 < t.settings.maxEntries → t.lists.lru.length ≤ t.settings.maxEntries) := by
  have h := (inv_init).run hops
  refine ⟨h.wf.index_iff, h.wf.addr_nodup, h.wf.key_nodup, h.total_eq.trans ?_, h.bytes_le,
    h.count_le⟩
  rw [entries, vals, map_map]
  rfl

/-- With room for one entry, the second `Insert` evicts the first. -/
theorem run_init_inv_evicting :
    let t := (init : MemoryTier ℕ).run
      [.configure { maxBytes := 10, maxEntries := 1 },
        .insert { key := default, streams := 1, totalBytes := 4 } false,
        .insert { key := { (default : ResultCacheKey) with functionName := [102] }, streams := 2,
                  totalBytes := 5 } true]
    t.entries.map (·.streams) = [2] ∧ t.totalBytes = (t.lists.lru.map (·.val.totalBytes)).sum := by
  refine ⟨by decide, (run_init_inv _ fun op hop => ?_).2.2.2.1⟩
  simp only [mem_cons, not_mem_nil, or_false] at hop
  rcases hop with rfl | rfl | rfl <;> simp [Op.Sized]

end MemoryTier

end Vgi
