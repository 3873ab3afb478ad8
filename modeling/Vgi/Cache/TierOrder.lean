import Vgi.Cache.DiskTier
import Vgi.Lib.Machine

/-!
# The order of the tiers

`Insert` writes a result to the packed store if it is small, and to the loose one if not; whatever the other store has
for the key stays there. `Lookup` takes what it finds first: in memory, in the packed store, in the loose one, whichever
is older. So once the latest result is out of memory, an older one may be served in its place (`lookup_superseded`):

* the packed copy of a result that has outgrown the packed store since;
* a copy on disk of a result whose successor was too large to be written to disk;
* the loose copy of a result whose packed successor expires earlier on disk. There expiry is in whole seconds, so it
  comes before that of the entry in memory.

* `lookup_latest`: if each `Insert` leaves nothing of the kind behind, a lookup returns the latest result, or nothing.
-/

namespace Vgi

open MemoryTier DiskRecord DiskTier Option

variable {P : Type*}

/-- The two tiers, the wall clock as it was read last, and the entries inserted so far, the latest one first. -/
structure TwoTier (P : Type*) where
  tier : MemoryTier P
  disk : DiskTier P
  nowUnix : ℤ
  inserted : List (ResultCacheEntry P) := []

/-- An operation, with the clocks it reads. -/
inductive TwoTierOp (P : Type*)
  | insert (e : ResultCacheEntry P) (nonneg : 0 ≤ e.totalBytes) (size : BlobSize) (nowUnix : ℤ)
  /-- The packed store and the loose one read the wall clock one after the other. -/
  | lookup (k : ResultCacheKey) (now nowUnix nowUnix' : ℤ)

namespace TwoTier

variable (dg : Digests) (g : TwoTier P)

/-- The latest entry inserted for the key. -/
def latest (k : ResultCacheKey) : Option (ResultCacheEntry P) := g.inserted.find? (·.key = k)

/-- Where the disk tier has the records of the key. -/
def place (k : ResultCacheKey) : Place := dg.place g.tier.disk.dir k

/-- `Insert`, with the disk allowed. -/
def insert (e : ResultCacheEntry P) (size : BlobSize) (nowUnix : ℤ) : TwoTier P :=
  match g.tier.insertLocked e true with
  | (tier, stored, plan) =>
    { tier := tier
      disk := plan.elim g.disk fun plan => g.disk.persist dg plan e size nowUnix
      nowUnix := nowUnix
      inserted := if stored then e :: g.inserted else g.inserted }

/-- `Lookup`. -/
def lookup (k : ResultCacheKey) (now nowUnix nowUnix' : ℤ) : TwoTier P × Option (ResultCacheEntry P) :=
  match g.tier.lookup k now nowUnix (g.disk.reads dg now nowUnix') with
  | (tier, answer) => ({ g with tier := tier, nowUnix := nowUnix' }, answer)

/-- The operations, one after the other. -/
def machine : Machine (TwoTier P) (TwoTierOp P) where
  step g
    | .insert e _ size nowUnix => some (g.insert dg e size nowUnix)
    | .lookup k now nowUnix nowUnix' => some (g.lookup dg k now nowUnix nowUnix').1

/-- The cache with these settings, empty. -/
def init (s : CacheSettings) (nowUnix : ℤ) : TwoTier P where
  tier := MemoryTier.init.configure s
  disk := .empty
  nowUnix := nowUnix

end TwoTier

/-! ## The condition -/

/-- The entry is small enough for the packed store. -/
def MemoryTier.packs (t : MemoryTier P) (e : ResultCacheEntry P) : Bool :=
  t.settings.pack && e.key.inputHash ≠ [] && e.totalBytes < toInt64 t.settings.packMaxEntryBytes

/-- The record expires when `r'` does, or before. -/
abbrev DiskRecord.ExpiresBy (r r' : DiskRecord P) : Prop :=
  r'.expiresUnix = int64Max ∨ r.expiresUnix ≠ int64Max ∧ r.expiresUnix ≤ r'.expiresUnix

/-- The older record is no harm: it has expired, or the new one takes its place, or the
    new one is found first and does not expire before it. -/
abbrev TwoTier.Supersedes (g : TwoTier P) (e : ResultCacheEntry P) (size : BlobSize) (nowUnix : ℤ)
    (usePack : Bool) (r : DiskRecord P) : Prop :=
  r.isStale nowUnix = true ∨
    (g.tier.diskEnabledLocked = true ∧ size.blob ≤ g.tier.disk.maxBytes) ∧
      (usePack = g.tier.packs e ∨
        usePack = false ∧ g.tier.packs e = true ∧ r.ExpiresBy (e.record size nowUnix))

/-- The wall clock does not go back; an `Insert` that is not rejected supersedes what is
    on disk for its key, and its digests are not those of another key inserted before. -/
abbrev TwoTierOp.Orderly (dg : Digests) (g : TwoTier P) : TwoTierOp P → Prop
  | .insert e _ size nowUnix => g.nowUnix ≤ nowUnix ∧
    (e.totalBytes ≤ toInt64 g.tier.settings.maxEntryBytes →
      (∀ usePack, ∀ r ∈ g.disk.store usePack (g.place dg e.key),
        g.Supersedes e size nowUnix usePack r) ∧
      ∀ e' ∈ g.inserted, g.place dg e'.key = g.place dg e.key → e'.key = e.key)
  | .lookup _ _ nowUnix nowUnix' => g.nowUnix ≤ nowUnix ∧ nowUnix ≤ nowUnix'

instance (dg : Digests) (g : TwoTier P) (op : TwoTierOp P) : Decidable (op.Orderly dg g) := by
  rcases op <;> infer_instance

/-! ## Expiry -/

namespace DiskRecord

variable {r r' : DiskRecord P} {nowUnix nowUnix' : ℤ}

theorem isStale_iff : r.isStale nowUnix = true ↔ r.expiresUnix ≠ int64Max ∧ r.expiresUnix ≤ nowUnix := by
  simp [isStale]

/-- What has expired stays so. -/
theorem isStale_mono (h : r.isStale nowUnix = true) (hle : nowUnix ≤ nowUnix') : r.isStale nowUnix' = true := by
  rw [isStale_iff] at h ⊢
  exact ⟨h.1, h.2.trans hle⟩

theorem ExpiresBy.isStale (h : r.ExpiresBy r') (hst : r'.isStale nowUnix = true) : r.isStale nowUnix = true := by
  rw [isStale_iff] at hst ⊢
  rcases h with h | ⟨hne, hle⟩
  · exact absurd h hst.1
  · exact ⟨hne, hle.trans hst.2⟩

end DiskRecord

/-! ## The invariant -/

namespace TwoTier

variable {dg : Digests} {g : TwoTier P}

/-- For a key that was inserted, memory has the latest result only. The packed store has no other that has not expired;
    nor has the loose store, unless the packed one has the latest result, which does not expire before that. -/
structure Ordered (dg : Digests) (g : TwoTier P) : Prop where
  accounted : g.tier.Accounted
  memory : g.tier.Holds fun e => ∀ e' ∈ g.latest e.key, e.streams = e'.streams
  packed : ∀ k, ∀ e ∈ g.latest k, ∀ r ∈ g.disk.store true (g.place dg k),
    r.streams = e.streams ∨ r.isStale g.nowUnix = true
  loose : ∀ k, ∀ e ∈ g.latest k, ∀ r ∈ g.disk.store false (g.place dg k),
    r.streams = e.streams ∨ r.isStale g.nowUnix = true ∨
      ∃ r' ∈ g.disk.store true (g.place dg k), r'.streams = e.streams ∧ r.ExpiresBy r'

theorem ordered_init (s : CacheSettings) (nowUnix : ℤ) : (init s nowUnix : TwoTier P).Ordered dg where
  accounted := accounted_init.configure s
  memory := MemoryTier.holds_init s
  packed k e he := by cases he
  loose k e he := by cases he

variable {k : ResultCacheKey} {e : ResultCacheEntry P} {r : DiskRecord P} {now nowUnix nowUnix' : ℤ}

section

variable (h : g.Ordered dg) (he : e ∈ g.latest k) (hclock : g.nowUnix ≤ nowUnix)

include h he hclock

/-- What the packed store serves is the latest result. -/
theorem Ordered.read_packed
    (hr : r ∈ g.disk.store true (g.place dg k)) (hfr : r.isStale nowUnix = false) : r.streams = e.streams := by
  rcases h.packed k e he r hr with hsm | hst
  · exact hsm
  · exact absurd (isStale_mono hst hclock) (Bool.eq_false_iff.1 hfr)

/-- So is what the loose store serves when the packed one serves nothing. -/
theorem Ordered.read_loose
    (hclock' : nowUnix ≤ nowUnix') (hpc : ∀ r' ∈ g.disk.store true (g.place dg k), r'.isStale nowUnix = true)
    (hr : r ∈ g.disk.store false (g.place dg k)) (hfr : r.isStale nowUnix' = false) : r.streams = e.streams := by
  rcases h.loose k e he r hr with hsm | hst | ⟨r', hr', -, hby⟩
  · exact hsm
  · exact absurd (isStale_mono hst (hclock.trans hclock')) (Bool.eq_false_iff.1 hfr)
  · -- the packed record has expired, so this one has
    have hst := hby.isStale (hpc r' hr')
    exact absurd (isStale_mono hst hclock') (Bool.eq_false_iff.1 hfr)

variable {e' : ResultCacheEntry P}

/-- What a lookup reads from disk is the latest result. -/
theorem Ordered.reads
    (hclock' : nowUnix ≤ nowUnix') (he' : g.disk.packLookup dg g.tier.disk.dir k now nowUnix = some e' ∨
      g.disk.packLookup dg g.tier.disk.dir k now nowUnix = none ∧
        g.disk.loadFromDisk dg k g.tier.disk.dir now nowUnix' = some e') :
    e'.streams = e.streams := by
  rcases he' with hpc | ⟨hpc, hld⟩
  · obtain ⟨r, hr, hfr, rfl⟩ := packLookup_eq_some hpc
    exact h.read_packed he hclock hr hfr
  · obtain ⟨r, hr, hfr, rfl⟩ := loadFromDisk_eq_some hld
    exact h.read_loose he hclock hclock' (fun r' hr' => isStale_of_packLookup_eq_none hpc hr') hr hfr

/-- A lookup returns the latest result, or nothing. -/
theorem Ordered.lookup_eq_some (hclock' : nowUnix ≤ nowUnix') (he' : (g.lookup dg k now nowUnix nowUnix').2 = some e') :
    e'.streams = e.streams := by
  change (g.tier.lookup k now nowUnix (g.disk.reads dg now nowUnix')).2 = some e' at he'
  have hdir : (g.tier.probe k now).1.disk.dir = g.tier.disk.dir := congrArg _ (probe_config g.tier k now).2
  have hlk := g.tier.looked_lookup k now nowUnix (g.disk.reads dg now nowUnix')
  revert hlk he'
  generalize g.tier.lookup k now nowUnix (g.disk.reads dg now nowUnix') = answer
  rintro he' (hhit | hrd | ⟨hpc, hld⟩ | _)
  · cases he'
    obtain ⟨e₀, he₀, rfl, -, rfl⟩ := h.accounted.probe_eq_some hhit
    exact h.memory e₀ he₀ e he
  · cases he'
    rw [hdir] at hrd
    rw [adopt_streams]
    exact h.reads he hclock hclock' hrd
  · cases he'
    rw [hdir] at hpc hld
    obtain ⟨e₁, hld₁, rfl⟩ := map_eq_some_iff.1 hld
    change e₁.streams = e.streams
    exact h.reads he hclock hclock' (.inr ⟨hpc, hld₁⟩)
  · cases he'

end

/-! ## The steps keep it -/

/-- Only memory changes and time passes. -/
theorem Ordered.tier (h : g.Ordered dg) {t : MemoryTier P} (ht : t.Accounted)
    (hds : t.disk = g.tier.disk) (hmem : t.Holds fun e => ∀ e' ∈ g.latest e.key, e.streams = e'.streams)
    (hclock : g.nowUnix ≤ nowUnix) : ({ g with tier := t, nowUnix := nowUnix } : TwoTier P).Ordered dg := by
  have hpl : ∀ k, TwoTier.place dg { g with tier := t, nowUnix := nowUnix } k = g.place dg k := by
    intro k
    rw [place, place, hds]
  refine ⟨ht, hmem, fun k e he r hr => ?_, fun k e he r hr => ?_⟩
  · rw [hpl] at hr
    rcases h.packed k e he r hr with hsm | hst
    · exact .inl hsm
    · exact .inr (isStale_mono hst hclock)
  · rw [hpl] at hr ⊢
    rcases h.loose k e he r hr with hsm | hst | hsh
    · exact .inl hsm
    · exact .inr (.inl (isStale_mono hst hclock))
    · exact .inr (.inr hsh)

theorem Ordered.lookup (h : g.Ordered dg) (hclock : g.nowUnix ≤ nowUnix)
    (hclock' : nowUnix ≤ nowUnix') : (g.lookup dg k now nowUnix nowUnix').1.Ordered dg := by
  have hdir : (g.tier.probe k now).1.disk.dir = g.tier.disk.dir := congrArg _ (probe_config g.tier k now).2
  refine h.tier ?_ ?_ ?_ (hclock.trans hclock')
  · exact h.accounted.lookup k now nowUnix (reads_nonneg g.disk now nowUnix')
  · exact (lookup_config ..).2
  refine h.memory.lookup h.accounted (fun e he => he) k now nowUnix ?_ ?_
  · intro e hpc e' he'
    rw [hdir] at hpc
    obtain rfl := (g.disk.reads dg now nowUnix').packLookup_key hpc
    exact h.reads he' hclock hclock' (.inl hpc)
  · intro e hpc hld e' he'
    rw [hdir] at hpc hld
    obtain rfl := (g.disk.reads dg now nowUnix').loadFromDisk_key hld
    exact h.reads he' hclock hclock' (.inr ⟨hpc, hld⟩)

/-- `Insert` returns `true`: the entry goes to memory or to disk. -/
def Stores (g : TwoTier P) (e : ResultCacheEntry P) : Prop :=
  e.totalBytes ≤ toInt64 g.tier.settings.maxEntryBytes ∧
    (g.tier.retains e = true ∨ g.tier.diskEnabledLocked = true)

/-- The entry is written to disk. -/
abbrev Writes (g : TwoTier P) (e : ResultCacheEntry P) (size : BlobSize) : Prop :=
  e.totalBytes ≤ toInt64 g.tier.settings.maxEntryBytes ∧ g.tier.diskEnabledLocked = true ∧
    size.blob ≤ g.tier.disk.maxBytes

instance (g : TwoTier P) (e : ResultCacheEntry P) : Decidable (g.Stores e) :=
  inferInstanceAs (Decidable (_ ∧ _))

variable {size : BlobSize}

section

variable (g : TwoTier P) (e : ResultCacheEntry P) (size : BlobSize) (nowUnix : ℤ)

theorem insert_disk :
    (g.insert dg e size nowUnix).disk =
      if g.Writes e size then
        g.disk.write (g.tier.packs e) (g.place dg e.key) (e.record size nowUnix) else g.disk := by
  rw [insert, insertLocked]
  by_cases hlr : toInt64 g.tier.settings.maxEntryBytes < e.totalBytes
  · rw [if_pos hlr, if_neg fun hwr => absurd hwr.1 (not_le.2 hlr)]
    rfl
  have hft := not_lt.1 hlr
  simp only [hlr, if_false, persistPlan, Bool.true_and]
  by_cases hen : g.tier.diskEnabledLocked = true
  · simp only [hen, if_true, Option.elim, persist, Writes, hft, true_and]
    rfl
  · rw [if_neg hen, if_neg fun hwr => hen hwr.2.1]
    rfl

theorem insert_inserted :
    (g.insert dg e size nowUnix).inserted = if g.Stores e then e :: g.inserted else g.inserted := by
  rw [insert, insertLocked]
  by_cases hlr : toInt64 g.tier.settings.maxEntryBytes < e.totalBytes
  · rw [if_pos hlr, if_neg fun hst => absurd hst.1 (not_le.2 hlr)]
    rfl
  · have hft := not_lt.1 hlr
    simp only [hlr, if_false, persistPlan, Bool.true_and]
    by_cases hen : g.tier.diskEnabledLocked = true <;> simp [hen, Stores, hft]

theorem latest_insert (k : ResultCacheKey) :
    (g.insert dg e size nowUnix).latest k = if e.key = k ∧ g.Stores e then some e else g.latest k := by
  rw [latest, insert_inserted]
  by_cases hst : g.Stores e
  · by_cases hk : e.key = k <;> simp [hst, hk, latest]
  · simp [hst, latest]

theorem insert_place (k : ResultCacheKey) : (g.insert dg e size nowUnix).place dg k = g.place dg k := by
  have hds : (g.insert dg e size nowUnix).tier.disk = g.tier.disk := (insertLocked_config ..).2
  rw [place, place, hds]

end

/-- The records of a key that is not inserted stay. -/
theorem insert_store_of_ne (hk : g.place dg k ≠ g.place dg e.key) (usePack : Bool) :
    (g.insert dg e size nowUnix).disk.store usePack (g.place dg k) = g.disk.store usePack (g.place dg k) := by
  rw [insert_disk]
  split
  · rw [store_write, if_neg fun hp => hk hp.2]
  · rfl

/-- For the key inserted, what is not the new result is superseded. -/
theorem insert_store_of_stores (hsts : g.Stores e)
    (hsp : ∀ usePack, ∀ r ∈ g.disk.store usePack (g.place dg e.key), g.Supersedes e size nowUnix usePack r)
    {usePack : Bool} (hr : r ∈ (g.insert dg e size nowUnix).disk.store usePack (g.place dg e.key)) :
    r.streams = e.streams ∨ r.isStale nowUnix = true ∨
      usePack = false ∧ ∃ r' ∈ (g.insert dg e size nowUnix).disk.store true (g.place dg e.key),
        r'.streams = e.streams ∧ r.ExpiresBy r' := by
  rw [insert_disk] at hr ⊢
  by_cases hwr : g.Writes e size
  · rw [if_pos hwr, store_write] at hr
    rw [if_pos hwr]
    split at hr
    · cases hr
      exact .inl rfl
    rename_i hne
    rcases hsp usePack r hr with hst | ⟨-, hsm | ⟨rfl, hpc, hby⟩⟩
    · exact .inr (.inl hst)
    · exact absurd ⟨hsm, rfl⟩ hne
    · refine .inr (.inr ⟨rfl, _, ?_, rfl, hby⟩)
      rw [store_write, if_pos ⟨hpc.symm, rfl⟩]
      rfl
  · rw [if_neg hwr] at hr
    rcases hsp usePack r hr with hst | ⟨hds, -⟩
    · exact .inr (.inl hst)
    · exact absurd ⟨hsts.1, hds⟩ hwr

theorem Ordered.insert (h : g.Ordered dg) (hng : 0 ≤ e.totalBytes)
    (hor : (TwoTierOp.insert e hng size nowUnix).Orderly dg g) :
    (g.insert dg e size nowUnix).Ordered dg := by
  obtain ⟨hclock, hft⟩ := hor
  -- a key that was inserted before and whose records change is that of the entry
  have hkp : ∀ {k e'}, e' ∈ g.latest k → ¬(e.key = k ∧ g.Stores e) → ∀ usePack,
      (g.insert dg e size nowUnix).disk.store usePack (g.place dg k) = g.disk.store usePack (g.place dg k) := by
    intro k e' he' hk usePack
    by_cases hwr : g.Writes e size
    · refine insert_store_of_ne (fun hpl => hk ⟨?_, hwr.1, .inr hwr.2.1⟩) usePack
      obtain rfl : e'.key = k := by simpa using List.find?_some he'
      exact ((hft hwr.1).2 e' (List.mem_of_find?_eq_some he') hpl).symm
    · rw [insert_disk, if_neg hwr]
  refine ⟨h.accounted.insertLocked hng true, fun e' he' e₁ he₁ => ?_, fun k e₁ he₁ r hr => ?_, fun k e₁ he₁ r hr => ?_⟩
  · rw [latest_insert] at he₁
    rcases h.accounted.mem_insertLocked he' with ⟨hlr, he'⟩ | ⟨hsml, ⟨rfl, hrt⟩ | ⟨he', hkey⟩⟩
    · rw [if_neg fun hk => absurd hk.2.1 (not_le.2 hlr)] at he₁
      exact h.memory e' he' e₁ he₁
    · rw [if_pos ⟨rfl, hsml, .inl hrt⟩] at he₁
      cases he₁
      rfl
    · rw [if_neg fun hk => hkey hk.1.symm] at he₁
      exact h.memory e' he' e₁ he₁
  · rw [insert_place] at hr
    rw [latest_insert] at he₁
    split at he₁
    · rename_i hk
      obtain ⟨rfl, hsts⟩ := hk
      cases he₁
      rcases insert_store_of_stores hsts (hft hsts.1).1 hr with hsm | hst | ⟨hne, -⟩
      · exact .inl hsm
      · exact .inr hst
      · cases hne
    · rename_i hk
      rw [hkp he₁ hk] at hr
      rcases h.packed k e₁ he₁ r hr with hsm | hst
      · exact .inl hsm
      · exact .inr (isStale_mono hst hclock)
  · rw [insert_place] at hr ⊢
    rw [latest_insert] at he₁
    split at he₁
    · rename_i hk
      obtain ⟨rfl, hsts⟩ := hk
      cases he₁
      rcases insert_store_of_stores hsts (hft hsts.1).1 hr with hsm | hst | ⟨-, hsh⟩
      · exact .inl hsm
      · exact .inr (.inl hst)
      · exact .inr (.inr hsh)
    · rename_i hk
      rw [hkp he₁ hk] at hr ⊢
      rcases h.loose k e₁ he₁ r hr with hsm | hst | hsh
      · exact .inl hsm
      · exact .inr (.inl (isStale_mono hst hclock))
      · exact .inr (.inr hsh)

theorem Ordered.step {op : TwoTierOp P} {g' : TwoTier P} (h : g.Ordered dg) (hop : op.Orderly dg g)
    (hst : (machine dg).step g op = some g') : g'.Ordered dg := by
  cases op with
  | insert e hng size nowUnix =>
    cases hst
    exact h.insert hng hop
  | lookup k now nowUnix nowUnix' =>
    cases hst
    exact h.lookup hop.1 hop.2

end TwoTier

/-- If each `Insert` supersedes what is on disk for its key, and its digests are its own,
    a lookup returns the latest result inserted for the key, or nothing. -/
theorem lookup_latest (dg : Digests) (s : CacheSettings) (nowUnix₀ : ℤ) {ops : List (TwoTierOp P)} {g : TwoTier P}
    (horderly : (TwoTier.machine dg).Along (fun g op => op.Orderly dg g) (.init s nowUnix₀) ops)
    (hrun : (TwoTier.machine dg).run (.init s nowUnix₀) ops = some g) {k : ResultCacheKey} {now nowUnix nowUnix' : ℤ}
    (hclock : g.nowUnix ≤ nowUnix) (hclock' : nowUnix ≤ nowUnix') {e e' : ResultCacheEntry P}
    (he : g.latest k = some e) (he' : (g.lookup dg k now nowUnix nowUnix').2 = some e') : e'.streams = e.streams :=
  have hor : g.Ordered dg :=
    Machine.run_invariant_along TwoTier.Ordered.step (TwoTier.ordered_init s nowUnix₀) horderly hrun
  hor.lookup_eq_some he hclock hclock' he'

/-! ## Runs -/

namespace TwoTier

/-- Memory for one entry, and results of ten bytes are too large for the packed store. -/
def smallPacks : CacheSettings := { oneEntry with packMaxEntryBytes := 10 }

def exchangeKey (arguments : String) : ResultCacheKey :=
  { resultKey arguments with inputHash := ascii "input" }

/-- Insert a result of some bytes, and of some more on disk. -/
def insertResult (arguments : String) (streams totalBytes blob : ℕ) (lifetime : Option ℤ) : TwoTierOp ℕ :=
  .insert
    { key := exchangeKey arguments
      streams := streams
      totalBytes := totalBytes
      expiresAt := lifetime.getD 0
      neverExpires := lifetime.isNone }
    (Int.natCast_nonneg _) ⟨blob, blob⟩ 10

/-- The second result takes the place of the first, and another one its place in memory. -/
def replaced : List (TwoTierOp ℕ) :=
  [insertResult "1" 1 5 7 none, insertResult "1" 2 6 8 none, insertResult "2" 3 5 7 none]

/-- The second result has outgrown the packed store. -/
def outgrown : List (TwoTierOp ℕ) :=
  [insertResult "1" 1 5 7 none, insertResult "1" 2 20 22 none, insertResult "2" 3 5 7 none]

/-- The second result is too large for the disk tier. -/
def unwritten : List (TwoTierOp ℕ) :=
  [insertResult "1" 1 5 7 none, insertResult "1" 2 6 2000 none, insertResult "2" 3 5 7 none]

/-- The second result is packed and expires after five seconds, the first one is loose and does not expire. -/
def outlived : List (TwoTierOp ℕ) :=
  [insertResult "1" 1 20 22 none, insertResult "1" 2 5 7 (some (5 * second)),
    insertResult "2" 3 5 7 none]

/-- The disk tier answers with the second result. -/
theorem replaced_latest : ∃ g e e',
    (machine argumentDigests).run (.init smallPacks 10) replaced = some g ∧
      g.latest (exchangeKey "1") = some e ∧ e.streams = 2 ∧
      (g.lookup argumentDigests (exchangeKey "1") 0 10 10).2 = some e' ∧ e'.streams = e.streams := by
  have hor : (machine argumentDigests).Along (fun g op => op.Orderly argumentDigests g)
      (.init smallPacks 10) replaced := by decide
  have han : ((machine argumentDigests).run (.init smallPacks 10) replaced).bind (fun g =>
      (g.latest (exchangeKey "1")).bind fun e =>
        (g.lookup argumentDigests (exchangeKey "1") 0 10 10).2.map fun _ => (g.nowUnix, e.streams)) =
          some (10, 2) := by decide
  obtain ⟨g, hrun, hg⟩ := bind_eq_some_iff.1 han
  obtain ⟨e, he, hlk⟩ := bind_eq_some_iff.1 hg
  obtain ⟨e', he', hvl⟩ := map_eq_some_iff.1 hlk
  obtain ⟨hclock, hst⟩ := Prod.ext_iff.1 hvl
  exact ⟨g, e, e', hrun, he, hst, he', lookup_latest _ _ _ hor hrun hclock.le le_rfl he he'⟩

/-- After the run a lookup returns a result that is not the latest one, which has not
    expired: of five seconds half a second is left. -/
def ReturnsSuperseded (ops : List (TwoTierOp ℕ)) : Prop :=
  ∃ g e e', (machine argumentDigests).run (.init smallPacks 10) ops = some g ∧
    g.latest (exchangeKey "1") = some e ∧ e.isStale (9 * second / 2) = false ∧
    (g.lookup argumentDigests (exchangeKey "1") (9 * second / 2) 15 15).2 = some e' ∧
    e'.streams ≠ e.streams

theorem returnsSuperseded_of_run {ops : List (TwoTierOp ℕ)}
    (h : ((machine argumentDigests).run (.init smallPacks 10) ops).bind (fun g =>
      (g.latest (exchangeKey "1")).bind fun e =>
        (g.lookup argumentDigests (exchangeKey "1") (9 * second / 2) 15 15).2.map fun e' =>
          decide (e.isStale (9 * second / 2) = false ∧ e'.streams ≠ e.streams)) = some true) :
    ReturnsSuperseded ops := by
  obtain ⟨g, hrun, hg⟩ := bind_eq_some_iff.1 h
  obtain ⟨e, he, hlk⟩ := bind_eq_some_iff.1 hg
  obtain ⟨e', he', hvl⟩ := map_eq_some_iff.1 hlk
  obtain ⟨hfr, hne⟩ := of_decide_eq_true hvl
  exact ⟨g, e, e', hrun, he, hfr, he', hne⟩

theorem lookup_superseded :
    ReturnsSuperseded outgrown ∧ ReturnsSuperseded unwritten ∧ ReturnsSuperseded outlived := by
  refine ⟨?_, ?_, ?_⟩
  · exact returnsSuperseded_of_run (by decide)
  · exact returnsSuperseded_of_run (by decide)
  · exact returnsSuperseded_of_run (by decide)

end TwoTier

end Vgi
