import Vgi.Lib.Machine
import Vgi.Catalog.ColumnIndex

/-!
# The statistics of a table entry

The optimizer asks for the statistics of the columns of a scan. They are those of the table,
which came with its description or are asked for when they are first needed, and stay on the
table entry; or else those of the function that scans it, which stay with the scan.

A table entry is shared by all transactions, unless it was made for an `AT` clause, and the
request for the statistics of a table has no `AT` clause. So statistics may be given to a scan
that were produced for another version of the table or in another transaction.
`statistics_of_scan_version` says under which use of the entries this does not happen.
-/

namespace Vgi.EntryStatistics

open List Option

open TableScan (AtClause ColumnId)

variable {S : Type}

/-- What a worker is asked about: a table as of a clause, in a transaction. -/
structure Version where
  transaction : Bytes
  at' : AtClause := {}
deriving DecidableEq

/-- Statistics of a column, with the version that the worker was asked about. -/
structure Stats (S : Type) where
  value : S
  producedFor : Version
deriving DecidableEq

abbrev ColumnStats (S : Type) := List (Bytes × Stats S)

structure StatsCache (S : Type) where
  entries : ColumnStats S := []
  fetched : Bool := false
  loading : Bool := false
  fetchedAt : ℕ := 0
  /-- Negative if the statistics never expire, `0` if they are not to be kept. -/
  maxAgeSeconds : ℤ := -1
deriving DecidableEq

def StatsCache.isStale (c : StatsCache S) (now : ℕ) : Bool :=
  !c.fetched || (!decide (c.maxAgeSeconds < 0) &&
    (c.maxAgeSeconds == 0 || decide (c.maxAgeSeconds < (now : ℤ) - c.fetchedAt)))

/-- A table entry, with the version that its description was asked for. -/
structure TableEntry (S : Type) where
  version : Version
  physicalColumns : List Bytes
  generatedColumns : Bool := false
  supportsColumnStatistics : Bool := true
  /-- The values that came with the description; none inside if they cannot be read. -/
  columnStatistics : Option (Option (List (Bytes × S))) := none
  cache : StatsCache S := {}

/-- The bind data of a scan, as far as statistics go. -/
structure Scan (S : Type) where
  entry : ℕ
  version : Version
  allColumnNames : List Bytes
  statisticsFetched : Bool := false
  statisticsCache : ColumnStats S := []

inductive Stage (S : Type)
  /-- Before the lock of the cache, or waiting for another that loads it. -/
  | acquire
  /-- To fill the cache, with the lock released. -/
  | fetch
  | publish (fetched : Option (ColumnStats S × ℤ))
  | read
  /-- The table has no statistics for the column. -/
  | function
  | done (answer : Option (Stats S))
deriving DecidableEq

/-- The stages in which the cache of the entry is still to be used. -/
def Stage.pending : Stage S → Bool
  | .acquire | .fetch | .publish _ | .read => true
  | .function | .done _ => false

/-- A call of the optimizer. -/
structure Call (S : Type) where
  scan : ℕ
  entry : ℕ
  version : Version
  column : ColumnId
  stage : Stage S

structure World (S : Type) where
  /-- The catalog has column statistics. -/
  supportsColumnStatistics : Bool := true
  clock : ℕ := 0
  entries : List (TableEntry S) := []
  scans : List (Scan S) := []
  calls : List (Call S) := []

namespace TableEntry

variable (e : TableEntry S)

/-- The name of a column, if there may be statistics for it. -/
def statisticsColumn (catalogSupports : Bool) : ColumnId → Option Bytes
  | .rowId | .empty => none
  | .index n =>
    if !e.generatedColumns && catalogSupports && e.supportsColumnStatistics then e.physicalColumns[n]? else none

/-- The version that statistics are produced for if a scan of the version `v` has them fetched. -/
def source (v : Version) : Version :=
  if e.columnStatistics.isSome then e.version else { transaction := v.transaction }

/-- What is published: the statistics of the description, or the answer of the worker if there is one. -/
def fetchStatistics (v : Version) (reply : Option (List (Bytes × S) × ℤ)) : Option (ColumnStats S × ℤ) :=
  let stamped (values : List (Bytes × S)) : ColumnStats S := values.map fun x => (x.1, ⟨x.2, e.source v⟩)
  match e.columnStatistics with
  | some inlined => inlined.map fun values => (stamped values, -1)
  | none => reply.map fun r => (stamped r.1, r.2)

/-- The cache after statistics were published. -/
def published (fetched : Option (ColumnStats S × ℤ)) (now : ℕ) : StatsCache S where
  entries := (fetched.map (·.1)).getD []
  fetched := true
  fetchedAt := now
  -- a failure keeps the age limit there was, unless the statistics came with the description
  maxAgeSeconds := if e.columnStatistics.isSome then -1 else (fetched.map (·.2)).getD e.cache.maxAgeSeconds

end TableEntry

inductive Action (S : Type)
  | tick
  | load (e : TableEntry S)
  | bind (entry : ℕ) (version : Version) (allColumnNames : List Bytes)
  | ask (scan : ℕ) (column : ColumnId)
  | acquire (call : ℕ)
  /-- With the answer of the worker, if it gets asked. -/
  | fetch (call : ℕ) (reply : Option (List (Bytes × S) × ℤ))
  | publish (call : ℕ)
  | read (call : ℕ)
  | function (call : ℕ) (reply : Option (List (Bytes × S)))

namespace World

variable (w : World S)

def setCall (i : ℕ) (c : Call S) (stage : Stage S) : World S :=
  { w with calls := w.calls.set i { c with stage } }

def setCache (k : ℕ) (e : TableEntry S) (cache : StatsCache S) : World S :=
  { w with entries := w.entries.set k { e with cache } }

/-- The call begins: columns without statistics in the catalog go to the function at once,
    or nowhere if the description came with statistics. -/
def ask (i : ℕ) (scan : Scan S) (e : TableEntry S) (column : ColumnId) : World S :=
  let stage : Stage S :=
    if (e.statisticsColumn w.supportsColumnStatistics column).isSome then .acquire
    else if e.columnStatistics.isSome then .done none
    else .function
  { w with calls := w.calls ++ [{ scan := i, entry := scan.entry, version := scan.version, column, stage }] }

/-- Wait until nobody loads the cache; load it if it is stale. -/
def acquire (i : ℕ) (c : Call S) (e : TableEntry S) : Option (World S) :=
  if e.cache.loading then none
  else if e.cache.isStale w.clock then
    some ((w.setCache c.entry e { e.cache with loading := true }).setCall i c .fetch)
  else some (w.setCall i c .read)

def read (i : ℕ) (c : Call S) (e : TableEntry S) : World S :=
  let found := (e.statisticsColumn w.supportsColumnStatistics c.column).bind fun name => e.cache.entries.lookup name
  let stage : Stage S := match found with
    | some stats => .done (some stats)
    | none => if e.columnStatistics.isSome then .done none else .function
  w.setCall i c stage

/-- The statistics of the scan function, for the bind of the scan. -/
def function (i : ℕ) (c : Call S) (scan : Scan S) (reply : Option (List (Bytes × S))) : World S :=
  match c.column with
  | .rowId | .empty => w.setCall i c (.done none)
  | .index n =>
    match scan.allColumnNames[n]? with
    | none => w.setCall i c (.done none)
    | some name =>
      let fetched : ColumnStats S := (reply.getD []).map fun x => (x.1, ⟨x.2, scan.version⟩)
      let cache := if scan.statisticsFetched then scan.statisticsCache else fetched
      let scan := { scan with statisticsFetched := true, statisticsCache := cache }
      { w with scans := w.scans.set c.scan scan }.setCall i c (.done (cache.lookup name))

/-- The entry that a lookup may give: the shared one, whoever it was made for, or one for the
    `AT` clause in the transaction. Copies of scans have an `AT` clause and the shared entry. -/
abbrev MayBind (e : TableEntry S) (v : Version) : Prop := e.version.at' = {} ∨ e.version = v

/-- The call of this number, at a stage, with the entry it is about. -/
def callAt (i : ℕ) (stage : Stage S → Bool) : Option (Call S × TableEntry S) := do
  let c ← w.calls[i]?
  if stage c.stage then
    let e ← w.entries[c.entry]?
    return (c, e)
  else none

end World

def step (w : World S) : Action S → Option (World S)
  | .tick => some { w with clock := w.clock + 1 }
  | .load e => some { w with entries := w.entries ++ [{ e with cache := {} }] }
  | .bind k version allColumnNames => do
    let e ← w.entries[k]?
    if World.MayBind e version then
      return { w with scans := w.scans ++ [{ entry := k, version, allColumnNames }] }
    else none
  | .ask i column => do
    let scan ← w.scans[i]?
    let e ← w.entries[scan.entry]?
    return w.ask i scan e column
  | .acquire i => do
    let (c, e) ← w.callAt i (· matches .acquire)
    w.acquire i c e
  | .fetch i reply => do
    let (c, e) ← w.callAt i (· matches .fetch)
    return w.setCall i c (.publish (e.fetchStatistics c.version reply))
  | .publish i => do
    let (c, e) ← w.callAt i (· matches .publish _)
    match c.stage with
    | .publish fetched => some ((w.setCache c.entry e (e.published fetched w.clock)).setCall i c .read)
    | _ => none
  | .read i => do
    let (c, e) ← w.callAt i (· matches .read)
    return w.read i c e
  | .function i reply => do
    let (c, _) ← w.callAt i (· matches .function)
    let scan ← w.scans[c.scan]?
    return w.function i c scan reply

def machine : Machine (World S) (Action S) := ⟨step⟩

/-! ## Statistics of the version that is scanned -/

namespace World

variable (w : World S)

/-- All statistics in the cache of the entry were produced for the version. -/
abbrev Stamped (k : ℕ) (v : Version) : Prop :=
  ∀ e ∈ w.entries[k]?, ∀ x ∈ e.cache.entries, x.2.producedFor = v

abbrev Stale (k : ℕ) : Prop := ∀ e ∈ w.entries[k]?, e.cache.isStale w.clock = true

/-- Statistics that are fetched for a scan of the version are produced for this version. -/
abbrev Sourced (k : ℕ) (v : Version) : Prop := ∀ e ∈ w.entries[k]?, e.source v = v

/-- No other version is being asked about at the entry. -/
abbrev Alone (k : ℕ) (v : Version) : Prop :=
  ∀ c ∈ w.calls, c.entry = k → c.stage.pending = true → c.version = v

end World

/-- The use of an entry that keeps versions apart. When statistics of the table are asked for,
    they would be fetched for the version of the scan; those that are cached were fetched for it
    or are stale; and nobody else is in the midst of fetching or reading those of another. -/
abbrev rule (w : World S) : Action S → Prop
  | .ask i column => ∀ scan ∈ w.scans[i]?, ∀ e ∈ w.entries[scan.entry]?,
    (e.statisticsColumn w.supportsColumnStatistics column).isSome = true →
      w.Sourced scan.entry scan.version ∧ (w.Stale scan.entry ∨ w.Stamped scan.entry scan.version) ∧
        w.Alone scan.entry scan.version
  | _ => True

instance (w : World S) (a : Action S) : Decidable (rule w a) := by
  rcases a <;> infer_instance

/-- What is known of a call at its stage. -/
def World.CallOk (w : World S) (c : Call S) : Prop :=
  match c.stage with
  | .acquire => w.Sourced c.entry c.version ∧ (w.Stale c.entry ∨ w.Stamped c.entry c.version)
  | .fetch => w.Sourced c.entry c.version
  | .publish fetched => ∀ r, fetched = some r → ∀ x ∈ r.1, x.2.producedFor = c.version
  | .read => w.Stamped c.entry c.version
  | .function => True
  | .done answer => ∀ stats, answer = some stats → stats.producedFor = c.version

structure Inv (w : World S) : Prop where
  calls : ∀ c ∈ w.calls, w.CallOk c
  /-- Calls that use one entry at a time are about one version. -/
  alone : ∀ c ∈ w.calls, c.stage.pending = true → w.Alone c.entry c.version
  scans : ∀ c ∈ w.calls, ∃ scan, w.scans[c.scan]? = some scan ∧ scan.version = c.version
  functions : ∀ scan ∈ w.scans, ∀ x ∈ scan.statisticsCache, x.2.producedFor = scan.version
  known : ∀ c ∈ w.calls, c.entry < w.entries.length

section Lemmas

variable {w w' : World S} {i k : ℕ} {c d : Call S} {e : TableEntry S} {v : Version}

theorem callAt_eq_some {stage : Stage S → Bool} (h : w.callAt i stage = some (c, e)) :
    c ∈ w.calls ∧ w.calls[i]? = some c ∧ stage c.stage = true ∧ w.entries[c.entry]? = some e := by
  obtain ⟨c₀, hc, h⟩ := bind_eq_some_iff.1 h
  split_ifs at h with hst
  obtain ⟨e₀, he, h⟩ := bind_eq_some_iff.1 h
  cases h
  exact ⟨mem_of_getElem? hc, hc, hst, he⟩

theorem isStale_mono {cache : StatsCache S} {now : ℕ} (h : cache.isStale now = true) :
    cache.isStale (now + 1) = true := by
  simp only [StatsCache.isStale, Bool.or_eq_true, Bool.and_eq_true, Bool.not_eq_true', beq_iff_eq,
    decide_eq_true_eq, decide_eq_false_iff_not] at h ⊢
  obtain h | ⟨hag, h⟩ := h
  · exact .inl h
  · exact .inr ⟨hag, by omega⟩

theorem mem_of_lookup {stats : ColumnStats S} {name : Bytes} {x : Stats S} (h : stats.lookup name = some x) :
    ∃ y ∈ stats, y.2 = x := by
  induction stats with
  | nil => exact nomatch h
  | cons y stats ih =>
    rw [lookup_cons] at h
    split at h
    · exact ⟨y, mem_cons_self, some.inj h⟩
    · obtain ⟨z, hz, rfl⟩ := ih h
      exact ⟨z, mem_cons_of_mem _ hz, rfl⟩

/-- Fetched statistics are produced for the version that the entry has them fetched for. -/
theorem mem_fetchStatistics {reply : Option (List (Bytes × S) × ℤ)} {r : ColumnStats S × ℤ}
    (h : e.fetchStatistics v reply = some r) : ∀ x ∈ r.1, x.2.producedFor = e.source v := by
  unfold TableEntry.fetchStatistics at h
  intro x hx
  split at h <;>
  · obtain ⟨_, -, rfl⟩ := map_eq_some_iff.1 h
    obtain ⟨_, -, rfl⟩ := List.mem_map.1 hx
    rfl

section

variable (he : w.entries[k]? = some e) (cache : StatsCache S)

include he cache

/-- The entries after one of them got another cache. -/
theorem entries_setCache {j : ℕ} {e' : TableEntry S} (h : (w.setCache k e cache).entries[j]? = some e') :
    (j = k ∧ e' = { e with cache }) ∨ (j ≠ k ∧ w.entries[j]? = some e') := by
  have hlt := (List.getElem?_eq_some_iff.1 he).1
  rcases eq_or_ne k j with rfl | hne
  · rw [World.setCache, getElem?_set_self hlt] at h
    exact .inl ⟨rfl, (some.inj h).symm⟩
  · rw [World.setCache, getElem?_set_ne hne] at h
    exact .inr ⟨hne.symm, h⟩

theorem sourced_setCache {j : ℕ} (h : w.Sourced j v) : (w.setCache k e cache).Sourced j v := by
  intro e' he'
  obtain ⟨rfl, rfl⟩ | ⟨-, he'⟩ := entries_setCache he cache he'
  · exact h e he
  · exact h e' he'

theorem stamped_setCache {j : ℕ} (hch : j = k → ∀ x ∈ cache.entries, x.2.producedFor = v) (h : j ≠ k → w.Stamped j v) :
    (w.setCache k e cache).Stamped j v := by
  intro e' he'
  obtain ⟨rfl, rfl⟩ | ⟨hne, he'⟩ := entries_setCache he cache he'
  · exact hch rfl
  · exact h hne e' he'

end

/-- A call stays as it was if its entry goes on to have what it needs. -/
theorem World.CallOk.frame (h : w.CallOk d) (hsr : w.Sourced d.entry d.version → w'.Sourced d.entry d.version)
    (hstm : d.stage.pending = true → w.Stamped d.entry d.version → w'.Stamped d.entry d.version)
    (hst : d.stage.pending = true → w.Stale d.entry → w'.Stale d.entry ∨ w'.Stamped d.entry d.version) :
    w'.CallOk d := by
  obtain ⟨scan, entry, version, column, stage⟩ := d
  cases stage with
  | acquire => exact ⟨hsr h.1, h.2.elim (hst rfl) fun hs => .inr (hstm rfl hs)⟩
  | fetch => exact hsr h
  | publish fetched => exact h
  | read => exact hstm rfl h
  | function => trivial
  | done answer => exact h

end Lemmas

namespace Inv

variable {w w' : World S} {i : ℕ} {c : Call S} {e : TableEntry S}

theorem start (supports : Bool) : Inv ({ supportsColumnStatistics := supports } : World S) where
  calls := fun _ hc => absurd hc not_mem_nil
  alone := fun _ hc => absurd hc not_mem_nil
  scans := fun _ hc => absurd hc not_mem_nil
  functions := fun _ hc => absurd hc not_mem_nil
  known := fun _ hc => absurd hc not_mem_nil

section

variable (h : Inv w)

include h

/-- One call goes to its next stage, and the others stay as they were. -/
theorem move (hc : c ∈ w.calls) {stage : Stage S} (hcl : w'.calls = w.calls.set i { c with stage })
    (hlen : w'.entries.length = w.entries.length) (hscn : ∀ (j : ℕ) (scan : Scan S), w.scans[j]? = some scan →
      ∃ scan', w'.scans[j]? = some scan' ∧ scan'.version = scan.version)
    (hfn : ∀ scan ∈ w'.scans, ∀ x ∈ scan.statisticsCache, x.2.producedFor = scan.version)
    (hfr : ∀ d ∈ w.calls, w.CallOk d → w'.CallOk d) (hnew : w'.CallOk { c with stage })
    (hpn : stage.pending = true → c.stage.pending = true) : Inv w' := by
  -- each call was there before, with its entry and its version
  have hold : ∀ d ∈ w'.calls, ∃ d₀ ∈ w.calls, d₀.scan = d.scan ∧ d₀.entry = d.entry ∧ d₀.version = d.version ∧
      (d.stage.pending = true → d₀.stage.pending = true) := by
    intro d hd
    rw [hcl] at hd
    obtain hd | rfl := mem_or_eq_of_mem_set hd
    · exact ⟨d, hd, rfl, rfl, rfl, id⟩
    · exact ⟨c, hc, rfl, rfl, rfl, hpn⟩
  refine ⟨?_, ?_, ?_, hfn, ?_⟩
  · intro d hd
    rw [hcl] at hd
    obtain hd | rfl := mem_or_eq_of_mem_set hd
    · exact hfr d hd (h.calls d hd)
    · exact hnew
  · intro d hd hp d' hd' hent hp'
    obtain ⟨d₀, hd₀, -, he, hv, hpd⟩ := hold d hd
    obtain ⟨d₁, hd₁, -, he', hv', hpd'⟩ := hold d' hd'
    rw [← hv, ← hv']
    exact h.alone d₀ hd₀ (hpd hp) d₁ hd₁ (he'.trans (hent.trans he.symm)) (hpd' hp')
  · intro d hd
    obtain ⟨d₀, hd₀, hs, -, hv, -⟩ := hold d hd
    obtain ⟨scan, hsc, hver⟩ := h.scans d₀ hd₀
    obtain ⟨scan', hsc', hver'⟩ := hscn d₀.scan scan hsc
    exact ⟨scan', hs ▸ hsc', hver'.trans (hver.trans hv)⟩
  · intro d hd
    obtain ⟨d₀, hd₀, -, he, -⟩ := hold d hd
    rw [hlen, ← he]
    exact h.known d₀ hd₀

/-- A call goes to its next stage and nothing else happens. -/
theorem setCall (hc : c ∈ w.calls) {stage : Stage S} (hnew : w.CallOk { c with stage })
    (hpn : stage.pending = true → c.stage.pending = true) : Inv (w.setCall i c stage) :=
  h.move hc rfl rfl (fun _ scan hsc => ⟨scan, hsc, rfl⟩) h.functions
    (fun _ _ hd => hd.frame id (fun _ => id) fun _ => .inl) hnew hpn

theorem tick : Inv { w with clock := w.clock + 1 } where
  calls c hc := (h.calls c hc).frame id (fun _ => id) fun _ hst => .inl fun e he => isStale_mono (hst e he)
  __ := h

theorem bind (scan : Scan S) (hsc : scan.statisticsCache = []) : Inv { w with scans := w.scans ++ [scan] } where
  calls c hc := (h.calls c hc).frame id (fun _ => id) fun _ => .inl
  __ := h
  scans c hc := by
    obtain ⟨scan', hsc', hv⟩ := h.scans c hc
    exact ⟨scan', getElem?_append_left (List.getElem?_eq_some_iff.1 hsc').1 ▸ hsc', hv⟩
  functions scan' hsc' := by
    obtain hsc' | hsc' := mem_append.1 hsc'
    · exact h.functions scan' hsc'
    · obtain rfl := mem_singleton.1 hsc'
      rw [hsc]
      exact nofun

theorem ask {scan : Scan S} {column : ColumnId} (hsc : w.scans[i]? = some scan)
    (he : w.entries[scan.entry]? = some e) (hrl : rule w (.ask i column)) : Inv (w.ask i scan e column) := by
  have hst : ∀ stage,
      (stage.pending = true → stage = .acquire ∧ w.Sourced scan.entry scan.version ∧
        (w.Stale scan.entry ∨ w.Stamped scan.entry scan.version) ∧ w.Alone scan.entry scan.version) →
      (stage.pending = false → stage = .function ∨ stage = .done none) →
      Inv { w with calls := w.calls ++ [⟨i, scan.entry, scan.version, column, stage⟩] } := by
    intro stage hp hnp
    refine ⟨?_, ?_, ?_, h.functions, ?_⟩
    · intro d hd
      obtain hd | hd := mem_append.1 hd
      · exact (h.calls d hd).frame id (fun _ => id) fun _ => .inl
      obtain rfl := mem_singleton.1 hd
      cases hpn : stage.pending with
      | true =>
        obtain ⟨rfl, hsr, hch, -⟩ := hp hpn
        exact ⟨hsr, hch⟩
      | false =>
        obtain rfl | rfl := hnp hpn
        · trivial
        · exact nofun
    · intro d hd hpd d' hd' hent hpd'
      rcases mem_append.1 hd with hd | hd <;> rcases mem_append.1 hd' with hd' | hd'
      · exact h.alone d hd hpd d' hd' hent hpd'
      · obtain rfl := mem_singleton.1 hd'
        exact ((hp hpd').2.2.2 d hd hent.symm hpd).symm
      · obtain rfl := mem_singleton.1 hd
        exact (hp hpd).2.2.2 d' hd' hent hpd'
      · obtain rfl := mem_singleton.1 hd
        obtain rfl := mem_singleton.1 hd'
        rfl
    · intro d hd
      obtain hd | hd := mem_append.1 hd
      · exact h.scans d hd
      · obtain rfl := mem_singleton.1 hd
        exact ⟨scan, hsc, rfl⟩
    · intro d hd
      obtain hd | hd := mem_append.1 hd
      · exact h.known d hd
      · obtain rfl := mem_singleton.1 hd
        exact (List.getElem?_eq_some_iff.1 he).1
  unfold World.ask
  split_ifs with hcl hin
  · exact hst _ (fun _ => ⟨rfl, hrl scan hsc e he hcl⟩) nofun
  · exact hst _ nofun fun _ => .inr rfl
  · exact hst _ nofun fun _ => .inl rfl

theorem acquire (hc : c ∈ w.calls) (hst : c.stage = .acquire) (he : w.entries[c.entry]? = some e)
    (hw : w.acquire i c e = some w') : Inv w' := by
  have hok := h.calls c hc
  rw [World.CallOk, hst] at hok
  have hpn : c.stage.pending = true := by rw [hst]; rfl
  unfold World.acquire at hw
  split_ifs at hw with hld hstl <;> cases hw
  · refine h.move hc rfl length_set (fun _ scan hsc => ⟨scan, hsc, rfl⟩) h.functions ?_
      (sourced_setCache he _ hok.1) fun _ => hpn
    -- the flag does not count for what the cache has or how old it is
    intro d _ hd
    refine hd.frame (sourced_setCache he _) (fun _ hs => ?_) fun _ hs => .inl ?_
    · exact stamped_setCache he _ (fun hk => hs e (hk ▸ he)) fun _ => hs
    · intro e' he'
      obtain ⟨hk, rfl⟩ | ⟨-, he'⟩ := entries_setCache he _ he'
      · exact hs e (hk ▸ he)
      · exact hs e' he'
  · refine h.setCall hc (hok.2.resolve_left fun hs => ?_) fun _ => hpn
    exact hstl (hs e he)

theorem publish (hc : c ∈ w.calls) {fetched : Option (ColumnStats S × ℤ)}
    (hst : c.stage = .publish fetched) (he : w.entries[c.entry]? = some e) :
    Inv ((w.setCache c.entry e (e.published fetched w.clock)).setCall i c .read) := by
  have hok := h.calls c hc
  rw [World.CallOk, hst] at hok
  have hpn : c.stage.pending = true := by rw [hst]; rfl
  have hpb : ∀ x ∈ (e.published fetched w.clock).entries, x.2.producedFor = c.version := by
    intro x hx
    cases fetched with
    | none => exact absurd hx not_mem_nil
    | some r => exact hok r rfl x hx
  -- whoever else uses the entry is about the same version
  have hstm : ∀ d ∈ w.calls, d.stage.pending = true → (d.entry ≠ c.entry → w.Stamped d.entry d.version) →
      (w.setCache c.entry e (e.published fetched w.clock)).Stamped d.entry d.version := by
    intro d hd hpd hot
    refine stamped_setCache he _ (fun hk => ?_) hot
    rw [h.alone c hc hpn d hd hk hpd]
    exact hpb
  refine h.move hc rfl length_set (fun _ scan hsc => ⟨scan, hsc, rfl⟩) h.functions ?_
    (hstm c hc hpn fun hne => absurd rfl hne) fun _ => hpn
  intro d hd hdk
  refine hdk.frame (sourced_setCache he _) (fun hpd hs => hstm d hd hpd fun _ => hs) fun hpd hs => ?_
  rcases eq_or_ne d.entry c.entry with hk | hk
  · exact .inr (hstm d hd hpd fun hne => absurd hk hne)
  · refine .inl fun e' he' => ?_
    obtain ⟨hk', -⟩ | ⟨-, he'⟩ := entries_setCache he _ he'
    · exact absurd hk' hk
    · exact hs e' he'

theorem read (hc : c ∈ w.calls) (hst : c.stage = .read) (he : w.entries[c.entry]? = some e) : Inv (w.read i c e) := by
  have hok := h.calls c hc
  rw [World.CallOk, hst] at hok
  unfold World.read
  dsimp only
  split
  · rename_i stats hfn
    obtain ⟨name, -, hlk⟩ := bind_eq_some_iff.1 hfn
    obtain ⟨y, hy, rfl⟩ := mem_of_lookup hlk
    refine h.setCall hc ?_ nofun
    intro stats hsts
    cases hsts
    exact hok e he y hy
  · split_ifs
    · exact h.setCall hc nofun nofun
    · exact h.setCall hc trivial nofun

theorem function (hc : c ∈ w.calls) {scan : Scan S} (hsc : w.scans[c.scan]? = some scan)
    (reply : Option (List (Bytes × S))) : Inv (w.function i c scan reply) := by
  have hno : Inv (w.setCall i c (.done none)) := h.setCall hc nofun nofun
  obtain ⟨scan', hsc', hver⟩ := h.scans c hc
  obtain rfl := some.inj (hsc.symm.trans hsc')
  unfold World.function
  split
  · exact hno
  · exact hno
  split
  · exact hno
  rename_i name _
  dsimp only
  generalize hch : (if scan.statisticsFetched then scan.statisticsCache
    else (reply.getD []).map fun x => (x.1, ⟨x.2, scan.version⟩) : ColumnStats S) = cache
  have hst : ∀ x ∈ cache, x.2.producedFor = scan.version := by
    intro x hx
    subst hch
    split_ifs at hx
    · exact h.functions scan (mem_of_getElem? hsc) x hx
    · obtain ⟨_, -, rfl⟩ := List.mem_map.1 hx
      rfl
  have hlt := (List.getElem?_eq_some_iff.1 hsc).1
  refine h.move hc rfl rfl (fun j scan₀ hsc₀ => ?_) ?_ (fun _ _ hd => hd.frame id (fun _ => id) fun _ => .inl) ?_ nofun
  · rcases eq_or_ne c.scan j with rfl | hne
    · obtain rfl := some.inj (hsc.symm.trans hsc₀)
      exact ⟨_, getElem?_set_self hlt, rfl⟩
    · exact ⟨scan₀, (getElem?_set_ne hne).trans hsc₀, rfl⟩
  · intro scan₀ hsc₀
    obtain hsc₀ | rfl := mem_or_eq_of_mem_set hsc₀
    · exact h.functions scan₀ hsc₀
    · exact hst
  · intro stats hsts
    obtain ⟨y, hy, rfl⟩ := mem_of_lookup hsts
    exact (hst y hy).trans hver

theorem load (e : TableEntry S) : Inv { w with entries := w.entries ++ [{ e with cache := {} }] } := by
  -- the entries that calls are about have been there before
  have hent : ∀ c ∈ w.calls, (w.entries ++ [{ e with cache := {} }])[c.entry]? = w.entries[c.entry]? :=
    fun c hc => getElem?_append_left (h.known c hc)
  refine { h with calls := fun c hc => (h.calls c hc).frame ?_ (fun _ => ?_) fun _ hs => .inl ?_, known := ?_ }
  · exact fun hs e' he' => hs e' (hent c hc ▸ he')
  · exact fun hs e' he' => hs e' (hent c hc ▸ he')
  · exact fun e' he' => hs e' (hent c hc ▸ he')
  · intro c hc
    have hlt := h.known c hc
    rw [length_append]
    omega

theorem step {a : Action S} (hrl : rule w a) (hw : machine.step w a = some w') : Inv w' := by
  cases a with
  | tick =>
    cases hw
    exact h.tick
  | load e =>
    cases hw
    exact h.load e
  | bind k version names =>
    obtain ⟨e, -, hw⟩ := bind_eq_some_iff.1 hw
    split_ifs at hw
    cases hw
    exact h.bind _ rfl
  | ask j column =>
    obtain ⟨scan, hsc, hw⟩ := bind_eq_some_iff.1 hw
    obtain ⟨e, he, hw⟩ := bind_eq_some_iff.1 hw
    cases hw
    exact h.ask hsc he hrl
  | acquire j =>
    obtain ⟨⟨c, e⟩, hcl, hw⟩ := bind_eq_some_iff.1 hw
    obtain ⟨hc, -, hst, he⟩ := callAt_eq_some hcl
    refine h.acquire hc ?_ he hw
    cases hs : c.stage <;> simp_all
  | fetch j reply =>
    obtain ⟨⟨c, e⟩, hcl, hw⟩ := bind_eq_some_iff.1 hw
    obtain ⟨hc, -, hst, he⟩ := callAt_eq_some hcl
    cases hw
    have hs : c.stage = .fetch := by cases hs : c.stage <;> simp_all
    have hok := h.calls c hc
    rw [World.CallOk, hs] at hok
    refine h.setCall hc (fun r hr x hx => ?_) fun _ => by rw [hs]; rfl
    rw [mem_fetchStatistics hr x hx]
    exact hok e he
  | publish j =>
    obtain ⟨⟨c, e⟩, hcl, hw⟩ := bind_eq_some_iff.1 hw
    obtain ⟨hc, -, -, he⟩ := callAt_eq_some hcl
    dsimp only at hw
    split at hw
    · rename_i fetched hs
      cases hw
      exact h.publish hc hs he
    · exact nomatch hw
  | read j =>
    obtain ⟨⟨c, e⟩, hcl, hw⟩ := bind_eq_some_iff.1 hw
    obtain ⟨hc, -, hst, he⟩ := callAt_eq_some hcl
    cases hw
    refine h.read hc ?_ he
    cases hs : c.stage <;> simp_all
  | function j reply =>
    obtain ⟨⟨c, e⟩, hcl, hw⟩ := bind_eq_some_iff.1 hw
    obtain ⟨hc, -, -, -⟩ := callAt_eq_some hcl
    obtain ⟨scan, hsc, hw⟩ := bind_eq_some_iff.1 hw
    cases hw
    exact h.function hc hsc reply

end

end Inv

/-- In every run that keeps the versions apart, statistics that are given for a column of a scan were
    produced by the worker for the version of the table and in the transaction that the scan is bound in. -/
theorem statistics_of_scan_version {supports : Bool} {actions : List (Action S)} {w : World S}
    (hrule : machine.Along rule { supportsColumnStatistics := supports } actions)
    (hrun : machine.run { supportsColumnStatistics := supports } actions = some w) {i : ℕ} {c : Call S}
    {stats : Stats S} (hc : w.calls[i]? = some c) (hdone : c.stage = .done (some stats)) :
    ∃ scan, w.scans[c.scan]? = some scan ∧ stats.producedFor = scan.version := by
  have hinv := Machine.run_invariant_along (fun h => h.step) (Inv.start supports) hrule hrun
  have hmem := mem_of_getElem? hc
  obtain ⟨scan, hsc, hver⟩ := hinv.scans c hmem
  have hok := hinv.calls c hmem
  rw [World.CallOk, hdone] at hok
  exact ⟨scan, hsc, (hok stats rfl).trans hver.symm⟩

/-- A scan of the current version, with statistics that are asked for. -/
def currentScan : List (Action ℕ) :=
  [.load { version := { transaction := [1] }, physicalColumns := [[7]] }, .bind 0 { transaction := [1] } [[7]],
    .ask 0 (.index 0), .acquire 0, .fetch 0 (some ([([7], 5)], -1)), .publish 0, .read 0]

theorem statistics_of_scan_version_current : ∃ w c, machine.run {} currentScan = some w ∧
    w.calls[0]? = some c ∧ c.stage = .done (some ⟨5, { transaction := [1] }⟩) ∧
    ∃ scan, w.scans[c.scan]? = some scan ∧ (⟨[1], {}⟩ : Version) = scan.version := by
  have hrl : machine.Along rule ({} : World ℕ) currentScan := by decide +kernel
  exact ⟨_, _, rfl, rfl, rfl, statistics_of_scan_version (i := 0) hrl rfl rfl rfl⟩

/-- A scan with an `AT` clause gets the statistics of the current version, and a scan in another
    transaction those that were fetched in the first. -/
theorem statistics_of_other_version :
    (∃ w c, machine.run {} [
        .load { version := ⟨[1], ⟨[2], [3]⟩⟩, physicalColumns := [[7]] }, .bind 0 ⟨[1], ⟨[2], [3]⟩⟩ [[7]],
        .ask 0 (.index 0), .acquire 0, .fetch 0 (some ([([7], 5)], -1)), .publish 0, .read 0] = some w ∧
      w.calls[0]? = some c ∧ c.version = ⟨[1], ⟨[2], [3]⟩⟩ ∧ c.stage = .done (some ⟨5, ⟨[1], {}⟩⟩)) ∧
    ∃ w c, machine.run {} (currentScan ++ [.bind 0 { transaction := [2] } [[7]], .ask 1 (.index 0),
        .acquire 1, .read 1]) = some w ∧
      w.calls[1]? = some c ∧ c.version = { transaction := [2] } ∧
      c.stage = .done (some ⟨5, { transaction := [1] }⟩) :=
  ⟨⟨_, _, rfl, rfl, rfl, rfl⟩, _, _, rfl, rfl, rfl, rfl⟩

end Vgi.EntryStatistics
