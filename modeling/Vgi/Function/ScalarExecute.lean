import Vgi.Cache.Entry
import Vgi.Exchange.MemoRefines
import Vgi.Lib.Fallible
import Vgi.Lib.Grouping
import Vgi.Lib.Text

/-!
# Scalar functions over chunks

A chunk of tuples of arguments is evaluated by sending tuples to the worker, which answers with one value for
each. The tuples are first grouped by their keys, and only the first ones with their keys are sent
(`buildInputDedup`); of these, the ones that the memo of the function has a value for are not sent either. The values
from the memo and those of the worker are put into one order, some of the latter go to the memo, and each tuple
gets the value of the first one with its key.

The keys are those of DuckDB's equality: columns of most types are compared by their physical values, and columns of
floating point numbers, intervals and nested types by their sort keys. `rowExact_iff` says when each tuple gets
the value of the function for it.
-/

namespace Vgi

open List Option

variable {Typ Cell S V : Type} {n : ℕ}

/-! ## Keys of tuples -/

/-- How columns are compared: a `direct` one by its physical values, the others by what sort keys have for a value,
    of which one sees where it ends. -/
structure InputEncoding (Typ Cell : Type) where
  direct : Typ → Bool
  encode : Typ → Cell → Bytes
  encode_ends : ∀ t c c' s s', encode t c ++ s = encode t c' ++ s' → encode t c = encode t c'

namespace InputEncoding

variable (enc : InputEncoding Typ Cell) (types : Fin n → Typ)

/-- `InputRowSortKeys`, of one tuple. -/
def sortKey (row : Fin n → Cell) : Bytes := (List.finRange n).flatMap fun c => enc.encode (types c) (row c)

/-- What `EqualRows` compares: the direct columns, and one sort key of all others. -/
def inputKey (row : Fin n → Cell) : List Cell × Bytes :=
  (((List.finRange n).filter fun c => enc.direct (types c)).map row,
    ((List.finRange n).filter fun c => !enc.direct (types c)).flatMap fun c => enc.encode (types c) (row c))

theorem encode_eq_of_flatMap_eq {cols : List (Fin n)} {row row' : Fin n → Cell}
    (h : (cols.flatMap fun c => enc.encode (types c) (row c)) = cols.flatMap fun c => enc.encode (types c) (row' c)) :
    ∀ c ∈ cols, enc.encode (types c) (row c) = enc.encode (types c) (row' c) := by
  induction cols with
  | nil => exact nofun
  | cons d cols ih =>
    rw [flatMap_cons, flatMap_cons] at h
    have hd := enc.encode_ends _ _ _ _ _ h
    rw [hd] at h
    exact forall_mem_cons.2 ⟨hd, ih (append_cancel_left h)⟩

/-- Tuples with one key have one sort key. -/
theorem sortKey_eq_of_inputKey_eq {row row' : Fin n → Cell} (h : enc.inputKey types row = enc.inputKey types row') :
    enc.sortKey types row = enc.sortKey types row' := by
  obtain ⟨hdr, hot⟩ := Prod.mk.inj h
  have hen c : enc.encode (types c) (row c) = enc.encode (types c) (row' c) := by
    rcases hc : enc.direct (types c) with _ | _
    · exact enc.encode_eq_of_flatMap_eq types hot c (mem_filter.2 ⟨mem_finRange c, by simp [hc]⟩)
    · rw [map_inj_left.1 hdr c (mem_filter.2 ⟨mem_finRange c, hc⟩)]
  rw [sortKey, sortKey]
  congr 1
  funext c
  exact hen c

end InputEncoding

/-! ## Grouping -/

/-- Which tuples of a chunk are sent, and where each tuple finds its own among them. -/
structure InputDedup where
  n : ℕ := 0
  k : ℕ := 0
  trivial : Bool := true
  distinct : List ℕ := []
  origToDistinct : List ℕ := []

def trivialDedup (n : ℕ) : InputDedup :=
  { n, k := n, distinct := List.range n, origToDistinct := List.range n }

/-- Group the tuples. It is given up (`bypassed`) for large texts of which a sample has few repeats, and when the
    work that is allowed for it is used up. -/
def buildInputDedup [DecidableEq Cell] (enc : InputEncoding Typ Cell) (types : Fin n → Typ)
    (rows : List (Fin n → Cell)) (bypassed : Bool) : InputDedup :=
  if rows.isEmpty || n == 0 || 65536 < rows.length || 2048 < n then trivialDedup rows.length
  else if bypassed then trivialDedup rows.length
  else
    let seen := Grouping.ofRows (fun i => rows[i]?.map (enc.inputKey types)) rows.length
    { n := rows.length
      k := seen.reps.length
      trivial := seen.reps.length == rows.length
      distinct := seen.reps
      origToDistinct := seen.ids }

/-! ## Evaluation -/

/-- A batch that the worker answers with. -/
structure ScalarReply (S V : Type) where
  schema : S
  numColumns : ℕ := 1
  rows : List V
  cacheControl : CacheControl := {}
  /-- `vgi.cache.per_value` of its cache-control. -/
  perValue : Bool := false

/-- The memo of a function. -/
structure MemoEntry (S V : Type) where
  schema : S
  arena : VgiMemoArena V := {}

inductive ScalarError
  | noOutput (inputRows : ℕ)
  | rowCount (returned expected : ℕ)
  | columnCount (returned : ℕ)
  | spliceConcat
  | spliceTake
  /-- A row that is not there is taken. -/
  | outOfRange
  /-- The exchange with the worker throws. -/
  | exchange (message : Bytes)

/-- What the evaluation of a chunk reads, the chunk and the memo apart. -/
structure ScalarEval where
  /-- `vgi_exchange_input_dedup`, `vgi_result_cache_per_value` and `vgi_result_cache_per_value_max_stores_per_chunk`. -/
  dedupSetting : Option Bool := none
  pvSetting : Option Bool := none
  storeCapSetting : Option ℕ := none
  isVolatile : Bool := false
  /-- The function has a static key. -/
  cacheEligible : Bool := true
  /-- The worker has asked for a memo, in an earlier chunk of this evaluation or of another one. -/
  cachePvOptIn : Bool := false
  optInNoted : Bool := false
  cacheDefaultTtlSeconds : ℤ := 0
  bypassed : Bool := false
  /-- When the memo is probed, and when values are stored in it. -/
  probedAt : ℤ
  answeredAt : ℤ
  storedAt : ℤ
  order : VisitOrder

open ScalarEval

namespace ScalarEval

variable (c : ScalarEval)

def dedupEnabled : Bool := c.dedupSetting.getD true

def pvOptIn : Bool := c.cachePvOptIn || c.cacheEligible && c.optInNoted

def pvEnabled : Bool :=
  c.pvSetting.getD true && c.pvOptIn && c.dedupEnabled && !c.isVolatile && c.cacheEligible

/-- The worker asks for a memo with its answer. -/
def pvStore (fresh : ScalarReply S V) : Bool :=
  fresh.perValue && c.pvSetting.getD true && c.dedupEnabled && !c.isVolatile && c.cacheEligible

/-- How many of the values are stored. -/
def toStore (misses : ℕ) : ℕ :=
  let storeCap := c.storeCapSetting.getD 256
  if storeCap ≠ 0 ∧ storeCap < misses then storeCap else misses

end ScalarEval

def rowsAt {α : Type} (e : ScalarError) (rows : List α) (idx : List ℕ) : Except ScalarError (List α) :=
  match takeRows rows idx with
  | none => .error e
  | some taken => .ok taken

/-- The tuples of which the worker or the memo has to have values. -/
def InputDedup.ship (dedup : InputDedup) (rows : List (Fin n → Cell)) : Except ScalarError (List (Fin n → Cell)) :=
  if dedup.trivial then .ok rows else rowsAt .outOfRange rows dedup.distinct

/-- The values of the tuples of the chunk, from those of the tuples that were grouped out. -/
def InputDedup.scatter (dedup : InputDedup) (output : List V) : Except ScalarError (List V) :=
  if dedup.trivial then .ok output else rowsAt .outOfRange output dedup.origToDistinct

/-- What the memo has. -/
structure MemoProbe (V : Type) where
  hit : List Bool
  cached : Option (List V) := none
  hitCount : ℕ := 0

def probeMemo (c : ScalarEval) (entry : Option (MemoEntry S V)) (blobs : List Bytes) :
    Except ScalarError (MemoProbe V) :=
  if c.pvEnabled then
    match entry with
    | none => .ok { hit := List.replicate blobs.length false }
    | some e =>
      match e.arena.probe blobs c.probedAt with
      | none => .error .outOfRange
      | some pr => .ok {
          hit := if pr.hit.isEmpty then List.replicate blobs.length false else pr.hit
          cached := pr.rows
          hitCount := pr.numHits }
  else .ok { hit := List.replicate blobs.length false }

/-- Send the tuples to the worker. -/
def exchange (worker : List (Fin n → Cell) → Except ScalarError (Option (ScalarReply S V))) (inputRows : ℕ)
    (shipToWorker : List (Fin n → Cell)) : Except ScalarError (ScalarReply S V) := do
  match ← worker shipToWorker with
  | none => .error (.noOutput inputRows)
  | some fresh =>
    if fresh.rows.length ≠ shipToWorker.length then .error (.rowCount fresh.rows.length shipToWorker.length)
    else if fresh.numColumns ≠ 1 then .error (.columnCount fresh.numColumns)
    else .ok fresh

section Execute

variable [DecidableEq S]

/-- `VgiMemoArenaRegistry::GetOrCreate`. -/
def getOrCreate (entry : Option (MemoEntry S V)) (schema : S) : Option (MemoEntry S V) :=
  match entry with
  | none => some { schema }
  | some e => if e.schema = schema then some e else none

/-- Put the values of the memo and those of the worker into the order of the tuples. -/
def splice (entry : Option (MemoEntry S V)) (memo : MemoProbe V) (partialPv : Bool) (fresh : ScalarReply S V) :
    Except ScalarError (List V) :=
  match memo.cached with
  | none => .ok fresh.rows
  | some cached =>
    if partialPv && !cached.isEmpty then
      if !fresh.rows.isEmpty && entry.any (·.schema ≠ fresh.schema) then .error .spliceConcat
      else rowsAt .spliceTake (cached ++ fresh.rows) (splicePerm cached.length memo.hit 0 0)
    else .ok fresh.rows

/-- Store values of the worker, and say which ones. -/
def storeMemo (c : ScalarEval) (entry : Option (MemoEntry S V)) (blobs : List Bytes) (missIndices : List ℕ)
    (fresh : ScalarReply S V) : Except ScalarError (Option (MemoEntry S V) × List (Bytes × V)) :=
  if c.pvStore fresh && fresh.cacheControl.cacheable && !missIndices.isEmpty then
    match getOrCreate entry fresh.schema with
    | none => .ok (entry, [])
    | some e => do
      let cc := fresh.cacheControl
      let toStore := c.toStore missIndices.length
      let ttl := min (cc.ttlSeconds.getD c.cacheDefaultTtlSeconds) maxTtlSeconds
      let (vref, arena) := e.arena.resolveValidator ⟨cc.scope, cc.etag, cc.lastModified, cc.revalidatable⟩
      let keys ← rowsAt .outOfRange blobs (missIndices.take toStore)
      match arena.store c.order (fresh.rows.take toStore) (keys.map fun key => ⟨key, 1, vref⟩) c.storedAt
          (c.answeredAt + ttl * nsPerSecond) false with
      | none => .error .outOfRange
      | some arena => .ok (some { e with arena }, keys.zip (fresh.rows.take toStore))
  else .ok (entry, [])

/-- The values of the tuples that were grouped out, with what was done to have them. -/
structure Produced (n : ℕ) (Cell S V : Type) where
  output : List V
  sent : Option (List (Fin n → Cell)) := none
  stored : List (Bytes × V) := []
  entry : Option (MemoEntry S V)
  optIn : Bool

def produce (c : ScalarEval) (entry : Option (MemoEntry S V))
    (worker : List (Fin n → Cell) → Except ScalarError (Option (ScalarReply S V))) (inputRows : ℕ)
    (blobs : List Bytes) (ship : List (Fin n → Cell)) (memo : MemoProbe V) :
    Except ScalarError (Produced n Cell S V) :=
  if c.pvEnabled && !ship.isEmpty && memo.hitCount == ship.length then
    match memo.cached with
    | none => .error .outOfRange
    | some output => .ok { output, entry, optIn := c.pvOptIn }
  else do
    let miss := missIndices memo.hit
    let partialPv := c.pvEnabled && decide (0 < memo.hitCount) && decide (miss.length < ship.length)
    let shipToWorker ← (if partialPv then rowsAt .outOfRange ship miss else .ok ship)
    let fresh ← exchange worker inputRows shipToWorker
    let output ← splice entry memo partialPv fresh
    let (entry, stored) ← storeMemo c entry blobs miss fresh
    .ok { output, sent := some shipToWorker, stored, entry, optIn := c.pvOptIn || c.pvStore fresh }

/-- The outcome of a chunk: its values, as a constant vector or a flat one. Without tuples it is a constant NULL. -/
structure ScalarOutcome (n : ℕ) (Cell S V : Type) where
  result : List V
  constant : Bool
  sent : List (Fin n → Cell) := []
  stored : List (Bytes × V) := []
  entry : Option (MemoEntry S V)
  optIn : Bool

/-- `VgiScalarFunctionExecute`, of arguments that have the types of the function. -/
def vgiScalarFunctionExecute [DecidableEq Cell] (enc : InputEncoding Typ Cell) (types : Fin n → Typ) (c : ScalarEval)
    (entry : Option (MemoEntry S V))
    (worker : List (Fin n → Cell) → Except ScalarError (Option (ScalarReply S V))) (rows : List (Fin n → Cell)) :
    Except ScalarError (ScalarOutcome n Cell S V) :=
  if rows.isEmpty then .ok { result := [], constant := true, entry, optIn := c.cachePvOptIn }
  else do
    let dedup := if c.dedupEnabled && !c.isVolatile then buildInputDedup enc types rows c.bypassed else {}
    let ship ← dedup.ship rows
    let blobs := ship.map (enc.sortKey types)
    let memo ← probeMemo c entry blobs
    let p ← produce c entry worker rows.length blobs ship memo
    let result ← dedup.scatter p.output
    .ok {
      result
      constant := rows.length == 1
      sent := p.sent.getD []
      stored := p.stored
      entry := p.entry
      optIn := p.optIn }

end Execute

/-! ## Row exactness -/

namespace ScalarEval

variable (c : ScalarEval)

/-- The tuples are grouped by their keys. -/
def grouped (rows : List (Fin n → Cell)) : Bool :=
  c.dedupEnabled && !c.isVolatile && !(rows.isEmpty || n == 0 || 65536 < rows.length || 2048 < n) && !c.bypassed

variable (enc : InputEncoding Typ Cell) (types : Fin n → Typ)

/-- The tuples that are left when they are grouped. -/
def firsts [DecidableEq Cell] (rows : List (Fin n → Cell)) : List (Fin n → Cell) :=
  if c.grouped rows then firstsBy (enc.inputKey types) rows else rows

/-- The memo is probed and has a value for the tuple. -/
def hits (entry : Option (MemoEntry S V)) (row : Fin n → Cell) : Bool :=
  c.pvEnabled && entry.any fun e => (e.arena.freshSlot c.probedAt (enc.sortKey types row)).isSome

/-- Values of the answer go to the memo. -/
def storing (fresh : ScalarReply S V) : Bool := c.pvStore fresh && fresh.cacheControl.cacheable

end ScalarEval

section Spec

variable [DecidableEq Cell] {enc : InputEncoding Typ Cell} {types : Fin n → Typ} {c : ScalarEval}

theorem rowsAt_eq_ok {α : Type} {e : ScalarError} {rows taken : List α} {idx : List ℕ}
    (h : takeRows rows idx = some taken) : rowsAt e rows idx = .ok taken := by
  rw [rowsAt, h]

variable {rows : List (Fin n → Cell)}

/-- How the tuples are grouped, when they are. -/
theorem dedup_of_grouped (h : c.grouped rows = true) :
    (if c.dedupEnabled && !c.isVolatile then buildInputDedup enc types rows c.bypassed else {}) =
      let seen := Grouping.ofRows (fun i => rows[i]?.map (enc.inputKey types)) rows.length
      { n := rows.length, k := seen.reps.length, trivial := seen.reps.length == rows.length
        distinct := seen.reps, origToDistinct := seen.ids } := by
  rw [grouped, Bool.and_eq_true, Bool.and_eq_true] at h
  obtain ⟨⟨hon, hsz⟩, hbp⟩ := h
  rw [if_pos hon, buildInputDedup, if_neg (by simpa using hsz), if_neg (by simpa using hbp)]

theorem trivial_of_not_grouped (h : c.grouped rows = false) :
    (if c.dedupEnabled && !c.isVolatile then buildInputDedup enc types rows c.bypassed else {}).trivial = true := by
  split_ifs with hon
  · rw [buildInputDedup]
    split_ifs with hsz hbp
    · rfl
    · rfl
    · rw [grouped, hon] at h
      simp [hsz, hbp] at h
  · rfl

theorem length_reps (rows : List (Fin n → Cell)) :
    (Grouping.ofRows (fun i => rows[i]?.map (enc.inputKey types)) rows.length).reps.length =
      (firstsBy (enc.inputKey types) rows).length := by
  have h := congrArg List.length (takeRows_eq_some.1 (takeRows_reps (enc.inputKey types) rows))
  rwa [length_map, length_map] at h

theorem ship_eq (rows : List (Fin n → Cell)) :
    (if c.dedupEnabled && !c.isVolatile then buildInputDedup enc types rows c.bypassed else {}).ship rows =
      .ok (c.firsts enc types rows) := by
  rw [InputDedup.ship, firsts]
  rcases hgrouped : c.grouped rows with _ | _
  · rw [trivial_of_not_grouped hgrouped]
    rfl
  rw [dedup_of_grouped hgrouped, if_pos rfl]
  split_ifs with htrivial
  · -- all keys are different
    rw [(firstsBy_sublist _ rows).eq_of_length ((length_reps rows).symm.trans (beq_iff_eq.1 htrivial))]
  · exact rowsAt_eq_ok (takeRows_reps _ rows)

/-- Each tuple gets the value of a tuple that is left, of itself or of one with its key. -/
def Scattered (enc : InputEncoding Typ Cell) (types : Fin n → Typ) (c : ScalarEval) (f : (Fin n → Cell) → V)
    (rows : List (Fin n → Cell)) (result : List V) : Prop :=
  List.Forall₂ (fun row v => ∃ first ∈ c.firsts enc types rows,
    (first = row ∨ c.grouped rows = true ∧ enc.inputKey types first = enc.inputKey types row) ∧ v = f first)
    rows result

variable (enc types c) in
theorem exists_scatter (f : (Fin n → Cell) → V) (rows : List (Fin n → Cell)) :
    ∃ result, (if c.dedupEnabled && !c.isVolatile then buildInputDedup enc types rows c.bypassed else {}).scatter
        ((c.firsts enc types rows).map f) = .ok result ∧ Scattered enc types c f rows result := by
  have hself (h : c.firsts enc types rows = rows) : Scattered enc types c f rows ((c.firsts enc types rows).map f) := by
    rw [Scattered, h, forall₂_map_right_iff]
    exact forall₂_same.2 fun row hrow => ⟨row, hrow, .inl rfl, rfl⟩
  rcases hgrouped : c.grouped rows with _ | _
  · have hfirsts : c.firsts enc types rows = rows := by
      rw [firsts, hgrouped]
      rfl
    exact ⟨_, if_pos (trivial_of_not_grouped hgrouped), hself hfirsts⟩
  have hfirsts : c.firsts enc types rows = firstsBy (enc.inputKey types) rows := if_pos hgrouped
  rw [dedup_of_grouped hgrouped, InputDedup.scatter]
  split_ifs with htrivial
  · refine ⟨_, rfl, hself ?_⟩
    rw [hfirsts]
    exact (firstsBy_sublist _ rows).eq_of_length ((length_reps rows).symm.trans (beq_iff_eq.1 htrivial))
  · obtain ⟨out, hout, hrows⟩ := exists_takeRows_ids (enc.inputKey types) rows f
    refine ⟨out, ?_, ?_⟩
    · rw [hfirsts]
      exact rowsAt_eq_ok hout
    · rw [Scattered, hfirsts]
      refine hrows.imp fun row v => ?_
      rintro ⟨first, hfirst, hkey, hv⟩
      exact ⟨first, hfirst, .inr ⟨hgrouped, hkey⟩, hv⟩

theorem mem_of_mem_firsts {row : Fin n → Cell} (h : row ∈ c.firsts enc types rows) : row ∈ rows := by
  rw [firsts] at h
  split_ifs at h
  · exact mem_of_mem_firstsBy h
  · exact h

/-- The values are right if tuples that are not told apart have the same. -/
theorem Scattered.eq_iff {f : (Fin n → Cell) → V} {result : List V} (h : Scattered enc types c f rows result) :
    result = rows.map f ↔ (c.grouped rows = true → ∀ row ∈ rows, ∀ row' ∈ rows,
      enc.inputKey types row = enc.inputKey types row' → f row = f row') := by
  have hres : result = rows.map f ↔ List.Forall₂ (fun row v => v = f row) rows result := by
    rw [← forall₂_eq_eq_eq, forall₂_map_right_iff]
    exact ⟨List.Forall₂.flip, List.Forall₂.flip⟩
  rw [hres]
  constructor
  · intro hex hgrouped
    -- the value of a tuple is that of the first one with its key
    have hfirst (row) (hrow : row ∈ rows) : ∃ first ∈ firstsBy (enc.inputKey types) rows,
        enc.inputKey types first = enc.inputKey types row ∧ f row = f first := by
      obtain ⟨i, hi, rfl⟩ := getElem_of_mem hrow
      have hi' : i < result.length := h.length_eq ▸ hi
      obtain ⟨first, hmem, hkey, hv⟩ := forall₂_iff_get.1 h |>.2 i hi hi'
      have hv' := (forall₂_iff_get.1 hex).2 i hi hi'
      rw [firsts, if_pos hgrouped] at hmem
      refine ⟨first, hmem, ?_, hv'.symm.trans hv⟩
      rcases hkey with rfl | ⟨-, hkey⟩
      · rfl
      · exact hkey
    intro row hrow row' hrow' hkey
    obtain ⟨first, hmem, hfk, hf⟩ := hfirst row hrow
    obtain ⟨first', hmem', hfk', hf'⟩ := hfirst row' hrow'
    rw [hf, hf', eq_of_mem_firstsBy hmem hmem' (hfk.trans (hkey.trans hfk'.symm))]
  · intro hsm
    refine forall₂_iff_get.2 ⟨h.length_eq, fun i hi hi' => ?_⟩
    obtain ⟨first, hmem, hkey, hv⟩ := forall₂_iff_get.1 h |>.2 i hi hi'
    rw [hv]
    rcases hkey with rfl | ⟨hgrouped, hkey⟩
    · rfl
    · exact hsm hgrouped first (mem_of_mem_firsts hmem) _ (List.get_mem _ _) hkey

/-- The tuples that are left and missed are those that missed, each once, if those that are not told apart are
    the same, or, without grouping, if none of them is repeated. -/
theorem sent_iff (c : ScalarEval) {missed : (Fin n → Cell) → Bool} (rows : List (Fin n → Cell))
    (hms : ∀ row row', enc.inputKey types row = enc.inputKey types row' → missed row = missed row') :
    (((c.firsts enc types rows).filter missed).Nodup ∧
        ∀ row, row ∈ (c.firsts enc types rows).filter missed ↔ row ∈ rows ∧ missed row) ↔
      if c.grouped rows then ∀ row ∈ rows, ∀ row' ∈ rows, missed row → missed row' →
        enc.inputKey types row = enc.inputKey types row' → row = row' else (rows.filter missed).Nodup := by
  rw [firsts]
  split_ifs with hgrouped
  · constructor
    · rintro ⟨-, hmem⟩ row hrow row' hrow' hm hm' hkey
      have hfirst := mem_of_mem_filter ((hmem row).2 ⟨hrow, hm⟩)
      have hfirst' := mem_of_mem_filter ((hmem row').2 ⟨hrow', hm'⟩)
      exact eq_of_mem_firstsBy hfirst hfirst' hkey
    · intro hsm
      refine ⟨(nodup_map_firstsBy _ rows).of_map.filter missed, fun row => ?_⟩
      rw [mem_filter]
      refine ⟨fun h => ⟨mem_of_mem_firstsBy h.1, h.2⟩, fun h => ⟨?_, h.2⟩⟩
      obtain ⟨hrow, hm⟩ := h
      obtain ⟨first, hfirst, hkey⟩ := exists_mem_firstsBy (enc.inputKey types) hrow
      have hm' : missed first := hms first row hkey ▸ hm
      rw [hsm row hrow first (mem_of_mem_firstsBy hfirst) hm hm' hkey.symm]
      exact hfirst
  · exact ⟨fun h => h.1, fun h => ⟨h, fun row => mem_filter⟩⟩

end Spec

/-! ## The memo -/

/-- The values in the memo are those of `f`, for every tuple with their sort keys. -/
structure MemoEntry.Agrees (enc : InputEncoding Typ Cell) (types : Fin n → Typ) (f : (Fin n → Cell) → V) (schema : S)
    (clock : ℤ) (e : MemoEntry S V) : Prop where
  schema_eq : e.schema = schema
  values : ∃ m, e.arena.Refines m clock ∧
    m.All fun key values => ∀ row, enc.sortKey types row = key → values = [f row]

/-- A worker that computes `f`. -/
def scalarAnswer (f : (Fin n → Cell) → V) (schema : S) (cc : CacheControl) (perValue : Bool)
    (rows : List (Fin n → Cell)) : ScalarReply S V :=
  { schema, rows := rows.map f, cacheControl := cc, perValue }

section Memo

variable {enc : InputEncoding Typ Cell} {types : Fin n → Typ} {c : ScalarEval} {f : (Fin n → Cell) → V} {schema : S}
  {clock : ℤ} {entry : Option (MemoEntry S V)}

theorem flatMap_ite_singleton {α β : Type} (p : α → Bool) (g : α → β) (l : List α) :
    (l.flatMap fun x => if p x then [g x] else []) = (l.filter p).map g := by
  induction l with
  | nil => rfl
  | cons x l ih =>
    rw [flatMap_cons, ih, filter_cons]
    split_ifs <;> rfl

/-- Of some tuples the memo has the values of those that hit. -/
structure MemoProbe.Has (p : (Fin n → Cell) → Bool) (f : (Fin n → Cell) → V) (ship : List (Fin n → Cell))
    (memo : MemoProbe V) : Prop where
  hit : memo.hit = ship.map p
  cached : memo.cached.getD [] = (ship.filter p).map f
  hitCount : memo.hitCount = (ship.filter p).length

theorem exists_probeMemo (hagrees : ∀ e ∈ entry, e.Agrees enc types f schema clock) (hcl : clock ≤ c.probedAt)
    (ship : List (Fin n → Cell)) :
    ∃ memo, probeMemo c entry (ship.map (enc.sortKey types)) = .ok memo ∧ memo.Has (c.hits enc types entry) f ship := by
  have hno (hp : ∀ row, c.hits enc types entry row = false) :
      MemoProbe.Has (c.hits enc types entry) f ship
        { hit := List.replicate (ship.map (enc.sortKey types)).length false } := by
    have hfl : ship.filter (c.hits enc types entry) = [] :=
      filter_eq_nil_iff.2 fun row _ => by rw [hp row]; exact Bool.false_ne_true
    refine ⟨?_, ?_, ?_⟩
    · rw [length_map, ← map_const', map_congr_left fun row _ => hp row]
    · rw [hfl]
      rfl
    · rw [hfl]
      rfl
  rcases hpv : c.pvEnabled with _ | _
  · exact ⟨_, if_neg (by simp [hpv]), hno fun row => by rw [hits, hpv, Bool.false_and]⟩
  rcases entry with _ | e
  · exact ⟨_, if_pos hpv, hno fun row => by rw [hits, any_none, Bool.and_false]⟩
  obtain ⟨m, hrefines, hm⟩ := (hagrees e rfl).values
  obtain ⟨pr, hpr, han⟩ := hrefines.probe hcl (ship.map (enc.sortKey types))
  -- a tuple hits if the memo has a value that is not stale
  have hht row : (m.fresh c.probedAt (enc.sortKey types row)).isSome = c.hits enc types (some e) row := by
    rw [hits, hpv, Bool.true_and, any_some, VgiMemoArena.freshSlot_value hrefines hcl, isSome_map]
  have hhit : pr.hit = ship.map (c.hits enc types (some e)) := by
    rw [han.hit, List.map_map]
    exact map_congr_left fun row _ => hht row
  refine ⟨_, by rw [probeMemo, if_pos hpv, hpr], ?_, ?_, ?_⟩
  · dsimp only
    split_ifs with hem
    · rw [hhit, List.isEmpty_iff, map_eq_nil_iff] at hem
      rw [hem]
      rfl
    · exact hhit
  · dsimp only
    rw [han.rows, flatMap_map]
    have hval row : (m.fresh c.probedAt (enc.sortKey types row)).elim [] (·.rows) =
        if c.hits enc types (some e) row then [f row] else [] := by
      rw [← hht]
      rcases hfr : m.fresh c.probedAt (enc.sortKey types row) with _ | v
      · rfl
      · exact hm _ v (eq_some_of_filter_eq_some hfr) row rfl
    simp only [hval]
    exact flatMap_ite_singleton _ f ship
  · dsimp only
    rw [han.numHits, countP_map, countP_eq_length_filter]
    congr 2
    funext row
    exact hht row

theorem exchange_scalarAnswer (cc : CacheControl) (perValue : Bool) (inputRows : ℕ) (rows : List (Fin n → Cell)) :
    exchange (fun rows => .ok (some (scalarAnswer f schema cc perValue rows))) inputRows rows =
      .ok (scalarAnswer f schema cc perValue rows) := by
  have hlen : ¬(scalarAnswer f schema cc perValue rows).rows.length ≠ rows.length := by
    rw [scalarAnswer, length_map, not_not]
  change (if _ then _ else _) = _
  rw [if_neg hlen, if_neg (by simp [scalarAnswer])]

theorem length_missIndices (p : (Fin n → Cell) → Bool) (ship : List (Fin n → Cell)) :
    (missIndices (ship.map p)).length = (ship.filter fun row => !p row).length := by
  have h := congrArg List.length (takeRows_eq_some.1 (takeRows_missIndices p id ship))
  rwa [length_map, length_map, length_map] at h

variable [DecidableEq S] {p : (Fin n → Cell) → Bool} {ship : List (Fin n → Cell)}

/-- The values of the memo and of the worker make those of all tuples. -/
theorem splice_eq {memo : MemoProbe V} {partialPv : Bool} (hme : memo.Has p f ship)
    (hsc : ∀ e ∈ entry, e.schema = schema) (hpr : partialPv = false → ∀ row ∈ ship, p row = false)
    (cc : CacheControl) (perValue : Bool) :
    splice entry memo partialPv (scalarAnswer f schema cc perValue (ship.filter fun row => !p row)) =
      .ok (ship.map f) := by
  have hfr (h : ship.filter p = []) : ((ship.filter fun row => !p row).map f) = ship.map f := by
    rw [filter_eq_self.2 fun row hrow => by simpa using filter_eq_nil_iff.1 h row hrow]
  have hch := hme.cached
  rw [splice]
  rcases hrows : memo.cached with _ | cached
  · rw [hrows] at hch
    exact congrArg Except.ok (hfr (map_eq_nil_iff.1 hch.symm))
  rw [hrows, getD_some] at hch
  dsimp only
  split_ifs with hsm hdf
  · obtain ⟨-, hany⟩ := Bool.and_eq_true_iff.1 hdf
    rcases entry with _ | e
    · cases hany
    · exact absurd (hsc e rfl) (of_decide_eq_true hany)
  · rw [hme.hit, hch]
    exact rowsAt_eq_ok (takeRows_splicePerm p f ship)
  · refine congrArg Except.ok (hfr ?_)
    rcases hpv : partialPv with _ | _
    · exact filter_eq_nil_iff.2 fun row hrow => by rw [hpr hpv row hrow]; exact Bool.false_ne_true
    · rw [hpv, hch] at hsm
      simpa using hsm

/-- The values that are stored with the tuples. -/
theorem specRows_singles (vref : ℤ) (l : List (Fin n → Cell)) :
    VgiMemoArena.specRows ((l.map (enc.sortKey types)).map fun key => ⟨key, 1, vref⟩) (l.map f) =
      l.map fun row => (enc.sortKey types row, [f row]) := by
  induction l with
  | nil => rfl
  | cons row l ih =>
    rw [map_cons, map_cons, map_cons, VgiMemoArena.specRows, map_cons]
    congr 1

/-- The values that a worker's answer has for the memo. -/
def ScalarEval.toMemo (c : ScalarEval) (enc : InputEncoding Typ Cell) (types : Fin n → Typ) (f : (Fin n → Cell) → V)
    (fresh : ScalarReply S V) (missed : List (Fin n → Cell)) : List (Bytes × V) :=
  if c.storing fresh then (missed.take (c.toStore missed.length)).map fun row => (enc.sortKey types row, f row) else []

omit [DecidableEq S] in
theorem toMemo_agrees_iff (fresh : ScalarReply S V) (missed : List (Fin n → Cell)) :
    (∀ x ∈ c.toMemo enc types f fresh missed, ∀ row, enc.sortKey types row = x.1 → x.2 = f row) ↔
      (c.storing fresh = true → ∀ row ∈ missed.take (c.toStore missed.length),
        ∀ row', enc.sortKey types row' = enc.sortKey types row → f row' = f row) := by
  rw [toMemo]
  by_cases hstoring : c.storing fresh = true
  · rw [if_pos hstoring, List.forall_mem_map]
    exact ⟨fun h _ row hrow row' hkey => (h row hrow row' hkey).symm,
      fun h row hrow row' hkey => (h hstoring row hrow row' hkey).symm⟩
  · rw [if_neg hstoring]
    exact ⟨fun _ h => absurd h hstoring, nofun⟩

omit [DecidableEq S] in
theorem MemoEntry.Agrees.mono {e : MemoEntry S V} {now : ℤ} (h : e.Agrees enc types f schema clock)
    (hle : clock ≤ now) : e.Agrees enc types f schema now := by
  obtain ⟨m, hrefines, hm⟩ := h.values
  exact ⟨h.schema_eq, m, hrefines.mono hle, hm⟩

section

variable (hagrees : ∀ e ∈ entry, e.Agrees enc types f schema clock)

include hagrees

/-- There is a memo with the schema of the worker's answers, which agrees with the function. -/
theorem exists_getOrCreate : ∃ e, getOrCreate entry schema = some e ∧ e.Agrees enc types f schema clock := by
  rcases entry with _ | e
  · exact ⟨_, rfl, rfl, _, (MemoArena.inv_start clock).refines, nofun⟩
  · exact ⟨e, if_pos (hagrees e rfl).schema_eq, hagrees e rfl⟩

theorem exists_storeMemo (hcl : clock ≤ c.storedAt)
    (p : (Fin n → Cell) → Bool) (ship : List (Fin n → Cell)) (fresh : ScalarReply S V) (hsch : fresh.schema = schema)
    (hfr : fresh.rows = (ship.filter fun row => !p row).map f) :
    ∃ entry', storeMemo c entry (ship.map (enc.sortKey types)) (missIndices (ship.map p)) fresh =
          .ok (entry', c.toMemo enc types f fresh (ship.filter fun row => !p row)) ∧
      ((∀ x ∈ c.toMemo enc types f fresh (ship.filter fun row => !p row),
          ∀ row, enc.sortKey types row = x.1 → x.2 = f row) →
        ∀ e ∈ entry', e.Agrees enc types f schema c.storedAt) := by
  have hlen := length_missIndices p ship
  have hms := takeRows_missIndices p (enc.sortKey types) ship
  generalize missIndices (ship.map p) = miss at hlen hms ⊢
  generalize ship.filter (fun row => !p row) = missed at hlen hms hfr ⊢
  rw [storeMemo, toMemo, storing]
  by_cases hstoring : (c.pvStore fresh && fresh.cacheControl.cacheable) = true
  swap
  · rw [if_neg hstoring, if_neg fun h => hstoring (Bool.and_eq_true_iff.1 h).1]
    exact ⟨entry, rfl, fun _ e he => (hagrees e he).mono hcl⟩
  rw [if_pos hstoring, hstoring, Bool.true_and]
  by_cases hem : miss = []
  · rw [hem] at hlen
    rw [if_neg (by simp [hem]), length_eq_zero_iff.1 hlen.symm, take_nil]
    exact ⟨entry, rfl, fun _ e he => (hagrees e he).mono hcl⟩
  rw [if_pos (by simpa using hem), hsch]
  obtain ⟨e, hget, hsc, m, hrefines, hm⟩ := exists_getOrCreate hagrees
  rw [hget, hlen, hfr]
  dsimp only
  generalize c.toStore missed.length = k
  generalize hv : e.arena.resolveValidator _ = resolved
  have hrs : resolved.2.Refines m clock := hv ▸ hrefines.resolveValidator _
  obtain ⟨vref, arena⟩ := resolved
  rw [rowsAt_eq_ok (takeRows_take hms k), ← map_take, ← map_take]
  generalize missed.take k = kept
  -- the store succeeds, whatever the values are
  have hrows : (kept.map f).length = (((kept.map (enc.sortKey types)).map fun key =>
      (⟨key, 1, vref⟩ : ArenaStoreSpec)).map (·.length)).sum := by
    simp [Function.comp_def]
  obtain ⟨arena', _, hst, -, -⟩ := hrs.store_all (P := fun _ _ => True) (fun _ _ _ => trivial) hcl c.order
    hrows (fun _ _ => trivial) (c.answeredAt + min (fresh.cacheControl.ttlSeconds.getD c.cacheDefaultTtlSeconds)
      maxTtlSeconds * nsPerSecond) false
  refine ⟨some { e with arena := arena' }, ?_, fun hgd e' he' => ?_⟩
  · change (match arena.store _ _ _ _ _ _ with | none => _ | some arena => _) = _
    rw [hst, zip_map']
  cases he'
  obtain ⟨arena'', m', hst', hrefines', hm'⟩ := hrs.store_all hm hcl c.order hrows (by
    rw [specRows_singles]
    intro x hx row hkey
    obtain ⟨row', hrow', rfl⟩ := List.mem_map.1 hx
    rw [← hgd _ (List.mem_map_of_mem hrow') row hkey]) (c.answeredAt +
      min (fresh.cacheControl.ttlSeconds.getD c.cacheDefaultTtlSeconds) maxTtlSeconds * nsPerSecond) false
  obtain rfl := some.inj (hst.symm.trans hst')
  exact ⟨hsc, m', hrefines', hm'⟩

/-- With the values of the memo and of the worker all tuples have theirs; only those that missed are sent. -/
theorem exists_produce (hcl : clock ≤ c.storedAt)
    (hp : c.pvEnabled = false → ∀ row, p row = false) (hsh : ship ≠ []) {memo : MemoProbe V}
    (hme : memo.Has p f ship) (cc : CacheControl) (perValue : Bool) (inputRows : ℕ) :
    ∃ out, produce c entry (fun rows => .ok (some (scalarAnswer f schema cc perValue rows))) inputRows
        (ship.map (enc.sortKey types)) ship memo = .ok out ∧
      out.output = ship.map f ∧ out.sent.getD [] = ship.filter (fun row => !p row) ∧
      out.stored = c.toMemo enc types f (scalarAnswer f schema cc perValue (ship.filter fun row => !p row))
        (ship.filter fun row => !p row) ∧
      ((∀ x ∈ out.stored, ∀ row, enc.sortKey types row = x.1 → x.2 = f row) →
        ∀ e ∈ out.entry, e.Agrees enc types f schema c.storedAt) := by
  rw [produce]
  split_ifs with hfl
  · -- all hit
    simp only [Bool.and_eq_true, beq_iff_eq] at hfl
    have hall : ship.filter p = ship := filter_sublist.eq_of_length (hme.hitCount.symm.trans hfl.2)
    have hmsd : ship.filter (fun row => !p row) = [] :=
      filter_eq_nil_iff.2 fun row hrow => by simp [filter_eq_self.1 hall row hrow]
    have hch := hme.cached
    rw [hall] at hch
    rcases hrows : memo.cached with _ | output
    · rw [hrows] at hch
      exact absurd (map_eq_nil_iff.1 hch.symm) hsh
    rw [hrows] at hch
    refine ⟨_, rfl, hch, by rw [hmsd]; rfl, ?_, fun _ e he => (hagrees e he).mono hcl⟩
    rw [hmsd, toMemo, take_nil]
    split_ifs <;> rfl
  dsimp only
  rw [hme.hit, hme.hitCount, length_missIndices]
  generalize hpv : (c.pvEnabled && decide (0 < (ship.filter p).length) &&
    decide ((ship.filter fun row => !p row).length < ship.length)) = partialPv
  -- without a hit all tuples are sent
  have hno : partialPv = false → ∀ row ∈ ship, p row = false := by
    rintro rfl row hrow
    by_contra hhit
    have hhit := Bool.eq_true_of_not_eq_false hhit
    have hpos : 0 < (ship.filter p).length := length_pos_of_mem (mem_filter.2 ⟨hrow, hhit⟩)
    have hlt : (ship.filter fun row => !p row).length < ship.length :=
      length_filter_lt_length_iff_exists.2 ⟨row, hrow, by simp [hhit]⟩
    have hen : c.pvEnabled = true := by
      by_contra hof
      exact absurd (hp (Bool.eq_false_of_not_eq_true hof) row) (by simp [hhit])
    simp [hen, hpos, hlt] at hpv
  have hsn : (if partialPv = true then rowsAt .outOfRange ship (missIndices (ship.map p)) else .ok ship) =
      (.ok (ship.filter fun row => !p row) : Except ScalarError _) := by
    split_ifs with h
    · have hms := takeRows_missIndices p id ship
      rw [List.map_id, List.map_id] at hms
      exact rowsAt_eq_ok hms
    · rw [filter_eq_self.2 fun row hrow => by simp [hno (Bool.eq_false_of_not_eq_true h) row hrow]]
  have hsp := splice_eq hme (fun e he => (hagrees e he).schema_eq) hno cc perValue
  obtain ⟨entry', hst, hgd⟩ := exists_storeMemo hagrees hcl p ship
    (scalarAnswer f schema cc perValue (ship.filter fun row => !p row)) rfl rfl
  rw [hsn]
  generalize ship.filter (fun row => !p row) = missed at hsp hst hgd ⊢
  refine ⟨{
    output := ship.map f
    sent := some missed
    stored := c.toMemo enc types f (scalarAnswer f schema cc perValue missed) missed
    entry := entry'
    optIn := c.pvOptIn || c.pvStore (scalarAnswer f schema cc perValue missed) }, ?_, rfl, rfl, rfl, hgd⟩
  refine bind_eq_ok.2 ⟨missed, rfl, bind_eq_ok.2 ⟨_, exchange_scalarAnswer cc perValue inputRows missed, ?_⟩⟩
  exact bind_eq_ok.2 ⟨_, hsp, bind_eq_ok.2 ⟨_, hst, rfl⟩⟩

end

end Memo

/-! ## A whole chunk -/

/-- The outcome of a chunk is exact: each tuple has the value of `f`, the worker was sent the tuples that missed,
    each once, and what was stored is right for every tuple that finds it. -/
structure ScalarOutcome.RowExact (enc : InputEncoding Typ Cell) (types : Fin n → Typ) (f : (Fin n → Cell) → V)
    (rows : List (Fin n → Cell)) (missed : (Fin n → Cell) → Bool) (out : ScalarOutcome n Cell S V) : Prop where
  result : out.result = rows.map f
  sent_once : out.sent.Nodup
  mem_sent : ∀ row, row ∈ out.sent ↔ row ∈ rows ∧ missed row
  stored : ∀ x ∈ out.stored, ∀ row, enc.sortKey types row = x.1 → x.2 = f row

/-- What it takes: tuples of the chunk that are grouped have the same value; of those that miss, none is repeated, or,
    when they are grouped, tuples with the same key are the same; and a tuple of which the value is stored has the
    value of all with its sort key. -/
structure ScalarEval.Faithful [DecidableEq Cell] (c : ScalarEval) (enc : InputEncoding Typ Cell) (types : Fin n → Typ)
    (f : (Fin n → Cell) → V) (rows : List (Fin n → Cell)) (missed : (Fin n → Cell) → Bool) (storing : Bool) :
    Prop where
  grouped : c.grouped rows = true → ∀ row ∈ rows, ∀ row' ∈ rows,
    enc.inputKey types row = enc.inputKey types row' → f row = f row'
  apart : if c.grouped rows then ∀ row ∈ rows, ∀ row' ∈ rows, missed row → missed row' →
      enc.inputKey types row = enc.inputKey types row' → row = row'
    else (rows.filter missed).Nodup
  stored : storing = true → ∀ row ∈ ((c.firsts enc types rows).filter missed).take
      (c.toStore ((c.firsts enc types rows).filter missed).length),
    ∀ row', enc.sortKey types row' = enc.sortKey types row → f row' = f row

variable [DecidableEq Cell] [DecidableEq S]

omit [DecidableEq S] in
/-- Tuples that are grouped by keys which tell them apart. -/
theorem ScalarEval.Faithful.of_injective {c : ScalarEval} {enc : InputEncoding Typ Cell} {types : Fin n → Typ}
    {rows : List (Fin n → Cell)} (hgrouped : c.grouped rows = true) (hkey : Function.Injective (enc.inputKey types))
    (hsort : Function.Injective (enc.sortKey types)) (f : (Fin n → Cell) → V) (missed : (Fin n → Cell) → Bool)
    (storing : Bool) : c.Faithful enc types f rows missed storing where
  grouped _ row _ row' _ h := congrArg f (hkey h)
  apart := by
    rw [if_pos hgrouped]
    exact fun row _ row' _ _ _ h => hkey h
  stored _ row _ row' h := congrArg f (hsort h)

/-- A chunk of any tuples, with any settings and any values of `f` in the memo, is evaluated to an outcome that is
    exact in just these cases; and what is stored leaves the memo with values of `f` if it is right. -/
theorem rowExact_iff (enc : InputEncoding Typ Cell) (types : Fin n → Typ) (c : ScalarEval) (f : (Fin n → Cell) → V)
    (schema : S) (cc : CacheControl) (perValue : Bool) {clock : ℤ} {entry : Option (MemoEntry S V)}
    (hagrees : ∀ e ∈ entry, e.Agrees enc types f schema clock) (hprobed : clock ≤ c.probedAt)
    (hstored : c.probedAt ≤ c.storedAt) (rows : List (Fin n → Cell)) :
    ∃ out, vgiScalarFunctionExecute enc types c entry
        (fun rows => .ok (some (scalarAnswer f schema cc perValue rows))) rows = .ok out ∧
      (out.RowExact enc types f rows (fun row => !c.hits enc types entry row) ↔
        c.Faithful enc types f rows (fun row => !c.hits enc types entry row)
          (c.storing (scalarAnswer f schema cc perValue rows))) ∧
      ((∀ x ∈ out.stored, ∀ row, enc.sortKey types row = x.1 → x.2 = f row) →
        ∀ e ∈ out.entry, e.Agrees enc types f schema c.storedAt) := by
  have hcl : clock ≤ c.storedAt := hprobed.trans hstored
  by_cases hem : rows = []
  · -- without tuples nothing is done
    subst hem
    refine ⟨_, rfl, ⟨fun _ => ⟨?_, ?_, ?_⟩, fun _ => ⟨rfl, nodup_nil, ?_, ?_⟩⟩, fun _ e he => (hagrees e he).mono hcl⟩
    · exact nofun
    · split_ifs
      · exact nofun
      · exact nodup_nil
    · intro _ row hrow
      exact absurd (mem_of_mem_firsts (mem_of_mem_filter (mem_of_mem_take hrow))) not_mem_nil
    · exact fun row => ⟨nofun, fun h => absurd h.1 not_mem_nil⟩
    · exact nofun
  have hfirsts : c.firsts enc types rows ≠ [] := by
    obtain ⟨row, hrow⟩ := exists_mem_of_ne_nil rows hem
    rw [firsts]
    split_ifs
    · obtain ⟨first, hfirst, -⟩ := exists_mem_firstsBy (enc.inputKey types) hrow
      exact ne_nil_of_mem hfirst
    · exact hem
  obtain ⟨memo, hpr, hme⟩ := exists_probeMemo hagrees hprobed (c.firsts enc types rows)
  have hof : c.pvEnabled = false → ∀ row, c.hits enc types entry row = false := fun hof row => by
    rw [hits, hof, Bool.false_and]
  obtain ⟨out, hprd, hot, hsn, hst, hgd⟩ :=
    exists_produce hagrees hcl hof hfirsts hme cc perValue rows.length
  obtain ⟨result, hsc, hres⟩ := exists_scatter enc types c f rows
  have hrun : vgiScalarFunctionExecute enc types c entry
      (fun rows => .ok (some (scalarAnswer f schema cc perValue rows))) rows = .ok {
        result
        constant := rows.length == 1
        sent := out.sent.getD []
        stored := out.stored
        entry := out.entry
        optIn := out.optIn } := by
    rw [vgiScalarFunctionExecute, if_neg (by simpa using hem)]
    refine bind_eq_ok.2 ⟨_, ship_eq rows, bind_eq_ok.2 ⟨memo, hpr, bind_eq_ok.2 ⟨out, hprd, ?_⟩⟩⟩
    rw [hot]
    exact bind_eq_ok.2 ⟨result, hsc, rfl⟩
  refine ⟨_, hrun, ?_, hgd⟩
  -- The three parts, one by one.
  have hex := hres.eq_iff
  have hks (row row' : Fin n → Cell) (hkey : enc.inputKey types row = enc.inputKey types row') :
      (!c.hits enc types entry row) = !c.hits enc types entry row' := by
    rw [hits, hits, enc.sortKey_eq_of_inputKey_eq types hkey]
  have hms := sent_iff c rows hks
  constructor
  · rintro ⟨h₁, h₂, h₃, h₄⟩
    rw [hsn] at h₂ h₃
    rw [hst] at h₄
    exact ⟨hex.1 h₁, hms.1 ⟨h₂, h₃⟩, (toMemo_agrees_iff _ _).1 h₄⟩
  · rintro ⟨h₁, h₂, h₃⟩
    obtain ⟨hon, hmem⟩ := hms.2 h₂
    refine ⟨hex.2 h₁, ?_, ?_, ?_⟩
    · rwa [hsn]
    · rwa [hsn]
    · rw [hst]
      exact (toMemo_agrees_iff _ _).2 h₃

/-! ## Bytes and intervals -/

/-- Columns of bytes, compared by their values. -/
def byteKeys : InputEncoding Unit UInt8 where
  direct _ := true
  encode _ b := [b]
  encode_ends _ b b' s s' h := by rw [(List.cons.inj h).1]

theorem byteKeys_inputKey_injective : Function.Injective (byteKeys.inputKey fun _ : Fin 1 => ()) := by
  intro row row' h
  have hmap := (Prod.mk.inj h).1
  funext c
  exact map_inj_left.1 hmap c (mem_filter.2 ⟨mem_finRange c, rfl⟩)

theorem byteKeys_sortKey_injective : Function.Injective (byteKeys.sortKey fun _ : Fin 1 => ()) := by
  intro row row' h
  funext c
  exact (List.cons.inj (byteKeys.encode_eq_of_flatMap_eq _ h c (mem_finRange c))).1

def byteRow (b : UInt8) : Fin 1 → UInt8 := fun _ => b

/-- `x + 1`. -/
def nextByte (row : Fin 1 → UInt8) : UInt8 := row 0 + 1

def plainEval : ScalarEval :=
  { cachePvOptIn := true, probedAt := 1, answeredAt := 2, storedAt := 3, order := MemoArena.inOrder }

/-- `3, 5, 3` with the value for `3` in the memo. -/
theorem bytes_exact : ∃ (e : MemoEntry Unit UInt8) (out : ScalarOutcome 1 UInt8 Unit UInt8),
    ({} : VgiMemoArena UInt8).store MemoArena.inOrder [4] [⟨[3], 1, -1⟩] 0 100 false = some e.arena ∧
    vgiScalarFunctionExecute byteKeys (fun _ => ()) plainEval (some e)
      (fun rows => .ok (some (scalarAnswer nextByte () { present := true, ttlSeconds := some 60 } true rows)))
      [byteRow 3, byteRow 5, byteRow 3] = .ok out ∧
    out.RowExact byteKeys (fun _ => ()) nextByte [byteRow 3, byteRow 5, byteRow 3]
      (fun row => !plainEval.hits byteKeys (fun _ => ()) (some e) row) := by
  let P : Bytes → List UInt8 → Prop := fun key values =>
    ∀ row, byteKeys.sortKey (fun _ : Fin 1 => ()) row = key → values = [nextByte row]
  have hP : ∀ x ∈ VgiMemoArena.specRows [⟨[3], 1, -1⟩] [4], P x.1 x.2 := by
    intro x hx row hkey
    obtain rfl := mem_singleton.1 hx
    obtain rfl := byteKeys_sortKey_injective (hkey.trans (show _ = byteKeys.sortKey _ (byteRow 3) from rfl))
    rfl
  obtain ⟨arena, m, hst, hrefines, hm⟩ := (MemoArena.inv_start 0).refines.store_all
    nofun le_rfl MemoArena.inOrder rfl hP 100 false
  have hagrees : ∀ e ∈ some (⟨(), arena⟩ : MemoEntry Unit UInt8), e.Agrees byteKeys (fun _ => ()) nextByte () 0 := by
    rintro e he
    cases he
    exact ⟨rfl, m, hrefines, hm⟩
  obtain ⟨out, hrun, hex, -⟩ := rowExact_iff byteKeys (fun _ => ()) plainEval nextByte ()
    { present := true, ttlSeconds := some 60 } true hagrees (by decide) (by decide) [byteRow 3, byteRow 5, byteRow 3]
  exact ⟨⟨(), arena⟩, out, hst, hrun, hex.2 (.of_injective rfl byteKeys_inputKey_injective
    byteKeys_sortKey_injective _ _ _)⟩

/-- Intervals of months and days, with a sort key in which thirty days are a month. -/
def intervalKeys : InputEncoding Unit (ℕ × ℕ) where
  direct _ := false
  encode _ v := [1, (v.1 + v.2 / 30).toUInt8, (v.2 % 30).toUInt8]
  encode_ends _ _ _ _ _ h := append_inj_left h rfl

/-- How many days an interval takes from the first of January on, for the first two months. -/
def daysFromJanuary (row : Fin 1 → ℕ × ℕ) : ℕ := 31 * (row 0).1 + (row 0).2

/-- A month gets 31 days, and thirty days get the value of the month. -/
theorem intervals_merged :
    let rows : List (Fin 1 → ℕ × ℕ) := [fun _ => (1, 0), fun _ => (0, 30)]
    rows.map daysFromJanuary = [31, 30] ∧
    (vgiScalarFunctionExecute intervalKeys (fun _ => ()) plainEval none
      (fun rows => .ok (some (scalarAnswer daysFromJanuary () {} false rows))) rows).toOption.map (·.result) =
        some [31, 31] := by
  decide +kernel

end Vgi
