import Vgi.Exchange.Key
import Vgi.Exchange.MemoRefines

/-!
# What the keys of memos tell apart

A scalar keeps a value for each tuple of its arguments, and a LATERAL function also the rows for a whole chunk
of its input. The values of a function are in an arena that is found by the fingerprint of its static key, each
in a slot with the sort key of the tuple; the rows of a chunk are in the cache, under the static key with a hash
of the sort keys of its rows.

The constants of a scalar are in its static key as one text (`canonArgs`), in which they are not quoted. The
types of the other arguments are in no key at all, and a sort key is that of physical values.

* `constants_separated_iff`: when two lists of constants have different keys;
* `separated_iff`: when calls over columns of different types never get each other's results.
-/

namespace Vgi

open MemoArena List Option

/-! ## Constants -/

/-- The constants one after the other, each followed by a unit separator. -/
def canonArgs {V : Type*} (toStr : V → Bytes) (constValues : List V) : Bytes :=
  constValues.foldl (fun out v => out ++ toStr v ++ [31]) []

theorem canonArgs_eq_joined {V : Type*} (toStr : V → Bytes) (constValues : List V) :
    canonArgs toStr constValues = joined 31 (constValues.map toStr) :=
  foldl_eq_joined (fun _ _ => rfl) constValues

/-- A call of a scalar, without its arguments that are no constants. -/
structure ScalarMemo (V : Type) where
  resultCacheSetting : Option Bool := none
  attach : ExchangeAttach
  catalog : Option CatalogRef := none
  functionName : Bytes
  schemaName : Bytes := []
  constValues : List V := []
  settings : StringMap V := ⟨[], StringMap.sorted_nil⟩
  secretDependent : Bool := false
  secretScope : Bytes := []
  /-- The text of the type that it returns. -/
  resultType : Bytes

def ScalarMemo.exchangeCall {V : Type} (toStr : V → Bytes) (f : ScalarMemo V) : ExchangeCall V where
  resultCacheSetting := f.resultCacheSetting
  attach := f.attach
  catalog := f.catalog
  functionName := f.functionName
  schemaName := f.schemaName
  canonicalArguments := canonArgs toStr f.constValues
  settings := f.settings
  secretDependent := f.secretDependent
  secretScope := f.secretScope
  operatorKind := ascii "scalar" ++ [31] ++ f.resultType

/-- Two lists of constants have different static keys, and fingerprints of different texts, unless they are
    confused: at the first place where they differ, one constant begins as the other one with what follows it. -/
theorem constants_separated_iff {V : Type} {toStr : V → Bytes} (f : ScalarMemo V) (constValues constValues' : List V)
    {keyed keyed' : ResultCacheKey × Bytes}
    (h : ({ f with constValues }.exchangeCall toStr).staticKey toStr = .ok keyed)
    (h' : ({ f with constValues := constValues' }.exchangeCall toStr).staticKey toStr = .ok keyed') :
    (constValues ≠ constValues' →
      keyed.1 ≠ keyed'.1 ∧ keyed.1.fingerprintText ≠ keyed'.1.fingerprintText) ↔
      ¬Confused 31 toStr constValues constValues' ∧ ¬Confused 31 toStr constValues' constValues := by
  have hks : keyed.1 = keyed'.1 ↔ canonArgs toStr constValues = canonArgs toStr constValues' := by
    rw [ExchangeCall.staticKey_eq_iff h h']
    exact ⟨fun hag => hag.arguments, fun har =>
      ⟨fun i i' hi hi' => by obtain rfl := Except.ok.inj (hi.symm.trans hi'); exact ⟨rfl, rfl⟩, rfl, rfl, rfl, har,
        rfl, rfl, rfl, rfl, rfl, rfl, rfl⟩⟩
  rw [canonArgs_eq_joined, canonArgs_eq_joined, joined_map_eq_iff] at hks
  constructor
  · intro hsep
    exact ⟨fun hc => (hsep hc.ne).1 (hks.2 (.inr (.inl hc))), fun hc => (hsep hc.ne.symm).1 (hks.2 (.inr (.inr hc)))⟩
  rintro ⟨hc, hc'⟩ hne
  have hkey : keyed.1 ≠ keyed'.1 := fun heq => by
    rcases hks.1 heq with hsm | hcn | hcn
    · exact hne hsm
    · exact hc hcn
    · exact hc' hcn
  exact ⟨hkey, fun htx => hkey (ResultCacheKey.fingerprintText_inj htx)⟩

/-- Constants of some types. -/
inductive SmallConstant
  | null
  | integer (n : ℤ)
  | varchar (s : Bytes)
  deriving DecidableEq

open SmallConstant

/-- `Value::ToString`. -/
def SmallConstant.toStr : SmallConstant → Bytes
  | .null => ascii "NULL"
  | .integer n => decimal n
  | .varchar s => s

def smallScalar (constValues : List SmallConstant) : ScalarMemo SmallConstant :=
  { attach := { workerPath := ascii "w", identityFingerprint := ascii "anonymous" }
    functionName := ascii "f"
    constValues := constValues
    resultType := ascii "VARCHAR" }

theorem integers_told_apart :
    ∃ keyed keyed', ((smallScalar [.integer 1, .integer 12]).exchangeCall toStr).staticKey
        toStr = .ok keyed ∧
      ((smallScalar [.integer 11, .integer 2]).exchangeCall toStr).staticKey toStr =
        .ok keyed' ∧ keyed.1.fingerprintText ≠ keyed'.1.fingerprintText := by
  refine ⟨_, _, rfl, rfl, ?_⟩
  refine ((constants_separated_iff (smallScalar []) [.integer 1, .integer 12] [.integer 11, .integer 2] rfl rfl).2
    ⟨?_, ?_⟩ (by decide)).2
  · exact not_confused_of_notMem (by decide) (by decide)
  · exact not_confused_of_notMem (by decide) (by decide)

/-- The two lists differ and have one static key. -/
def Merged (cs cs' : List SmallConstant) : Prop :=
  cs ≠ cs' ∧ ∃ keyed,
    ((smallScalar cs).exchangeCall toStr).staticKey toStr = .ok keyed ∧
    ((smallScalar cs').exchangeCall toStr).staticKey toStr = .ok keyed

/-- NULL and the text of it, a number and the text of it, and a separator that moves from one text to the next. -/
theorem constants_merged :
    Merged [.null] [.varchar (ascii "NULL")] ∧ Merged [.integer 1] [.varchar (ascii "1")] ∧
    Merged [.varchar (97 :: 31 :: ascii "b"), .varchar (ascii "c")]
      [.varchar (ascii "a"), .varchar (98 :: 31 :: ascii "c")] :=
  ⟨⟨by decide, _, rfl, rfl⟩, ⟨by decide, _, rfl, rfl⟩, ⟨by decide, _, rfl, rfl⟩⟩

/-! ## Types -/

/-- Sort keys of DuckDB: which values there are of a type, and how rows of values are encoded. Of a type only its
    layout is used, such as the width and the signedness of integers. -/
structure SortKeyEncoder (Typ Layout Cell : Type) where
  valid : Typ → Cell → Prop
  layout : Typ → Layout
  encode : List (Layout × Cell) → Bytes

namespace SortKeyEncoder

variable {Typ Layout Cell : Type} (enc : SortKeyEncoder Typ Layout Cell)

/-- `InputRowSortKeys`, of one row. -/
def rowKey (types : List Typ) (row : List Cell) : Bytes :=
  if types.isEmpty then [] else enc.encode ((types.map enc.layout).zip row)

def IsRow (types : List Typ) (row : List Cell) : Prop := List.Forall₂ enc.valid types row

/-- The text that `HashInputChunkUnordered` digests. -/
def chunkText (types : List Typ) (chunk : List (List Cell)) : Bytes :=
  if chunk.isEmpty || types.isEmpty then ascii "vgi-exchange-empty-input"
  else
    decimal chunk.length ++ ascii ":" ++
      ((chunk.map (enc.rowKey types)).mergeSort fun a b => decide (a ≤ b)).flatMap lengthPrefixed

/-- No row of one has the sort key of a row of the other. -/
def Disjoint (types types' : List Typ) : Prop :=
  ∀ row row', enc.IsRow types row → enc.IsRow types' row' → enc.rowKey types row ≠ enc.rowKey types' row'

/-- Chunks with one text have a row each with one sort key. -/
theorem exists_rowKey_eq {types types' : List Typ} {chunk chunk' : List (List Cell)} (hch : chunk ≠ [])
    (hch' : chunk' ≠ []) (hts : types ≠ []) (hts' : types' ≠ [])
    (h : enc.chunkText types chunk = enc.chunkText types' chunk') :
    ∃ row ∈ chunk, ∃ row' ∈ chunk', enc.rowKey types row = enc.rowKey types' row' := by
  rw [chunkText, if_neg (by simp [hch, hts]), chunkText, if_neg (by simp [hch', hts'])] at h
  have hsr := flatMap_lengthPrefixed_inj (decimal_colon_inj h).2
  -- The same keys in the same order.
  have hpr : (chunk.map (enc.rowKey types)).Perm (chunk'.map (enc.rowKey types')) := by
    refine (mergeSort_perm _ fun a b => decide (a ≤ b)).symm.trans ?_
    rw [hsr]
    exact mergeSort_perm _ _
  obtain ⟨row, hrow⟩ := exists_mem_of_ne_nil chunk hch
  obtain ⟨row', hrow', heq⟩ := List.mem_map.1 (hpr.subset (List.mem_map_of_mem hrow))
  exact ⟨row, hrow, row', hrow', heq.symm⟩

end SortKeyEncoder

/-- A call with memos: what its static key is built from, and the types of its arguments. A LATERAL call also
    looks up whole chunks, which have at least one column. -/
structure MemoCall (V Typ : Type) where
  call : ExchangeCall V
  inputTypes : List Typ
  chunkTypes : Option (List Typ) := none
  columns : ∀ types ∈ chunkTypes, types ≠ []

variable {V Typ Layout Cell : Type}

def ScalarMemo.memoCall (toStr : V → Bytes) (f : ScalarMemo V) (inputTypes : List Typ) : MemoCall V Typ where
  call := f.exchangeCall toStr
  inputTypes := inputTypes
  columns _ h := absurd h (not_mem_none _)

/-- A LATERAL call. -/
structure LateralMemo (V : Type) where
  resultCacheSetting : Option Bool := none
  attach : ExchangeAttach
  catalog : Option CatalogRef := none
  functionName : Bytes
  schemaName : Bytes := []
  /-- The text of its arguments that are no columns. -/
  canonicalArguments : Bytes := []
  settings : StringMap V := ⟨[], StringMap.sorted_nil⟩
  projectionPushdown : Bool := false
  workerColumnIds : List ℤ := []
  secretDependent : Bool := false
  secretScope : Bytes := []
  /-- The texts of the types of the worker's columns. -/
  workerTypes : List Bytes

def LateralMemo.memoCall (f : LateralMemo V) (inputTypes outerTypes : List Typ)
    (hcolumns : inputTypes ++ outerTypes ≠ []) : MemoCall V Typ where
  call := {
    resultCacheSetting := f.resultCacheSetting
    attach := f.attach
    catalog := f.catalog
    functionName := f.functionName
    schemaName := f.schemaName
    canonicalArguments := f.canonicalArguments
    settings := f.settings
    projectionIds := if f.projectionPushdown then f.workerColumnIds else []
    secretDependent := f.secretDependent
    secretScope := f.secretScope
    operatorKind := f.workerTypes.foldl (fun kind typ => kind ++ [31] ++ typ) (ascii "lateral") }
  inputTypes := inputTypes
  chunkTypes := some (inputTypes ++ outerTypes)
  columns _ h := mem_some_iff.1 h ▸ hcolumns

namespace MemoCall

variable (toStr : V → Bytes) (sha256Hex : Bytes → Bytes) (enc : SortKeyEncoder Typ Layout Cell)

/-- The name of the arena of the call. -/
def arenaName (x : MemoCall V Typ) : Option Bytes :=
  match x.call.staticKey toStr with
  | .error _ => none
  | .ok (key, _) => some (key.fingerprint sha256Hex)

/-- The key under which the result for a chunk is looked up. -/
def chunkKey (x : MemoCall V Typ) (types : List Typ) (chunk : List (List Cell)) : Option ResultCacheKey :=
  match x.call.staticKey toStr with
  | .error _ => none
  | .ok (key, _) => some { key with inputHash := sha256Hex (enc.chunkText types chunk) }

/-- The slots that a call uses. -/
def Uses (x : MemoCall V Typ) (key : Bytes) : Prop :=
  ∃ row, enc.IsRow x.inputTypes row ∧ key = enc.rowKey x.inputTypes row

/-- An operation on an arena, with the keys that it stores. -/
def storedKeys {ρ : Type} : MemoArena.Action ρ → List Bytes
  | .store _ _ specs _ _ _ => specs.map (·.key)
  | _ => []

/-- In every run of the arena that two calls share, each of them storing for its own rows, a probe of the first for
    one of its rows that hits is for a slot that the other has not stored. -/
def ValuesApart (x y : MemoCall V Typ) : Prop :=
  ∀ name, x.arenaName toStr sha256Hex = some name → y.arenaName toStr sha256Hex = some name →
    ∀ (ρ : Type) (clock : ℤ) (acts : List (MemoArena.Action ρ × Bool)) (w : MemoArena.World ρ),
      machine.run { clock } (acts.map Prod.fst) = some w →
      (∀ act ∈ acts, ∀ key ∈ storedKeys act.1, (if act.2 then y else x).Uses enc key) →
      ∀ key now r, x.Uses enc key → w.clock ≤ now → w.arena.probe [key] now = some r → r.hit = [true] →
        ∀ act ∈ acts, act.2 = true → key ∉ storedKeys act.1

/-- No chunk of the one is looked up under the key of a chunk of the other. -/
def ChunksApart (x y : MemoCall V Typ) : Prop :=
  ∀ types ∈ x.chunkTypes, ∀ types' ∈ y.chunkTypes, ∀ chunk chunk', chunk ≠ [] → chunk' ≠ [] →
    (∀ row ∈ chunk, enc.IsRow types row) → (∀ row ∈ chunk', enc.IsRow types' row) →
    ∀ key, x.chunkKey toStr sha256Hex enc types chunk = some key →
      y.chunkKey toStr sha256Hex enc types' chunk' ≠ some key

def Separated (x y : MemoCall V Typ) : Prop :=
  x.ValuesApart toStr sha256Hex enc y ∧ y.ValuesApart toStr sha256Hex enc x ∧ x.ChunksApart toStr sha256Hex enc y

variable {toStr sha256Hex enc} {x : MemoCall V Typ} {key : ResultCacheKey} {label : Bytes}

theorem chunkKey_eq_some (h : x.call.staticKey toStr = .ok (key, label)) (types : List Typ) (chunk : List (List Cell)) :
    x.chunkKey toStr sha256Hex enc types chunk =
      some { key with inputHash := sha256Hex (enc.chunkText types chunk) } := by
  rw [chunkKey, h]

theorem arenaName_eq_some (h : x.call.staticKey toStr = .ok (key, label)) :
    x.arenaName toStr sha256Hex = some (key.fingerprint sha256Hex) := by
  rw [arenaName, h]

/-- A value that is stored is found. -/
theorem exists_hit (key : Bytes) :
    ∃ (w : MemoArena.World Unit) (r : ArenaProbeResult Unit),
      machine.run { clock := 0 } [.store inOrder [()] [⟨key, 1, -1⟩] 0 0 true] = some w ∧
      w.clock ≤ 0 ∧ w.arena.probe [key] 0 = some r ∧ r.hit = [true] := by
  let act : MemoArena.Action Unit := .store inOrder [()] [⟨key, 1, -1⟩] 0 0 true
  have hact : MemoArena.Admissible { clock := 0 } act := by
    refine ⟨le_rfl, rfl, ?_⟩
    exact (toFinset_card_le _).trans (show 1 ≤ VgiMemoArena.kMaxSlots by norm_num [VgiMemoArena.kMaxSlots])
  obtain ⟨w, hw, hinv⟩ := (inv_start 0).perform hact
  have hst : machine.step { clock := 0 } act = some w := (machine_step hact).trans hw
  rw [perform] at hw
  obtain ⟨arena, -, rfl⟩ := map_eq_some_iff.1 hw
  obtain ⟨r, hr, han⟩ := hinv.refines.probe le_rfl [key]
  refine ⟨_, r, Machine.run_cons.2 ⟨_, hst, rfl⟩, le_rfl, hr, ?_⟩
  rw [han.hit]
  simp [Memo.store, Memo.put, Memo.fresh, MemoValue.isStale]

variable {y : MemoCall V Typ}

theorem disjoint_of_valuesApart {name : Bytes} (hx : x.arenaName toStr sha256Hex = some name)
    (hy : y.arenaName toStr sha256Hex = some name) (h : x.ValuesApart toStr sha256Hex enc y) :
    enc.Disjoint x.inputTypes y.inputTypes := by
  intro row row' hrow hrow' hkey
  obtain ⟨w, r, hrun, hcl, hpr, hhit⟩ := exists_hit (enc.rowKey x.inputTypes row)
  refine h name hx hy Unit 0 [(.store inOrder [()] [⟨_, 1, -1⟩] 0 0 true, true)] w hrun ?_ _ 0 r ⟨row, hrow, rfl⟩
    hcl hpr hhit _ mem_cons_self rfl mem_cons_self
  intro act hact key hst
  obtain rfl := mem_singleton.1 hact
  obtain rfl := mem_singleton.1 hst
  exact ⟨row', hrow', hkey⟩

theorem valuesApart_of_disjoint (h : enc.Disjoint x.inputTypes y.inputTypes) : x.ValuesApart toStr sha256Hex enc y := by
  intro _ _ _ _ _ acts _ _ hown key _ _ ⟨row, hrow, hkey⟩ _ _ _ act hact hot hst
  have hus := hown act hact key hst
  rw [hot, if_pos rfl] at hus
  obtain ⟨row', hrow', hkey'⟩ := hus
  exact h row row' hrow hrow' (hkey.symm.trans hkey')

/-- The digests of chunks of these columns tell their texts apart. -/
def DigestsApart (sha256Hex : Bytes → Bytes) (enc : SortKeyEncoder Typ Layout Cell) (types types' : List Typ) : Prop :=
  ∀ chunk chunk', chunk ≠ [] → chunk' ≠ [] → (∀ row ∈ chunk, enc.IsRow types row) →
    (∀ row ∈ chunk', enc.IsRow types' row) →
    sha256Hex (enc.chunkText types chunk) = sha256Hex (enc.chunkText types' chunk') →
    enc.chunkText types chunk = enc.chunkText types' chunk'

theorem chunksApart_iff {label' : Bytes} (hx : x.call.staticKey toStr = .ok (key, label))
    (hy : y.call.staticKey toStr = .ok (key, label')) :
    x.ChunksApart toStr sha256Hex enc y ↔ ∀ types ∈ x.chunkTypes, ∀ types' ∈ y.chunkTypes,
      enc.Disjoint types types' ∧ DigestsApart sha256Hex enc types types' := by
  constructor
  · intro h types hts types' hts'
    have hap : ∀ chunk chunk', chunk ≠ [] → chunk' ≠ [] → (∀ row ∈ chunk, enc.IsRow types row) →
        (∀ row ∈ chunk', enc.IsRow types' row) →
        sha256Hex (enc.chunkText types chunk) ≠ sha256Hex (enc.chunkText types' chunk') := by
      intro chunk chunk' hch hch' hrw hrw' hsh
      refine h types hts types' hts' chunk chunk' hch hch' hrw hrw' _ (chunkKey_eq_some hx _ _) ?_
      rw [chunkKey_eq_some hy, hsh]
    refine ⟨fun row row' hrow hrow' hkey => ?_, fun chunk chunk' hch hch' hrw hrw' hsh =>
      absurd hsh (hap chunk chunk' hch hch' hrw hrw')⟩
    -- A chunk of one row has only its sort key.
    refine hap [row] [row'] (cons_ne_nil _ _) (cons_ne_nil _ _) (by simpa using hrow)
      (by simpa using hrow') (congrArg _ ?_)
    rw [SortKeyEncoder.chunkText, if_neg (by simp [x.columns types hts]), SortKeyEncoder.chunkText,
      if_neg (by simp [y.columns types' hts']), map_singleton, map_singleton, hkey]
    rfl
  · intro h types hts types' hts' chunk chunk' hch hch' hrw hrw' k hk hk'
    obtain ⟨hdj, hdg⟩ := h types hts types' hts'
    rw [chunkKey_eq_some hx] at hk
    rw [chunkKey_eq_some hy] at hk'
    have hsh := congrArg ResultCacheKey.inputHash (some.inj (hk.trans hk'.symm))
    obtain ⟨row, hrow, row', hrow', hkey⟩ := enc.exists_rowKey_eq hch hch' (x.columns types hts)
      (y.columns types' hts') (hdg chunk chunk' hch hch' hrw hrw' hsh)
    exact hdj row row' (hrw row hrow) (hrw' row' hrow') hkey

/-- Calls that agree in all that their static keys are made of, over columns of any types, never get each other's
    results exactly if no row of the one has the sort key of a row of the other. (For whole chunks of a LATERAL
    call, also the digests have to tell them apart.) -/
theorem separated_iff {x y : MemoCall V Typ} {keyed keyed' : ResultCacheKey × Bytes}
    (hx : x.call.staticKey toStr = .ok keyed) (hy : y.call.staticKey toStr = .ok keyed')
    (hagrees : x.call.Agrees toStr y.call) :
    x.Separated toStr sha256Hex enc y ↔ enc.Disjoint x.inputTypes y.inputTypes ∧
      ∀ types ∈ x.chunkTypes, ∀ types' ∈ y.chunkTypes,
        enc.Disjoint types types' ∧ DigestsApart sha256Hex enc types types' := by
  obtain ⟨key, label⟩ := keyed
  obtain ⟨key', label'⟩ := keyed'
  obtain rfl := (ExchangeCall.staticKey_eq_iff hx hy).2 hagrees
  rw [Separated, chunksApart_iff hx hy]
  constructor
  · rintro ⟨hvl, -, hch⟩
    exact ⟨disjoint_of_valuesApart (arenaName_eq_some hx) (arenaName_eq_some hy) hvl, hch⟩
  · rintro ⟨hdj, hch⟩
    have hdj' : enc.Disjoint y.inputTypes x.inputTypes := fun row row' hrow hrow' hkey =>
      hdj row' row hrow' hrow hkey.symm
    exact ⟨valuesApart_of_disjoint hdj, valuesApart_of_disjoint hdj', hch⟩

end MemoCall

/-! ## Decimals of two scales -/

/-- `DECIMAL(4, scale)`, whose values are unscaled. -/
structure SmallDecimal where
  scale : ℕ
  deriving DecidableEq

/-- Two bytes with the sign bit flipped, after one that says that there is a value. -/
def decimalKeys : SortKeyEncoder SmallDecimal Unit ℤ where
  valid _ unscaled := -10000 < unscaled ∧ unscaled < 10000
  layout _ := ()
  encode row := row.flatMap fun cell =>
    [1, ((cell.2 + 2 ^ 15) / 256).toNat.toUInt8, ((cell.2 + 2 ^ 15) % 256).toNat.toUInt8]

/-- `describe(x)`, which returns a text. -/
def describeMemo : ScalarMemo Bytes :=
  { attach := { workerPath := ascii "w", identityFingerprint := ascii "anonymous" }
    functionName := ascii "describe"
    resultType := ascii "VARCHAR" }

def describeDecimal (scale : ℕ) : MemoCall Bytes SmallDecimal := describeMemo.memoCall id [⟨scale⟩]

/-- `explode(x)` and `explode(x, y)`, in LATERAL joins. -/
def explodeMemo : LateralMemo Bytes :=
  { attach := { workerPath := ascii "w", identityFingerprint := ascii "anonymous" }
    functionName := ascii "explode"
    workerTypes := [ascii "VARCHAR"] }

def explodeOne : MemoCall Bytes SmallDecimal := explodeMemo.memoCall [⟨1⟩] [] (by decide)

def explodeTwo : MemoCall Bytes SmallDecimal := explodeMemo.memoCall [⟨1⟩, ⟨1⟩] [] (by decide)

/-- LATERAL calls over one column and over two: each column adds three bytes to a sort key. -/
theorem columns_told_apart : explodeOne.Separated id id decimalKeys explodeTwo := by
  obtain ⟨keyed, hkd⟩ : ∃ keyed, explodeOne.call.staticKey id = .ok keyed := ⟨_, rfl⟩
  have hdj : decimalKeys.Disjoint [⟨1⟩] [⟨1⟩, ⟨1⟩] := by
    rintro row row' (_ | ⟨_, _ | _⟩) (_ | ⟨_, _ | ⟨_, _ | _⟩⟩) hkey
    exact absurd (congrArg List.length hkey) (show ¬3 = 6 by decide)
  refine (MemoCall.separated_iff hkd (y := explodeTwo) hkd
    ⟨?_, rfl, rfl, rfl, rfl, rfl, rfl, rfl, rfl, rfl, rfl, rfl⟩).2 ⟨hdj, ?_⟩
  · rintro i i' hi hi'
    obtain rfl := Except.ok.inj (hi.symm.trans hi')
    exact ⟨rfl, rfl⟩
  · rintro types ⟨⟩ types' ⟨⟩
    exact ⟨hdj, fun _ _ _ _ _ _ h => h⟩

/-- `1.5` is found where the result for `0.15` was stored. -/
theorem decimal_memo_crossed :
    (describeDecimal 1).inputTypes ≠ (describeDecimal 2).inputTypes ∧
    (∀ sha256Hex, (describeDecimal 1).arenaName id sha256Hex = (describeDecimal 2).arenaName id sha256Hex) ∧
    decimalKeys.IsRow (describeDecimal 1).inputTypes [15] ∧ decimalKeys.IsRow (describeDecimal 2).inputTypes [15] ∧
    ((machine.run { clock := 0 } [.store inOrder [ascii "0.15"]
      [⟨decimalKeys.rowKey (describeDecimal 2).inputTypes [15], 1, -1⟩] 0 100 false]).bind fun w =>
        (w.arena.probe [decimalKeys.rowKey (describeDecimal 1).inputTypes [15]] 50).map fun r => (r.hit, r.rows)) =
      some ([true], some [ascii "0.15"]) :=
  ⟨by decide, fun _ => rfl, .cons ⟨by decide, by decide⟩ .nil, .cons ⟨by decide, by decide⟩ .nil, by decide +kernel⟩

end Vgi
