import Vgi.Scan.PartitionServe

/-!
# When a scan is served exactly

The replay of a scan served from its partitions has the batches of each tuple
requested, as often as the tuple is: once for each way to choose its constants.
So it is exact if and only if each partition column has one filter, whose
constants, cast to the type of the column, are different from each other and
from `NULL` (`servePartitions_exact_iff`). A constant given twice doubles the
rows of its partition; a `NULL` constant, which no row satisfies, brings in the
rows of the `NULL` partition.
-/

namespace Vgi

open List Option FilterExpr

section

variable {V Ty : Type*} [DecidableEq V] (eng : PartitionEngine V Ty)

/-- The filters hold of the tuple, column by column. -/
def satisfiesFilters (cols : List (Ty × List (FilterExpr V))) (w : List V) : Bool :=
  (cols.zip w).all fun cw =>
    cw.1.2.all (holds eng.isNull (eng.defaultCastAs · cw.1.1) cw.2)

/-- The column has one filter, whose constants are different and not `NULL`. -/
def OneFilter (col : Ty × List (FilterExpr V)) : Prop :=
  ∃ f, col.2 = [f] ∧ (f.constants.map (eng.defaultCastAs · col.1)).Nodup ∧
    ∀ c ∈ f.constants, ∀ x, eng.defaultCastAs c col.1 = some x → eng.isNull x = false

/-- How many constants of a column are the value `x`. -/
def countConstants (col : Ty × List (FilterExpr V)) (x : V) : ℕ :=
  (columnConstants col).countP fun c => eng.defaultCastAs c col.1 = some x

variable {eng}

/-! ## Counting tuples -/

variable {w : List V}

theorem castTuple_eq_some_iff {tys : List Ty} {t : List V} (ht : t.length = tys.length) (hw : w.length = tys.length) :
    castTuple eng t tys = some w ↔
      meets (List.zipWith (fun ty x c => eng.defaultCastAs c ty = some x) tys w) t = true := by
  induction tys generalizing t w with
  | nil =>
    obtain rfl := length_eq_zero_iff.1 ht
    obtain rfl := length_eq_zero_iff.1 hw
    simp [castTuple, meets]
  | cons ty tys ih =>
    obtain ⟨c, t, rfl⟩ := exists_cons_of_length_eq_add_one ht
    obtain ⟨x, w, rfl⟩ := exists_cons_of_length_eq_add_one hw
    rw [zipWith_cons_cons, meets, Bool.and_eq_true, decide_eq_true_eq,
      ← ih (by simpa using ht) (by simpa using hw), castTuple]
    cases eng.defaultCastAs c ty <;> cases castTuple eng t tys <;> simp

omit [DecidableEq V] in
theorem length_castTuple {tys : List Ty} {t : List V} (ht : t.length = tys.length) (h : castTuple eng t tys = some w) :
    w.length = tys.length := by
  induction tys generalizing t w with
  | nil =>
    obtain rfl := length_eq_zero_iff.1 ht
    cases h
    rfl
  | cons ty tys ih =>
    obtain ⟨c, t, rfl⟩ := exists_cons_of_length_eq_add_one ht
    rw [castTuple] at h
    split at h
    case h_1 x xs _ hxs =>
      cases h
      rw [length_cons, ih (by simpa using ht) hxs, length_cons]
    case h_2 => exact absurd h (by simp)

variable {cols : List (Ty × List (FilterExpr V))}

/-- A tuple is requested as often as the product of its constants. -/
theorem countP_castTuple (hw : w.length = cols.length) :
    ((product (cols.map columnConstants)).countP fun t =>
        castTuple eng t (cols.map (·.1)) = some w) =
      ((cols.zip w).map fun cw => countConstants eng cw.1 cw.2).prod := by
  have hpt : ∀ t ∈ product (cols.map columnConstants),
      (decide (castTuple eng t (cols.map (·.1)) = some w) = true ↔
        meets (List.zipWith (fun ty x c => eng.defaultCastAs c ty = some x) (cols.map (·.1)) w) t = true) := by
    intro t ht
    rw [decide_eq_true_eq]
    refine castTuple_eq_some_iff ?_ (by rwa [length_map])
    rw [(mem_product_iff.1 ht).length_eq, length_map, length_map]
  rw [countP_congr hpt, countP_product (by simp [hw])]
  congr 1
  clear hpt
  induction cols generalizing w with
  | nil => simp
  | cons col cols ih =>
    obtain ⟨x, w, rfl⟩ := exists_cons_of_length_eq_add_one hw
    rw [map_cons, map_cons, zipWith_cons_cons, zipWith_cons_cons, zip_cons_cons, map_cons, ih (by simpa using hw)]
    rfl

variable {col : Ty × List (FilterExpr V)}

omit [DecidableEq V] in
/-- Each constant is in some tuple requested. -/
theorem exists_tuple_of_constant (eng : PartitionEngine V Ty) (hne : ∀ col ∈ cols, columnConstants col ≠ [])
    (hcol : col ∈ cols) {c : V} (hc : c ∈ columnConstants col) :
    ∃ t ∈ product (cols.map columnConstants), ∀ w, castTuple eng t (cols.map (·.1)) = some w →
      ∃ x, eng.defaultCastAs c col.1 = some x ∧ (col, x) ∈ cols.zip w := by
  have hprod : ∀ l : List (Ty × List (FilterExpr V)), (∀ col ∈ l, columnConstants col ≠ []) →
      ∃ t, t ∈ product (l.map columnConstants) := by
    intro l hl
    induction l with
    | nil => exact ⟨[], by simp [product]⟩
    | cons d l ih =>
      obtain ⟨hd, hl⟩ := forall_mem_cons.1 hl
      obtain ⟨v, hv⟩ := exists_mem_of_ne_nil _ hd
      obtain ⟨t, ht⟩ := ih hl
      exact ⟨v :: t, mem_product_iff.2 (.cons hv (mem_product_iff.1 ht))⟩
  induction cols with
  | nil => exact absurd hcol not_mem_nil
  | cons d cols ih =>
    obtain ⟨hd, hrest⟩ := forall_mem_cons.1 hne
    have hstep : ∀ {v t w}, castTuple eng (v :: t) ((d :: cols).map (·.1)) = some w →
        ∃ x xs, eng.defaultCastAs v d.1 = some x ∧ castTuple eng t (cols.map (·.1)) = some xs ∧ w = x :: xs := by
      intro v t w h
      rw [map_cons, castTuple] at h
      split at h
      case h_1 x xs hx hxs => exact ⟨x, xs, hx, hxs, (some.inj h).symm⟩
      case h_2 => exact absurd h (by simp)
    rcases mem_cons.1 hcol with rfl | hcol
    · obtain ⟨t, ht⟩ := hprod cols hrest
      refine ⟨c :: t, mem_product_iff.2 (.cons hc (mem_product_iff.1 ht)), fun w hw => ?_⟩
      obtain ⟨x, xs, hx, _, rfl⟩ := hstep hw
      exact ⟨x, hx, mem_cons_self⟩
    · obtain ⟨v, hv⟩ := exists_mem_of_ne_nil _ hd
      obtain ⟨t, ht, h⟩ := ih hrest hcol
      refine ⟨v :: t, mem_product_iff.2 (.cons hv (mem_product_iff.1 ht)), fun w hw => ?_⟩
      obtain ⟨x, xs, _, hxs, rfl⟩ := hstep hw
      obtain ⟨y, hy, hm⟩ := h xs hxs
      exact ⟨y, hy, mem_cons_of_mem _ hm⟩

/-! ## Exactness -/

/-- For a column with one filter, a value is given once if the filter holds of it, and not at all otherwise. -/
theorem OneFilter.countConstants_eq (h : OneFilter eng col)
    (hex : ∀ f ∈ col.2, f.extract ≠ none) (x : V) : countConstants eng col x =
      if col.2.all (holds eng.isNull (eng.defaultCastAs · col.1) x) then 1 else 0 := by
  obtain ⟨f, hf, hnd, hnl⟩ := h
  obtain ⟨cs, hcs⟩ := ne_none_iff_exists'.1 (hex f (hf ▸ mem_singleton.2 rfl))
  have hcn : f.constants = cs := by rw [constants, hcs]; rfl
  rw [hcn] at hnd hnl
  have hcnt : countConstants eng col x = (cs.map (eng.defaultCastAs · col.1)).count (some x) := by
    rw [countConstants, columnConstants, hf, flatMap_cons, flatMap_nil, append_nil, hcn, count_eq_countP, countP_map]
    exact countP_congr fun c _ => by simp
  have hhl : col.2.all (holds eng.isNull (eng.defaultCastAs · col.1) x) = true ↔
      some x ∈ cs.map (eng.defaultCastAs · col.1) := by
    rw [hf, all_cons, all_nil, Bool.and_true, (extract_spec _ _ _ hcs).2, List.any_eq_true, List.mem_map]
    refine exists_congr fun c => and_congr_right fun hc => ?_
    rw [sqlEq, Bool.and_eq_true, decide_eq_true_eq]
    exact ⟨And.right, fun h => ⟨by rw [hnl c hc x h]; rfl, h⟩⟩
  rw [hcnt]
  split
  case isTrue h => exact count_eq_one_of_mem hnd (hhl.1 h)
  case isFalse h => exact count_eq_zero_of_not_mem fun hm => h (hhl.2 hm)

/-- A value a filter with constants holds of. -/
theorem exists_constant_of_holds {ty : Ty} {f : FilterExpr V} (hex : f.extract ≠ none) {x : V}
    (h : holds eng.isNull (eng.defaultCastAs · ty) x f = true) :
    eng.isNull x = false ∧ ∃ c ∈ f.constants, eng.defaultCastAs c ty = some x := by
  obtain ⟨cs, hcs⟩ := ne_none_iff_exists'.1 hex
  have hcn : f.constants = cs := by rw [constants, hcs]; rfl
  rw [(extract_spec _ _ _ hcs).2, List.any_eq_true] at h
  obtain ⟨c, hc, hx⟩ := h
  rw [sqlEq, Bool.and_eq_true, decide_eq_true_eq, Bool.not_eq_true'] at hx
  exact ⟨hx.1, c, hcn ▸ hc, hx.2⟩

/-- A column each constant of which is given once, and all of whose filters hold
    of it, has one filter: a second one would give the constant again. -/
theorem oneFilter_of_countConstants (hex : col.2 ≠ [] ∧ ∀ f ∈ col.2, f.extract ≠ none)
    (h : ∀ c ∈ columnConstants col, ∃ x, eng.defaultCastAs c col.1 = some x ∧
      countConstants eng col x = 1 ∧ ∀ f ∈ col.2, holds eng.isNull (eng.defaultCastAs · col.1) x f = true) :
    OneFilter eng col := by
  obtain ⟨f, fs, hfs⟩ := exists_cons_of_ne_nil hex.1
  have hf : f ∈ col.2 := hfs ▸ mem_cons_self
  have hcn : columnConstants col = f.constants ++ fs.flatMap (·.constants) := by
    rw [columnConstants, hfs, flatMap_cons]
  have hnil : fs = [] := by
    by_contra hne
    obtain ⟨g, hg⟩ := exists_mem_of_ne_nil _ hne
    have hgc : g ∈ col.2 := hfs ▸ mem_cons_of_mem _ hg
    obtain ⟨cs, hcs⟩ := ne_none_iff_exists'.1 (hex.2 f hf)
    obtain ⟨c, hc⟩ : ∃ c, c ∈ f.constants := by
      rw [constants, hcs]
      exact exists_mem_of_ne_nil _ (extract_spec eng.isNull some f hcs).1
    obtain ⟨x, hx, hcnt, hhl⟩ := h c (hcn ▸ mem_append_left _ hc)
    obtain ⟨-, c', hc', hx'⟩ := exists_constant_of_holds (hex.2 g hgc) (hhl g hgc)
    rw [countConstants, hcn, countP_append] at hcnt
    have h₁ : 0 < f.constants.countP fun c => eng.defaultCastAs c col.1 = some x :=
      countP_pos_iff.2 ⟨c, hc, by simpa using hx⟩
    have h₂ : 0 < (fs.flatMap (·.constants)).countP fun c => eng.defaultCastAs c col.1 = some x :=
      countP_pos_iff.2 ⟨c', mem_flatMap.2 ⟨g, hg, hc'⟩, by simpa using hx'⟩
    omega
  subst hnil
  rw [flatMap_nil, append_nil] at hcn
  refine ⟨f, hfs, nodup_iff_count_le_one.2 fun o => ?_, fun c hc x hx => ?_⟩
  · by_cases ho : o ∈ f.constants.map (eng.defaultCastAs · col.1)
    · obtain ⟨c, hc, rfl⟩ := List.mem_map.1 ho
      obtain ⟨x, hx, hcnt, -⟩ := h c (hcn ▸ hc)
      rw [countConstants, hcn] at hcnt
      rw [hx, count_eq_countP, countP_map, ← hcnt]
      exact (countP_congr fun c _ => by simp).le
    · rw [count_eq_zero_of_not_mem ho]
      exact Nat.zero_le 1
  · obtain ⟨y, hy, -, hhl⟩ := h c (hcn ▸ hc)
    obtain rfl := some.inj (hx.symm.trans hy)
    exact (exists_constant_of_holds (hex.2 f hf) (hhl f hf)).1

theorem prod_map_ite {α : Type*} (p : α → Bool) (l : List α) :
    (l.map fun a => if p a then 1 else 0).prod = if l.all p then 1 else 0 := by
  induction l with
  | nil => rfl
  | cons a l ih =>
    rw [map_cons, prod_cons, ih, all_cons]
    cases p a <;> simp

/-- If each tuple requested is one of the tuples `W`, then these are requested once when the filters hold of them, and
    not at all otherwise, if and only if each column has one filter. -/
theorem countP_eq_iff_oneFilter {W : List V → Prop} (hex : ∀ col ∈ cols, col.2 ≠ [] ∧ ∀ f ∈ col.2, f.extract ≠ none)
    (hlen : ∀ w, W w → w.length = cols.length)
    (hW : ∀ t ∈ product (cols.map columnConstants), ∃ w, W w ∧ castTuple eng t (cols.map (·.1)) = some w) :
    (∀ w, W w → ((product (cols.map columnConstants)).countP fun t =>
        castTuple eng t (cols.map (·.1)) = some w) = if satisfiesFilters eng cols w then 1 else 0) ↔
      ∀ col ∈ cols, OneFilter eng col := by
  constructor
  · intro h
    have hne : ∀ col ∈ cols, columnConstants col ≠ [] := by
      intro col hcol
      obtain ⟨f, hf⟩ := exists_mem_of_ne_nil _ (hex col hcol).1
      obtain ⟨cs, hcs⟩ := ne_none_iff_exists'.1 ((hex col hcol).2 f hf)
      have hcn := (extract_spec eng.isNull some f hcs).1
      rw [columnConstants]
      intro hnil
      have := flatMap_eq_nil_iff.1 hnil f hf
      rw [constants, hcs] at this
      exact hcn this
    -- each constant is in a tuple requested, which is requested once
    have hone : ∀ col ∈ cols, ∀ c ∈ columnConstants col, ∃ x, eng.defaultCastAs c col.1 = some x ∧
        countConstants eng col x = 1 ∧ ∀ f ∈ col.2, holds eng.isNull (eng.defaultCastAs · col.1) x f = true := by
      intro col hcol c hc
      obtain ⟨t, ht, htw⟩ := exists_tuple_of_constant eng hne hcol hc
      obtain ⟨w, hw, hcst⟩ := hW t ht
      obtain ⟨x, hx, hm⟩ := htw w hcst
      have hcnt := h w hw
      have hpos : 0 < (product (cols.map columnConstants)).countP fun t =>
          castTuple eng t (cols.map (·.1)) = some w :=
        countP_pos_iff.2 ⟨t, ht, by simpa using hcst⟩
      have hst : satisfiesFilters eng cols w = true := by
        by_contra hns
        rw [if_neg hns] at hcnt
        omega
      rw [if_pos hst, countP_castTuple (hlen w hw)] at hcnt
      have hdv : countConstants eng col x ∣ 1 := hcnt ▸ dvd_prod (List.mem_map.2 ⟨(col, x), hm, rfl⟩)
      refine ⟨x, hx, Nat.dvd_one.1 hdv, ?_⟩
      exact List.all_eq_true.1 (List.all_eq_true.1 hst (col, x) hm)
    intro col hcol
    exact oneFilter_of_countConstants (hex col hcol) (hone col hcol)
  · intro h w hw
    rw [countP_castTuple (hlen w hw), satisfiesFilters, ← prod_map_ite]
    congr 1
    refine map_congr_left fun cw hcw => ?_
    have hcol := (of_mem_zip hcw).1
    exact (h cw.1 hcol).countConstants_eq (hex cw.1 hcol).2 cw.2

/-! ## The replay -/

variable (eng)

/-- The filters hold of the partition tuple of the batch. -/
def wanted (cols : List (Ty × List (FilterExpr V))) (types : List Ty) (b : CachedBatch) : Bool :=
  (partitionTuple eng types b).elim false (satisfiesFilters eng cols)

/-- Each captured batch of which the filters hold is replayed once, and no other. -/
def ReplayExact (cols : List (Ty × List (FilterExpr V))) (types : List Ty)
    (captured replayed : List CachedBatch) : Prop :=
  (replayed.map (·.content)).Perm ((captured.filter (wanted eng cols types)).map (·.content))

/-- The keys of the tuples requested do not collide with those of the captured batches. -/
def CollisionFree (types : List Ty) (captured : List CachedBatch) (tuples : List (List V)) : Prop :=
  ∀ b ∈ captured, ∀ tuple ∈ tuples, ∀ w w', partitionTuple eng types b = some w →
    castTuple eng tuple types = some w' →
      eng.sha256Hex (eng.sortKey w) = eng.sha256Hex (eng.sortKey w') → w = w'

/-- The capture of a scan classified as `cls`. -/
def captureOf (cls : PartitionClass V Ty) (key : ResultCacheKey) (streams : List CachedStream) :
    PartitionCapture Ty where
  key := key
  types := cls.types
  names := cls.names
  residualFilterBytes := cls.residualFilterBytes
  max := cls.max
  streams := streams

variable {eng} {types : List Ty}

omit [DecidableEq V] in
theorem length_partitionTuple {b : CachedBatch} (h : partitionTuple eng types b = some w) :
    w.length = types.length := by
  rw [partitionTuple] at h
  split at h
  · exact absurd h (by simp)
  · split at h
    case isTrue hlen => exact length_castTuple hlen h
    case isFalse => exact absurd h (by simp)

/-- What is selected by the partition tuples of the batches is selected by their contents. -/
theorem filter_map_content (p : CachedBatch → Bool) (hp : ∀ b, p b.content = p b)
    (bs : List CachedBatch) : (bs.filter p).map (·.content) = (bs.map (·.content)).filter p := by
  rw [List.filter_map]
  congr 1
  exact filter_congr fun b _ => (hp b).symm

variable {captured : List CachedBatch}

/-- How often a batch is replayed. -/
theorem countP_sameKey {tuples : List (List V)} (hcf : CollisionFree eng types captured tuples)
    (hcs : ∀ tuple ∈ tuples, (castTuple eng tuple types).isSome) {b : CachedBatch} (hb : b ∈ captured) :
    tuples.countP (sameKey eng types · b) =
      (partitionTuple eng types b).elim 0 fun w => tuples.countP fun t => castTuple eng t types = some w := by
  cases hw : partitionTuple eng types b with
  | none =>
    refine countP_eq_zero.2 fun tuple ht => ?_
    obtain ⟨w', hw'⟩ := isSome_iff_exists.1 (hcs tuple ht)
    simp [sameKey, partitionDiscriminator_eq, hw, hw']
  | some w =>
    refine countP_congr fun tuple ht => ?_
    obtain ⟨w', hw'⟩ := isSome_iff_exists.1 (hcs tuple ht)
    rw [sameKey, partitionDiscriminator_eq, hw, hw', map_some, map_some,
      decide_eq_true_eq, decide_eq_true_eq, Option.some.injEq, Option.some.injEq]
    constructor
    · intro h
      exact (hcf b hb tuple ht w w' hw hw' (append_cancel_left h)).symm
    · rintro rfl
      rfl

/-- A replay that has the batches of each tuple requested, all of them captured, is
    exact if and only if each column has one filter. -/
theorem replayExact_iff {replayed : List CachedBatch} (hcl : cols.map (·.1) = types)
    (hex : ∀ col ∈ cols, col.2 ≠ [] ∧ ∀ f ∈ col.2, f.extract ≠ none)
    (hcf : CollisionFree eng types captured (product (cols.map columnConstants)))
    (hrp : replayed.map (·.content) = ((product (cols.map columnConstants)).flatMap fun tuple =>
      captured.filter (sameKey eng types tuple)).map (·.content))
    (hall : ∀ tuple ∈ product (cols.map columnConstants), (castTuple eng tuple types).isSome ∧
      ∃ b ∈ captured, sameKey eng types tuple b = true) :
    ReplayExact eng cols types captured replayed ↔ ∀ col ∈ cols, OneFilter eng col := by
  subst hcl
  rw [← countP_eq_iff_oneFilter (W := fun w => ∃ b ∈ captured, partitionTuple eng (cols.map (·.1)) b = some w) hex]
  · -- count the batches, by their contents
    rw [ReplayExact, hrp, filter_map_content _ (fun _ => rfl), map_flatMap]
    simp only [filter_map_content _ (fun b => (rfl : sameKey eng (cols.map (·.1)) _ b.content = _))]
    rw [flatMap_filter_perm_iff]
    simp only [List.forall_mem_map]
    constructor
    · rintro h w ⟨b, hb, hw⟩
      have hcn := countP_sameKey hcf (fun t ht => (hall t ht).1) hb
      rw [hw, elim_some] at hcn
      have hb' := h b hb
      rw [← hcn]
      refine Eq.trans hb' ?_
      have hwn : wanted eng cols (cols.map (·.1)) b.content = satisfiesFilters eng cols w := by
        change wanted eng cols (cols.map (·.1)) b = _
        rw [wanted, hw, elim_some]
      rw [hwn]
    · intro h b hb
      change (product (cols.map columnConstants)).countP (sameKey eng (cols.map (·.1)) · b) =
        if wanted eng cols (cols.map (·.1)) b then 1 else 0
      rw [countP_sameKey hcf (fun t ht => (hall t ht).1) hb, wanted]
      cases hw : partitionTuple eng (cols.map (·.1)) b with
      | none => rfl
      | some w => exact h w ⟨b, hb, hw⟩
  · rintro w ⟨b, -, hw⟩
    rw [length_partitionTuple hw, length_map]
  · intro t ht
    obtain ⟨hsm, b, hb, hkey⟩ := hall t ht
    obtain ⟨w', hw'⟩ := isSome_iff_exists.1 hsm
    rw [sameKey, partitionDiscriminator_eq, hw', map_some, decide_eq_true_eq] at hkey
    obtain ⟨w, hw, hds⟩ := map_eq_some_iff.1 hkey
    obtain rfl := hcf b hb t ht w w' hw hw' (append_cancel_left hds)
    exact ⟨w, ⟨b, hb, hw⟩, hw'⟩

end

/-- A scan of a function is captured and split; then operations that store nothing under the keys of its partitions
    happen; then a scan of the same function, with the same partition keys, looks for its partitions. -/
structure SplitThenServe {V Ty : Type*} (eng : PartitionEngine V Ty) (P : Type*) where
  fn : PartitionFunction Ty
  capturedReq : PartitionRequest V
  capturedKey : ResultCacheKey
  streams : List CachedStream
  whole : ResultCacheEntry P
  tier : MemoryTier (List CachedStream)
  ops : List (MemoryTier.Op (List CachedStream))
  req : PartitionRequest V
  key : ResultCacheKey
  catalogName : Bytes
  now : ℤ
  splittable : (classifyPartitionFilters eng fn capturedReq).splittable = true
  same_keys : ∀ disc,
    buildPartitionKey key (classifyPartitionFilters eng fn req).residualFilterBytes disc =
      buildPartitionKey capturedKey (classifyPartitionFilters eng fn capturedReq).residualFilterBytes disc
  tier_inv : tier.Inv
  tier_foreign : tier.Holds
    (Foreign (captureOf (classifyPartitionFilters eng fn capturedReq) capturedKey streams))
  ops_sized : ∀ op ∈ ops, op.Sized
  ops_foreign : ∀ op ∈ ops, op.Adds
    (Foreign (captureOf (classifyPartitionFilters eng fn capturedReq) capturedKey streams))
  collisionFree : CollisionFree eng (fn.partitionColumns.map (·.2)) (streams.flatMap (·.batches))
    (classifyPartitionFilters eng fn req).enumeratedTuples

namespace SplitThenServe

variable {V Ty P : Type*} {eng : PartitionEngine V Ty} (r : SplitThenServe eng P)

/-- The captured batches. -/
def captured : List CachedBatch := r.streams.flatMap (·.batches)

/-- The capture. -/
def capture : PartitionCapture Ty :=
  captureOf (classifyPartitionFilters eng r.fn r.capturedReq) r.capturedKey r.streams

/-- What the later scan replays, if it is served from its partitions. -/
def served : Option ScanEntry :=
  servePartitions eng r.key r.catalogName (classifyPartitionFilters eng r.fn r.req) r.now
    ((splitAndStorePartitionEntries eng r.capture r.whole false r.tier).run r.ops)

/-- A scan served from its partitions is replayed exactly if and only if each partition column has one filter, whose
    constants, cast to the type of the column, are different from each other and from `NULL`. -/
theorem served_exact_iff [DecidableEq V] {e : ScanEntry} (h : r.served = some e) :
    ReplayExact eng (columnFilters r.fn r.req) (r.fn.partitionColumns.map (·.2)) r.captured
        (e.streams.flatMap (·.batches)) ↔ ∀ col ∈ columnFilters r.fn r.req, OneFilter eng col := by
  obtain ⟨hts, htp, hex⟩ := classifyPartitionFilters_enumerable (servePartitions_enumerable h)
  have hts₀ : r.capture.types = r.fn.partitionColumns.map (·.2) :=
    classifyPartitionFilters_splittable r.splittable
  -- the tier holds, under the keys of the partitions, what the split stored
  have hnew : r.tier.Holds (FromCapture eng r.capture) := fun e he => (r.tier_foreign e he).fromCapture
  obtain ⟨hinv, hhl⟩ := splitAndStorePartitionEntries_spec r.capture r.whole false r.tier_inv hnew
  have hops : ∀ op ∈ r.ops, op.Adds (FromCapture eng r.capture) := fun op hop =>
    (r.ops_foreign op hop).mono fun _ he => he.fromCapture
  obtain ⟨hrp, hall⟩ := servePartitions_spec (hinv.run r.ops_sized)
    (hhl.run hinv FromCapture.hit r.ops_sized hops) (hts.trans hts₀.symm) r.same_keys h
  rw [hts₀, htp] at hrp
  rw [hts₀, htp] at hall
  have hcf := r.collisionFree
  rw [htp] at hcf
  exact replayExact_iff (columnFilters_types r.fn r.req) hex hcf hrp hall

/-- Values are bytes, `0` being `NULL`, and tuples are their own keys. -/
def byteEngine : PartitionEngine UInt8 Unit where
  isNull v := v = 0
  defaultCastAs v _ := some v
  toStr v := [v]
  sortKey w := w
  sha256Hex key := key
  decodePartitionMinTuple bytes := if bytes = [] then none else some bytes
  serializeFilters _ _ := none

/-- A function with one partition column is captured with the partitions `1` and
    `2`, and then asked for the partitions `IN (a, b)`. -/
def inRun (a b : UInt8) : SplitThenServe byteEngine Unit where
  fn :=
    { singleValuePartitions := true
      outputSchema := some [ascii "p"]
      partitionColumnIndices := [0]
      allColumnNames := [ascii "p"]
      allColumnTypes := [()]
      rowidColumnName := [] }
  capturedReq := ⟨none, false, false, none, none, [0]⟩
  capturedKey := default
  streams := [⟨[⟨some [7], 1, 0, false, [1]⟩, ⟨some [8], 1, 0, false, [2]⟩], 2, 2⟩]
  whole := { key := default, streams := (), totalBytes := 2, neverExpires := true }
  tier := .init
  ops := []
  req := ⟨none, false, false, none, some [(0, .inOperator true [some a, some b] fun _ => false)], [0]⟩
  key := default
  catalogName := []
  now := 0
  splittable := by decide
  same_keys _ := rfl
  tier_inv := MemoryTier.inv_init
  tier_foreign := by intro e he; exact absurd he not_mem_nil
  ops_sized := by simp
  ops_foreign := by simp
  collisionFree := fun _ _ _ _ _ _ _ _ h => h

/-- Asked for different partitions, the scan is replayed exactly. -/
theorem inRun_exact : ∃ e, (inRun 1 2).served = some e ∧
    ReplayExact byteEngine (columnFilters (inRun 1 2).fn (inRun 1 2).req)
      ((inRun 1 2).fn.partitionColumns.map (·.2)) (inRun 1 2).captured (e.streams.flatMap (·.batches)) := by
  have hsm : (inRun 1 2).served.isSome := by decide
  obtain ⟨e, he⟩ := isSome_iff_exists.1 hsm
  refine ⟨e, he, (served_exact_iff _ he).2 fun col hcol => ?_⟩
  have hcl : columnFilters (inRun 1 2).fn (inRun 1 2).req =
      [((), [.inOperator true [some 1, some 2] fun _ => false])] := rfl
  rw [hcl, mem_singleton] at hcol
  subst hcol
  have hnl : ∀ c ∈ [1, 2], byteEngine.isNull c = false := by simp [byteEngine]
  refine ⟨_, rfl, by decide, fun c hc x hx => ?_⟩
  cases hx
  exact hnl c hc

/-- A constant given twice doubles the rows of its partition. -/
theorem inRun_doubled : ∃ e, (inRun 1 1).served = some e ∧
    (e.streams.flatMap (·.batches)).map (·.ipc) = [some [7], some [7]] ∧
    ¬ReplayExact byteEngine (columnFilters (inRun 1 1).fn (inRun 1 1).req)
      ((inRun 1 1).fn.partitionColumns.map (·.2)) (inRun 1 1).captured (e.streams.flatMap (·.batches)) := by
  have hsm : (inRun 1 1).served.isSome := by decide
  obtain ⟨e, he⟩ := isSome_iff_exists.1 hsm
  have hip : (inRun 1 1).served.map (fun e => (e.streams.flatMap (·.batches)).map (·.ipc)) =
      some [some [7], some [7]] := by decide
  rw [he, map_some, Option.some.injEq] at hip
  refine ⟨e, he, hip, fun hex => ?_⟩
  have hlen := hex.length_eq
  rw [length_map, ← length_map (fun b : CachedBatch => b.ipc), hip] at hlen
  exact absurd hlen (by decide)

end SplitThenServe

end Vgi
