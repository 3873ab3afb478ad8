import Vgi.Lib.Interleave
import Vgi.Scan.Capture
import Vgi.Scan.PartitionExact

/-!
# Captures are never partial

What the destructor of a captured scan commits is all that its readers delivered,
whatever the interleaving of their steps; the entries of single partitions, which
it may commit too, have what is of the partition (`destructor_complete`).

The proof is an outline of the readers (`readerOutline`). As long as the capture is
not aborted, what a reader has delivered is, in order, what the spill file has from
it, what its substream in memory has, and the batch it is at
(`Reader.Asserts.covers`); a reader that loses something is on its way to abort the
capture, or dead, and a dead reader never counts as finished. The counters the
destructor compares are sums over the readers (`scan_counts`).
-/

namespace Vgi

open List Option Reader CaptureCtx

section

variable {B : Type*} (io : BatchCodec B)

/-- What a replay reads of a batch: its data, the number of its rows, its index and its partition values. -/
def CachedBatch.item (cb : CachedBatch) : Option (B × ℤ × Option ℕ × Bytes) :=
  (cb.ipc.bind io.deserializeBatch).map fun b =>
    (b, cb.rows, if cb.hasBatchIndex then some cb.batchIndex else none, cb.partitionValuesBytes)

/-- The same of a batch as it was delivered. -/
def Delivery.item (d : Delivery B) : B × ℤ × Option ℕ × Bytes :=
  (d.batch, io.numRows d.batch, d.batchIndex, d.partitionValuesBytes)

variable {io} {d : Delivery B}

theorem Delivery.cached_item {ipc : Bytes} (h : io.deserializeBatch ipc = some d.batch) :
    (d.cached io ipc).item io = some (d.item io) := by
  rw [CachedBatch.item, Delivery.cached, bind_some, h, map_some, Delivery.item]
  cases d.batchIndex <;> rfl

theorem Delivery.inMemory_item (d : Delivery B) : (d.inMemory io).item io = some (d.item io) :=
  d.cached_item (io.deserialize_serialize _ _ _)

theorem item_ne_none {ds : List (Delivery B)} {cb : CachedBatch}
    (h : cb.item io ∈ ds.map (some <| ·.item io)) : cb.item io ≠ none := by
  obtain ⟨d, -, hd⟩ := List.mem_map.1 h
  rw [← hd]
  exact some_ne_none _

theorem deserialize_transcode (ipc codec : Bytes) (level : ℕ) :
    io.deserializeBatch (transcodeIpcWithCodec io ipc codec level) = io.deserializeBatch ipc := by
  rw [transcodeIpcWithCodec]
  split
  · rfl
  · cases h : io.deserializeBatch ipc with
    | none => exact h
    | some b => exact io.deserialize_serialize codec level b

theorem CachedBatch.item_transcode {cb : CachedBatch} {ipc : Bytes} (h : cb.ipc = some ipc)
    (codec : Bytes) (level : ℕ) :
    ({ cb with ipc := some (transcodeIpcWithCodec io ipc codec level) } : CachedBatch).item io = cb.item io := by
  rw [CachedBatch.item, CachedBatch.item, h, bind_some, bind_some, deserialize_transcode]

/-! ## Appending -/

theorem DiskWriter.records_appendBatch (w : DiskWriter) (i : ℕ) (cb : CachedBatch) (n : ℤ)
    (wrote : Bool) : (w.appendBatch i cb n wrote).1.records =
      w.records ++ (if (w.appendBatch i cb n wrote).2 then [cb] else []).map (i, ·) := by
  by_cases hfl : w.failed = true
  · simp [appendBatch, hfl]
  · by_cases hbd : w.diskMax ≠ 0 ∧ toInt64 w.diskMax < w.bytes + recordBytes cb
    · simp [appendBatch, hfl, hbd]
    · cases wrote <;> simp [appendBatch, hfl, hbd]

variable (io) in
/-- A batch that is drained is, read back, the batch that was in memory. -/
theorem records_drainBatch (i : ℕ) (cb : CachedBatch) (wrote : Bool) (w : DiskWriter) :
    ∃ added : List CachedBatch,
      (drainBatch io i cb wrote w).1.records = w.records ++ added.map (i, ·) ∧
        ((drainBatch io i cb wrote w).2 = true → cb.item io ≠ none → added.map (·.item io) = [cb.item io]) := by
  rw [drainBatch]
  split
  · rename_i ipc hipc
    refine ⟨_, w.records_appendBatch i _ _ wrote, fun hok _ => ?_⟩
    rw [if_pos hok, map_singleton, CachedBatch.item_transcode hipc]
  · rename_i hipc
    refine ⟨[], by simp, fun _ hitem => absurd ?_ hitem⟩
    rw [CachedBatch.item, hipc]
    rfl

variable {wrote : ℕ → Bool} {w w' : DiskWriter}

/-- Draining what is left of a substream. -/
theorem records_drainSubstreamToWriter {i : ℕ} {batches : List CachedBatch}
    (h : drainSubstreamToWriter io wrote i batches w = (w', true)) (hitem : ∀ cb ∈ batches, cb.item io ≠ none) :
    ∃ added : List CachedBatch, w'.records = w.records ++ added.map (i, ·) ∧
      added.map (·.item io) = batches.map (·.item io) := by
  induction batches generalizing w with
  | nil =>
    cases h
    exact ⟨[], by simp, rfl⟩
  | cons cb rest ih =>
    rw [forall_mem_cons] at hitem
    rw [drainSubstreamToWriter] at h
    split at h
    · rename_i hok
      obtain ⟨added₁, hrec₁, hitem₁⟩ := records_drainBatch io i cb (wrote w.records.length) w
      obtain ⟨added₂, hrec₂, hitem₂⟩ := ih h hitem.2
      refine ⟨added₁ ++ added₂, ?_, ?_⟩
      · rw [hrec₂, hrec₁, map_append, append_assoc]
      · rw [map_append, hitem₁ hok hitem.1, hitem₂]
        rfl
    · cases h

variable {streams : List CachedStream}

/-- Draining what is left of all substreams, those of the readers from `i` on. -/
theorem records_drainStreams {i : ℕ} (h : drainStreams io wrote i streams w = (w', true))
    (hitem : ∀ s ∈ streams, ∀ cb ∈ s.batches, cb.item io ≠ none) :
    ∃ added, w'.records = w.records ++ added ∧ (∀ x ∈ added, i ≤ x.1 ∧ x.1 < i + streams.length) ∧
      ∀ k s, streams[k]? = some s → (part (i + k) added).map (·.item io) = s.batches.map (·.item io) := by
  induction streams generalizing i w with
  | nil =>
    cases h
    exact ⟨[], by simp, by simp, by simp⟩
  | cons s rest ih =>
    rw [forall_mem_cons] at hitem
    rw [drainStreams] at h
    split at h
    · rename_i hok
      obtain ⟨added₁, hrec₁, hitem₁⟩ := records_drainSubstreamToWriter (Prod.ext rfl hok) hitem.1
      obtain ⟨added₂, hrec₂, htg₂, hitem₂⟩ := ih h hitem.2
      refine ⟨added₁.map (i, ·) ++ added₂, ?_, ?_, ?_⟩
      · rw [hrec₂, hrec₁, append_assoc]
      · intro x hx
        rw [length_cons]
        rcases mem_append.1 hx with hx | hx
        · obtain ⟨cb, -, rfl⟩ := List.mem_map.1 hx
          constructor <;> simp
        · have := htg₂ x hx
          omega
      · intro k s' hk
        cases k with
        | zero =>
          obtain rfl : s = s' := by simpa using hk
          have hnil : part i added₂ = [] := part_eq_nil fun x hx => by have := htg₂ x hx; omega
          rw [Nat.add_zero, part_append, part_map_self, hnil, append_nil, hitem₁]
        | succ k =>
          have hne : i ≠ i + (k + 1) := by omega
          rw [part_append, part_map_of_ne hne, nil_append]
          have hk' := hitem₂ k s' (by simpa using hk)
          rwa [Nat.add_assoc, Nat.add_comm 1 k] at hk'
    · cases h

/-! ## What a reader holds -/

/-- The reader reached the end of its stream. -/
def Pc.isDone : Pc B → Bool
  | .done => true
  | _ => false

theorem Pc.eq_done {pc : Pc B} (h : pc.isDone = true) : pc = .done := by
  cases pc <;> first | rfl | cases h

/-- The reader was destroyed, or threw. -/
def Pc.isDead : Pc B → Bool
  | .dead => true
  | _ => false

/-- The batches the reader has delivered but not put anywhere yet. -/
def Pc.flight : Pc B → List (Delivery B)
  | .latch d | .check d | .stream d | .reserve d | .spill d | .budget d | .recheck d | .append d =>
    [d]
  | .drain _ _ next | .abort next => next.toList
  | .idle | .claim | .init _ | .eos | .done | .dead => []

/-- The reader has lost nothing: it is neither dead nor about to abort the capture. -/
def Pc.intact : Pc B → Bool
  | .abort _ | .dead => false
  | .drain _ appended _ => appended
  | _ => true

/-- The split claimed and not entered yet. -/
def Pc.claims : Pc B → List ℕ
  | .init k => [k]
  | _ => []

/-- The batches in memory that are not in the spill file. -/
def Reader.held (r : Reader B) : List CachedBatch :=
  match r.pc with
  | .drain todo _ _ => todo
  | _ => r.captureStream.batches

/-- What holds of the flags of the reader at each point. -/
def Reader.AtPc (cfg : CaptureConfig) (cap : CaptureCtx) (r : Reader B) : Prop :=
  match r.pc with
  | .reserve _ | .spill _ | .budget _ => r.captureSpilled = false
  | .drain _ _ _ => r.captureSpilled = false ∧ cap.spilling = true
  | .recheck _ | .append _ | .abort (some _) => r.captureSpilled = true
  | .claim | .init _ | .eos => r.split = none
  | .done => cfg.splitPath = true → r.split = none
  | _ => True

variable (io) in
/-- What holds of the reader `i` at any time. -/
structure Reader.Asserts (cfg : CaptureConfig) (cap : CaptureCtx) (i : ℕ) (r : Reader B) : Prop where
  spilled : r.captureSpilled = true → cap.spilling = true ∧ r.captureStream.batches = []
  at_pc : r.AtPc cfg cap
  covers : cap.aborted = false → r.pc.intact = true →
    (part i cap.records ++ r.held).map (·.item io) ++ r.pc.flight.map (some <| ·.item io) =
      r.delivered.map (some <| ·.item io)
  claims : r.pc.isDead = false → r.claimed = r.drained ++ r.split.toList ++ r.pc.claims

/-- What holds of the capture at any time, with `n` readers started. -/
structure CaptureCtx.Inv (n : ℕ) (cap : CaptureCtx) : Prop where
  launched : cap.launched = n
  spilling : cap.spilling = cap.diskWriter.isSome
  tags : ∀ x ∈ cap.records, x.1 < n

/-- What a step of the reader `i` may do to the capture. -/
structure CaptureCtx.After (i : ℕ) (cap cap' : CaptureCtx) : Prop where
  launched : cap'.launched = cap.launched
  aborted : cap'.aborted = false → cap.aborted = false
  spilling : cap.spilling = true → cap'.spilling = true
  writer : cap.spilling = cap.diskWriter.isSome → cap'.spilling = cap'.diskWriter.isSome
  records : ∃ added : List CachedBatch, cap'.records = cap.records ++ added.map (i, ·)

namespace CaptureCtx

variable {n i : ℕ} {cap cap' : CaptureCtx}

/-- The step does nothing to what the readers hold. -/
theorem After.of_same (hab : cap'.aborted = false → cap.aborted = false := by exact id)
    (hln : cap'.launched = cap.launched := by rfl) (hsp : cap'.spilling = cap.spilling := by rfl)
    (hwr : cap'.diskWriter = cap.diskWriter := by rfl) : After i cap cap' where
  launched := hln
  aborted := hab
  spilling h := hsp.trans h
  writer h := by rw [hsp, hwr, h]
  records := ⟨[], by rw [CaptureCtx.records, hwr, map_nil, append_nil]; rfl⟩

/-- The step appends to the spill file. -/
theorem After.of_append {added : List CachedBatch} (hw : cap.diskWriter = some w)
    (h : w'.records = w.records ++ added.map (i, ·)) : After i cap { cap with diskWriter := some w' } where
  launched := rfl
  aborted := id
  spilling := id
  writer hs := by rw [hs, hw]; rfl
  records := ⟨added, by rw [CaptureCtx.records, CaptureCtx.records, hw]; exact h⟩

theorem Inv.after (h : Inv n cap) (hi : i < n) (ha : After i cap cap') : Inv n cap' where
  launched := ha.launched.trans h.launched
  spilling := ha.writer h.spilling
  tags x hx := by
    obtain ⟨added, had⟩ := ha.records
    rw [had, mem_append] at hx
    rcases hx with hx | hx
    · exact h.tags x hx
    · obtain ⟨cb, -, rfl⟩ := List.mem_map.1 hx
      exact hi

end CaptureCtx

/-- The steps of a reader do not disturb the others. -/
theorem Reader.Asserts.after {cfg : CaptureConfig} {cap cap' : CaptureCtx} {i j : ℕ} {r : Reader B}
    (h : r.Asserts io cfg cap j) (hj : j ≠ i) (ha : cap.After i cap') : r.Asserts io cfg cap' j where
  spilled hs := ⟨ha.spilling (h.spilled hs).1, (h.spilled hs).2⟩
  at_pc := by
    have hpc := h.at_pc
    revert hpc
    simp only [Reader.AtPc]
    split
    case h_4 => exact fun hpc => ⟨hpc.1, ha.spilling hpc.2⟩
    all_goals exact id
  covers hab hin := by
    obtain ⟨added, had⟩ := ha.records
    rw [had, part_append, part_map_of_ne hj.symm, append_nil]
    exact h.covers (ha.aborted hab) hin
  claims := h.claims

/-! ## The counters -/

/-- The splits handed out so far. -/
def CaptureCtx.handedOut (cfg : CaptureConfig) (cap : CaptureCtx) : Multiset ℕ :=
  Multiset.range (min cap.nextSplit cfg.totalSplits)

/-- What a reader counts for at the end. -/
def Reader.finished (r : Reader B) : ℕ := if r.pc.isDone then 1 else 0

/-- The counters change by what the reader does. -/
structure Counts (cfg : CaptureConfig) (cap : CaptureCtx) (r : Reader B) (cap' : CaptureCtx)
    (r' : Reader B) : Prop where
  eos : cap'.eos + r.finished = cap.eos + r'.finished
  drained : cap'.completedSplits + r.drained.length = cap.completedSplits + r'.drained.length
  claimed : cap'.handedOut cfg + (r.claimed : Multiset ℕ) = cap.handedOut cfg + (r'.claimed : Multiset ℕ)

section Steps

variable {cfg : CaptureConfig} {cap cap' : CaptureCtx} {i : ℕ} {r r' : Reader B} {pc : Pc B}

/-- The step changes no counter. -/
theorem Counts.of_same (hdn : r'.pc.isDone = r.pc.isDone := by rfl) (hes : cap'.eos = cap.eos := by rfl)
    (hnx : cap'.nextSplit = cap.nextSplit := by rfl)
    (hcm : cap'.completedSplits = cap.completedSplits := by rfl) (hdr : r'.drained = r.drained := by rfl)
    (hcl : r'.claimed = r.claimed := by rfl) : Counts cfg cap r cap' r' where
  eos := by rw [hes, finished, finished, hdn]
  drained := by rw [hcm, hdr]
  claimed := by rw [handedOut, hnx, hcl]; rfl

theorem handedOut_claim (hlt : cap.nextSplit < cfg.totalSplits) (claimed : List ℕ) :
    ({ cap with nextSplit := cap.nextSplit + 1 } : CaptureCtx).handedOut cfg + (claimed : Multiset ℕ) =
      cap.handedOut cfg + (claimed ++ [cap.nextSplit] : List ℕ) := by
  have hmin : min (cap.nextSplit + 1) cfg.totalSplits = cap.nextSplit + 1 := min_eq_left hlt
  rw [handedOut, handedOut, hmin, min_eq_left hlt.le, Multiset.range_succ,
    ← Multiset.coe_add, Multiset.coe_singleton, Multiset.cons_add, ← add_assoc,
    ← Multiset.singleton_add, add_comm]

theorem handedOut_of_le (hle : cfg.totalSplits ≤ cap.nextSplit) :
    ({ cap with nextSplit := cap.nextSplit + 1 } : CaptureCtx).handedOut cfg = cap.handedOut cfg := by
  rw [handedOut, handedOut, min_eq_right hle, min_eq_right (hle.trans (Nat.le_succ _))]

/-! ## The steps of a reader -/

variable (io cfg) in
/-- What a step of the reader `i` does to the capture, to the counters, and to what holds of the reader. -/
structure Advances (cap : CaptureCtx) (i : ℕ) (r : Reader B) (cap' : CaptureCtx) (r' : Reader B) :
    Prop where
  after : cap.After i cap'
  counts : Counts cfg cap r cap' r'
  asserts : cap.spilling = cap.diskWriter.isSome → r.Asserts io cfg cap i → r'.Asserts io cfg cap' i

/-- A step that moves a reader on, with the batches where they are. -/
theorem Advances.move {checked : Bool} (ha : cap.After i cap') (hrec : cap'.records = cap.records)
    (hcn : Counts cfg cap r cap' { r with pc := pc, checkedFirstBatch := checked })
    (hat : r.Asserts io cfg cap i → { r with pc := pc, checkedFirstBatch := checked }.AtPc cfg cap')
    (hcv : cap'.aborted = false → pc.intact = true → r.pc.intact = true ∧
      { r with pc := pc, checkedFirstBatch := checked }.held = r.held ∧ pc.flight = r.pc.flight := by
        exact fun _ _ => ⟨rfl, rfl, rfl⟩)
    (hcl : pc.isDead = false → r.pc.isDead = false ∧ pc.claims = r.pc.claims := by exact fun _ => ⟨rfl, rfl⟩) :
    Advances io cfg cap i r cap' { r with pc := pc, checkedFirstBatch := checked } := by
  refine ⟨ha, hcn, fun _ hr => ⟨fun hs => ?_, hat hr, fun hab hin => ?_, fun hde => ?_⟩⟩
  · exact ⟨ha.spilling (hr.spilled hs).1, (hr.spilled hs).2⟩
  · obtain ⟨hin', hhl, hfl⟩ := hcv hab hin
    rw [hrec, hhl]
    exact hfl ▸ hr.covers (ha.aborted hab) hin'
  · obtain ⟨hde', hcl'⟩ := hcl hde
    exact hcl' ▸ hr.claims hde'

/-- A step that only moves the reader on. -/
theorem Advances.pass (hdn : pc.isDone = r.pc.isDone) (hat : r.Asserts io cfg cap i → { r with pc := pc }.AtPc cfg cap)
    (hcv : cap.aborted = false → pc.intact = true → r.pc.intact = true ∧
      { r with pc := pc }.held = r.held ∧ pc.flight = r.pc.flight := by exact fun _ _ => ⟨rfl, rfl, rfl⟩)
    (hcl : pc.isDead = false → r.pc.isDead = false ∧ pc.claims = r.pc.claims := by exact fun _ => ⟨rfl, rfl⟩) :
    Advances io cfg cap i r cap { r with pc := pc } :=
  .move .of_same rfl (.of_same hdn) hat hcv hcl

variable (io cfg cap i) in
/-- The spill file is created, and nothing is written to it yet. -/
theorem beginSpill_after (opened : Bool) :
    cap.After i (beginSpill io cfg cap opened).1 ∧ (beginSpill io cfg cap opened).1.records = cap.records ∧
      ((beginSpill io cfg cap opened).1.eos = cap.eos ∧ (beginSpill io cfg cap opened).1.nextSplit = cap.nextSplit ∧
        (beginSpill io cfg cap opened).1.completedSplits = cap.completedSplits) ∧
      ((beginSpill io cfg cap opened).2 = true → (beginSpill io cfg cap opened).1.diskWriter.isSome = true) := by
  rw [beginSpill]
  split_ifs with hdir hnew
  · simp only [Bool.and_eq_true, isNone_iff_eq_none] at hnew
    have hrec : cap.records = [] := by rw [records, hnew.1.1]; rfl
    exact ⟨⟨rfl, id, fun _ => rfl, fun _ => rfl, [], by rw [hrec]; rfl⟩, hrec.symm, ⟨rfl, rfl, rfl⟩, fun _ => rfl⟩
  · exact ⟨.of_same, rfl, ⟨rfl, rfl, rfl⟩, id⟩
  · exact ⟨.of_same, rfl, ⟨rfl, rfl, rfl⟩, nofun⟩

variable {ok : Bool}

/-- The reader spills: it drains its substream, the new batch at its end. -/
theorem advances_spill (hpc : r.pc = .spill d) (h : advance io cfg cap i r ok = some (cap', r')) :
    Advances io cfg cap i r cap' r' := by
  obtain ⟨ha, hrec, ⟨hes, hnx, hcm⟩, hsm⟩ := beginSpill_after io cfg cap i ok
  obtain ⟨_, stream, checked, spilled, split, delivered, claimed, drained⟩ := r
  subst hpc
  simp only [advance] at h
  split at h <;> rename_i hs <;> rw [hs] at ha hrec hes hnx hcm hsm <;> cases h
  · refine ⟨ha, .of_same rfl hes hnx hcm, fun hcap hr => ?_⟩
    have hat : spilled = false := hr.at_pc
    refine ⟨fun hsp => absurd (hat.symm.trans hsp) nofun, ⟨hat, ?_⟩, fun hab _ => ?_, fun _ => hr.claims rfl⟩
    · rw [ha.writer hcap]
      exact hsm rfl
    · -- the batch is put at the end of the substream
      have hcv := hr.covers (ha.aborted hab) rfl
      simp only [held, Pc.flight] at hcv
      simpa [held, Pc.flight, hrec, Delivery.inMemory_item] using hcv
  · exact .move ha hrec (.of_same rfl hes hnx hcm) (fun _ => trivial) nofun

/-- The reader drains its substream. -/
theorem advances_drain {todo : List CachedBatch} {appended : Bool} {next : Option (Delivery B)}
    (hpc : r.pc = .drain todo appended next)
    (h : advance io cfg cap i r ok = some (cap', r')) : Advances io cfg cap i r cap' r' := by
  obtain ⟨_, stream, checked, spilled, split, delivered, claimed, drained⟩ := r
  subst hpc
  cases todo with
  | nil =>
    cases h
    refine ⟨.of_same, .of_same ?_, fun _ hr => ⟨fun _ => ⟨hr.at_pc.2, rfl⟩, ?_, fun hab hin => ?_, fun _ => ?_⟩⟩
    · cases appended <;> cases next <;> rfl
    · cases appended <;> cases next <;> simp [Reader.AtPc, Pc.resume]
    · cases appended with
      | false => cases hin
      | true => cases next <;> exact hr.covers hab rfl
    · cases appended <;> cases next <;> exact hr.claims rfl
  | cons cb todo =>
    simp only [advance] at h
    split at h
    · cases h
    rename_i w hw
    split_ifs at h with hap <;> cases h
    · subst hap
      obtain ⟨added, hrec, had⟩ := records_drainBatch io i cb ok w
      refine ⟨.of_append hw hrec, .of_same, fun _ hr => ⟨fun hsp =>
        absurd (hr.at_pc.1.symm.trans hsp) nofun, hr.at_pc, fun hab hin => ?_,
        fun _ => hr.claims rfl⟩⟩
      -- the batch moves from the substream to the file
      have hcv := hr.covers hab rfl
      simp only [held, Pc.flight, map_append, map_cons] at hcv
      have hitem : cb.item io ≠ none := item_ne_none (by rw [← hcv]; simp)
      simp only [held, records, elim_some, hrec, part_append, part_map_self, map_append, had hin hitem, Pc.flight]
      simpa [records, hw] using hcv
    · exact .pass rfl (fun hr => hr.at_pc) nofun

/-- The reader appends the batch to the file. -/
theorem advances_append (hpc : r.pc = .append d) (h : advance io cfg cap i r ok = some (cap', r')) :
    Advances io cfg cap i r cap' r' := by
  obtain ⟨_, stream, checked, spilled, split, delivered, claimed, drained⟩ := r
  subst hpc
  simp only [advance] at h
  split at h
  · cases h
  rename_i w hw
  cases h
  have hrec := w.records_appendBatch i
    (d.cached io (io.serializeRecordBatch w.codec w.level d.batch)) (io.bufferBytes d.batch) ok
  refine ⟨.of_append hw hrec, .of_same ?_, fun _ hr => ⟨hr.spilled, ?_, fun hab hin => ?_, fun _ => ?_⟩⟩
  · split <;> rfl
  · split <;> exact trivial
  · split at hin
    · rename_i hok
      -- the reader has nothing left in memory, so the batch is the next of the file
      have hcv := hr.covers hab rfl
      have hem : stream.batches = [] := (hr.spilled hr.at_pc).2
      simp only [held, Pc.flight, hem] at hcv
      have hitem := d.cached_item (io.deserialize_serialize w.codec w.level d.batch)
      rw [if_pos hok] at hrec
      simp only [held, records, elim_some, hrec, part_append, if_pos hok, part_map_self, hem, Pc.flight]
      simpa [records, hw, hitem] using hcv
    · cases hin
  · split <;> exact hr.claims rfl

theorem advance_advances (h : advance io cfg cap i r ok = some (cap', r')) : Advances io cfg cap i r cap' r' := by
  obtain ⟨pc, stream, checked, spilled, split, delivered, claimed, drained⟩ := r
  cases pc with
  | idle | done | dead => cases h
  | spill d => exact advances_spill rfl h
  | drain todo appended next => exact advances_drain rfl h
  | append d => exact advances_append rfl h
  | latch d =>
    simp only [advance] at h
    split_ifs at h <;> cases h <;> exact .move .of_same rfl .of_same (fun _ => trivial)
  | check d =>
    simp only [advance] at h
    split_ifs at h <;> cases h
    · exact .pass rfl (fun _ => trivial) nofun
    · exact .pass rfl fun _ => trivial
  | stream d =>
    simp only [advance] at h
    split_ifs at h with hsp hspl <;> cases h
    · exact .pass rfl fun _ => hspl
    · exact .pass rfl fun _ => ⟨Bool.eq_false_iff.2 hspl, hsp⟩
    · -- the flag of the reader is only set once the capture spills
      exact .pass rfl (fun hr => Bool.eq_false_iff.2 fun hs => hsp (hr.spilled hs).1)
  | reserve d =>
    simp only [advance] at h
    cases h
    split_ifs <;> exact .move .of_same rfl .of_same (fun hr => hr.at_pc)
  | budget d =>
    simp only [advance] at h
    split_ifs at h <;> cases h
    · refine ⟨.of_same, .of_same, fun _ hr => ⟨fun hspl =>
        absurd (hr.at_pc.symm.trans hspl) nofun, trivial, fun hab _ => ?_, fun _ => hr.claims rfl⟩⟩
      have hcv := hr.covers hab rfl
      simp only [held, Pc.flight] at hcv
      simpa [held, Pc.flight, Delivery.inMemory_item] using hcv
    · exact .pass rfl (fun _ => trivial) nofun
  | recheck d =>
    simp only [advance] at h
    split_ifs at h with hab <;> cases h
    · exact .pass rfl (fun _ => trivial) (fun h => absurd (hab.symm.trans h) nofun)
    · exact .pass rfl fun hr => hr.at_pc
  | abort next =>
    cases h
    cases next <;> exact .move (.of_same nofun) rfl .of_same (fun hr => hr.at_pc) nofun
  | eos =>
    cases h
    exact .move .of_same rfl ⟨rfl, rfl, rfl⟩ (fun hr _ => hr.at_pc)
  | claim =>
    simp only [advance] at h
    split_ifs at h with hlt <;> cases h
    · refine ⟨.of_same, ⟨rfl, rfl, handedOut_claim hlt claimed⟩, fun _ hr => { hr with
        covers := fun hab _ => hr.covers hab rfl, claims := fun _ => ?_ }⟩
      have hno : split = none := hr.at_pc
      simpa [Pc.claims, hno] using hr.claims rfl
    · exact .move .of_same rfl ⟨rfl, rfl, by rw [handedOut_of_le (not_lt.1 hlt)]⟩ (fun hr => hr.at_pc)
  | init k =>
    simp only [advance] at h
    split_ifs at h <;> cases h
    · refine ⟨.of_same, .of_same, fun _ hr => ⟨hr.spilled, trivial, fun hab _ => hr.covers hab rfl, fun _ => ?_⟩⟩
      have hno : split = none := hr.at_pc
      simpa [Pc.claims, hno] using hr.claims rfl
    · exact .pass rfl (fun _ => trivial) nofun nofun

/-- The steps of a reader keep what holds of it. -/
theorem readerStep_advances {a : ReaderAct B} (h : readerStep io cfg cap i r a = some (cap', r')) :
    Advances io cfg cap i r cap' r' := by
  cases a with
  | advance ok => exact advance_advances h
  | die =>
    simp only [readerStep] at h
    split at h
    · cases h
    rename_i hpc
    cases h
    refine .pass ?_ (fun _ => trivial) nofun nofun
    cases hpc' : r.pc with
    | done => exact absurd hpc' hpc
    | _ => rfl
  | deliver d =>
    obtain ⟨pc, stream, checked, spilled, split, delivered, claimed, drained⟩ := r
    simp only [readerStep] at h
    split at h
    · split_ifs at h with hsp hab <;> cases h
      · exact ⟨.of_same, .of_same, fun _ hr => { hr with
          at_pc := trivial
          covers := fun h => absurd (hab.symm.trans h) nofun }⟩
      refine ⟨.of_same, .of_same, fun _ hr => ⟨hr.spilled, trivial, fun hab _ => ?_, fun _ => hr.claims rfl⟩⟩
      have hcv := hr.covers hab rfl
      simp only [held, Pc.flight, map_nil, append_nil] at hcv
      simp only [held, Pc.flight]
      rw [hcv, map_append]
    · cases h
  | notModified =>
    simp only [readerStep] at h
    split at h <;> cases h
    exact .move (.of_same nofun) rfl .of_same (fun hr => hr.at_pc) nofun fun hde => ⟨hde, rfl⟩
  | finish =>
    obtain ⟨pc, stream, checked, spilled, split, delivered, claimed, drained⟩ := r
    simp only [readerStep] at h
    split at h
    · split_ifs at h with hpt
      · split at h <;> cases h
        · refine ⟨.of_same, ⟨rfl, ?_, rfl⟩, fun _ hr => ⟨hr.spilled, rfl, fun hab _ => hr.covers hab rfl, fun _ => ?_⟩⟩
          · simp only [length_append, length_singleton]
            omega
          · simpa [Pc.claims] using hr.claims rfl
        · exact .pass rfl fun _ => rfl
      · cases h
        exact .move .of_same rfl ⟨rfl, rfl, rfl⟩ (fun _ h => absurd h hpt)
    · cases h

variable (io cfg) in
/-- The outline of the readers. -/
theorem readerOutline : (scan io cfg).Outline {} Inv (fun cap i r => r.Asserts io cfg cap i) where
  spawn {cap n _ cap' r} hcap _ h := by
    cases h
    have hnil : part n cap.records = [] := part_eq_nil fun x hx => (hcap.tags x hx).ne
    refine ⟨⟨congrArg (· + 1) hcap.launched, hcap.spilling, fun x hx => ?_⟩, ?_, fun j r _ hr => ?_⟩
    · exact (hcap.tags x hx).trans (Nat.lt_succ_self n)
    · refine ⟨nofun, trivial, fun _ _ => ?_, fun _ => rfl⟩
      change (part n cap.records ++ []).map _ ++ [] = []
      rw [hnil]
      rfl
    · exact { hr with }
  step {cap n i r a cap' r'} hcap hi hr _ h := by
    have ha := readerStep_advances h
    exact ⟨hcap.after hi ha.after, ha.asserts hcap.spilling hr, fun j _ hj hr' => hr'.after hj ha.after⟩

end Steps

/-! ## Every run -/

variable {cfg : CaptureConfig} {s : Threads.Config CaptureCtx (Reader B)}
  {as : List (Threads.Act Unit (ReaderAct B))}

theorem scan_meets (h : (scan io cfg).machine.run scanInit as = some s) :
    s.Meets Inv fun cap i r => r.Asserts io cfg cap i := by
  refine (readerOutline io cfg).run ⟨⟨rfl, rfl, ?_⟩, ?_⟩ (Machine.along_of_forall Threads.Rule.at_any _ _) h
  · exact nofun
  · exact fun i r hr => absurd hr (by simp [scanInit])

/-- The counters are sums over the readers. -/
theorem scan_counts (h : (scan io cfg).machine.run scanInit as = some s) :
    s.shared.eos = (s.locals.map finished).sum ∧ s.shared.completedSplits = (s.locals.map (·.drained.length)).sum ∧
      s.shared.handedOut cfg = (s.locals.map fun r => (r.claimed : Multiset ℕ)).sum := by
  refine ⟨?_, ?_, ?_⟩
  · refine Threads.run_conserved ?_ ?_ ?_ h
    · intro cap n b cap' r h
      cases h
      rfl
    · exact fun h => (readerStep_advances h).counts.eos
    · rfl
  · refine Threads.run_conserved ?_ ?_ ?_ h
    · intro cap n b cap' r h
      cases h
      rfl
    · exact fun h => (readerStep_advances h).counts.drained
    · rfl
  · refine Threads.run_conserved ?_ ?_ ?_ h
    · intro cap n b cap' r h
      cases h
      exact (add_zero _).symm
    · exact fun h => (readerStep_advances h).counts.claimed
    · simp [scanInit, handedOut]

/-- When as many readers are finished as were started, all of them are. -/
theorem forall_isDone {rs : List (Reader B)} (h : (rs.map finished).sum = rs.length) :
    ∀ r ∈ rs, r.pc.isDone = true := by
  have hle : ∀ r ∈ rs, r.finished ≤ 1 := fun r _ => by
    rw [finished]
    split_ifs <;> simp
  by_contra! hne
  obtain ⟨r, hr, hdn⟩ := hne
  have hlt : (rs.map finished).sum < (rs.map fun _ => 1).sum :=
    sum_lt_sum _ _ hle ⟨r, hr, by rw [finished, if_neg hdn]; exact one_pos⟩
  rw [map_const', sum_replicate, smul_eq_mul, mul_one] at hlt
  omega

theorem capturedEntry_streams {P : Type*} {cc : CacheControl} {now rows bytes : ℤ} {streams : P}
    {e : ResultCacheEntry P} (h : capturedEntry cfg cc now streams rows bytes = some e) : e.streams = streams := by
  simp only [capturedEntry] at h
  split_ifs at h <;> cases h <;> rfl

variable {V Ty : Type*} {eng : PartitionEngine V Ty} {parts : Option (PartitionCapture Ty)} {now : ℤ} {renamed : Bool}

/-- What the destructor commits, and when. -/
theorem destructor_cases {c : Commit} (h : c ∈ (destructor io eng cfg parts s now wrote renamed).whole) :
    ∃ cc, complete cfg s.shared cc = true ∧
      ((s.shared.spilling = false ∧
          ∃ e allowDisk, c = .insert e allowDisk ∧ e.streams = s.locals.map (·.captureStream)) ∨
        ∃ w w' e, s.shared.diskWriter = some w ∧
          drainStreams io wrote 0 (s.locals.map (·.captureStream)) w = (w', true) ∧
          c = .streaming e w'.records) := by
  simp only [destructor] at h
  split at h
  · cases h
  rename_i cc _
  split at h
  case isFalse => cases h
  rename_i hcp
  refine ⟨cc, hcp, ?_⟩
  split at h
  case isTrue =>
    split at h
    · rename_i e w _ hw
      split at h
      · cases h
      · obtain ⟨hdr, h⟩ := ite_none_right_eq_some.1 h
        rw [commitStreamingCapture] at h
        split_ifs at h
        cases h
        exact .inr ⟨w, _, _, hw, Prod.ext rfl hdr, rfl⟩
    · cases h
  case isFalse hsp =>
    split at h
    · cases h
    · rename_i e he
      cases h
      exact .inl ⟨Bool.eq_false_iff.2 hsp, e, _, rfl, capturedEntry_streams he⟩

/-- What it commits of a partition: the batches of the partition, of those of the whole result. -/
theorem destructor_partition {e : ScanEntry}
    (h : e ∈ (destructor io eng cfg parts s now wrote renamed).partitions) :
    ∃ p ∈ parts, ∃ entry allowDisk disc,
      (destructor io eng cfg parts s now wrote renamed).whole = some (.insert entry allowDisk) ∧
        e.streams.flatMap (·.batches) =
          (entry.streams.flatMap (·.batches)).filter (ofPartition eng p.types disc) := by
  simp only [destructor] at h ⊢
  split at h
  · cases h
  split at h
  case isFalse => cases h
  rename_i hcp
  split at h
  case isTrue =>
    split at h
    · split at h <;> cases h
    · cases h
  case isFalse hsp =>
    rw [if_pos hcp, if_neg hsp]
    split at h
    · cases h
    · rename_i entry he
      obtain ⟨-, h⟩ := List.mem_ite_nil_right.1 h
      rcases parts with _ | p
      · cases h
      obtain ⟨-, hfc, disc, hk⟩ := fromCapture_partitionEntries h
      refine ⟨p, rfl, entry, _, disc, rfl, ?_⟩
      rw [(hfc disc hk).1, capturedEntry_streams he]
      rfl

theorem tags_zipIdx (streams : List CachedStream) (n : ℕ) :
    ∀ x ∈ (streams.zipIdx n).flatMap (fun s => s.1.batches.map (s.2, ·)), n ≤ x.1 ∧ x.1 < n + streams.length := by
  intro x hx
  obtain ⟨s, hs, hx⟩ := mem_flatMap.1 hx
  obtain ⟨cb, -, rfl⟩ := List.mem_map.1 hx
  exact ⟨le_snd_of_mem_zipIdx hs, snd_lt_add_of_mem_zipIdx hs⟩

theorem part_zipIdx {n k : ℕ} {s : CachedStream} (h : streams[k]? = some s) :
    part (n + k) ((streams.zipIdx n).flatMap fun s => s.1.batches.map (s.2, ·)) = s.batches := by
  induction streams generalizing n k with
  | nil => simp at h
  | cons s' streams ih =>
    rw [zipIdx_cons, flatMap_cons, part_append]
    cases k with
    | zero =>
      obtain rfl : s' = s := by simpa using h
      have hnil := part_eq_nil fun x hx => (Nat.lt_of_succ_le (tags_zipIdx streams (n + 1) x hx).1).ne'
      rw [Nat.add_zero, part_map_self, hnil, append_nil]
    | succ k =>
      have hne : n ≠ n + (k + 1) := by omega
      have hk := ih (n := n + 1) (by simpa using h)
      rw [part_map_of_ne hne, nil_append, ← hk, Nat.add_assoc, Nat.add_comm 1 k]

/-- What is committed of the reader `i` is what it delivered. -/
theorem commit_part (hs : s.Meets Inv fun cap i r => r.Asserts io cfg cap i)
    (hab : s.shared.aborted = false) (hdn : ∀ r ∈ s.locals, r.pc.isDone = true) {c : Commit}
    (h : c ∈ (destructor io eng cfg parts s now wrote renamed).whole) :
    (∀ x ∈ c.batches, x.1 < s.locals.length) ∧
      ∀ i r, s.locals[i]? = some r → (part i c.batches).map (·.item io) = r.delivered.map (some <| ·.item io) := by
  -- a finished reader has its batches in the file and then in its substream
  have hcv : ∀ i r, s.locals[i]? = some r →
      (part i s.shared.records ++ r.captureStream.batches).map (·.item io) = r.delivered.map (some <| ·.item io) := by
    intro i r hr
    have hpc := Pc.eq_done (hdn r (mem_of_getElem? hr))
    have hc := (hs.locals i r hr).covers hab (by rw [hpc]; rfl)
    simpa [held, hpc, Pc.flight] using hc
  obtain ⟨cc, -, ⟨hsp, e, allowDisk, rfl, he⟩ | ⟨w, w', e, hw, hdr, rfl⟩⟩ := destructor_cases h
  · have hrec : s.shared.records = [] := by
      have hno := hs.shared.spilling
      rw [hsp, eq_comm, isSome_eq_false_iff, isNone_iff_eq_none] at hno
      rw [records, hno]
      rfl
    rw [Commit.batches, he]
    refine ⟨fun x hx => ?_, fun i r hr => ?_⟩
    · simpa using (tags_zipIdx _ 0 x hx).2
    have hstr : (s.locals.map (·.captureStream))[i]? = some r.captureStream := by
      rw [List.getElem?_map, hr]
      rfl
    have hpr := part_zipIdx (n := 0) hstr
    rw [Nat.zero_add] at hpr
    rw [hpr, ← hcv i r hr, hrec, part_nil, nil_append]
  · have hrec : s.shared.records = w.records := by rw [records, hw]; rfl
    have hitem : ∀ st ∈ s.locals.map (·.captureStream), ∀ cb ∈ st.batches, cb.item io ≠ none := by
      intro st hst cb hcb
      obtain ⟨r, hr, rfl⟩ := List.mem_map.1 hst
      obtain ⟨i, hi⟩ := List.getElem?_of_mem hr
      refine @item_ne_none _ io r.delivered _ ?_
      rw [← hcv i r hi]
      exact List.mem_map_of_mem (mem_append_right _ hcb)
    obtain ⟨added, had, htg, hprt⟩ := records_drainStreams hdr hitem
    rw [Commit.batches, had]
    refine ⟨fun x hx => ?_, fun i r hr => ?_⟩
    · rcases mem_append.1 hx with hx | hx
      · exact hs.shared.tags x (hrec ▸ hx)
      · simpa using (htg x hx).2
    · have hpr := hprt i r.captureStream (by rw [List.getElem?_map, hr]; rfl)
      rw [Nat.zero_add] at hpr
      rw [part_append, map_append, hpr, ← hcv i r hr, hrec, map_append]

theorem sum_claimed (rs : List (Reader B)) :
    (rs.map fun r => (r.claimed : Multiset ℕ)).sum = (rs.flatMap (·.claimed) : Multiset ℕ) := by
  induction rs with
  | nil => rfl
  | cons r rs ih => rw [map_cons, sum_cons, ih, Multiset.coe_add, flatMap_cons]

/-- When as many splits are drained as were planned, each of them was claimed by one reader. -/
theorem claimed_perm_range (hrun : (scan io cfg).machine.run scanInit as = some s)
    (hdr : ∀ r ∈ s.locals, r.claimed = r.drained) (hall : s.shared.completedSplits = cfg.totalSplits) :
    (s.locals.flatMap (·.claimed)).Perm (List.range cfg.totalSplits) := by
  obtain ⟨-, hcm, hhn⟩ := scan_counts hrun
  rw [sum_claimed] at hhn
  have hlen : (s.locals.flatMap (·.claimed)).length = cfg.totalSplits := by
    rw [length_flatMap, ← hall, hcm]
    exact congrArg List.sum (map_congr_left fun r hr => by rw [hdr r hr])
  have hcr : min s.shared.nextSplit cfg.totalSplits = cfg.totalSplits := by
    have := congrArg Multiset.card hhn
    rwa [handedOut, Multiset.card_range, Multiset.coe_card, hlen] at this
  rw [handedOut, hcr] at hhn
  exact (Multiset.coe_eq_coe.1 hhn).symm

end

/-- Batches of one byte. -/
def byteCodec : BatchCodec UInt8 where
  serializeRecordBatch _ _ b := [b]
  deserializeBatch ipc := ipc.head?
  numRows _ := 1
  bufferBytes _ := 1
  resolveDiskCompressionCodec codec := codec
  deserialize_serialize _ _ _ := rfl

/-- Two splits, and memory for one batch. -/
def twoSplits : CaptureConfig where
  key := default
  catalogName := []
  transactionId := []
  maxEntryBytes := 1
  defaultTtlSeconds := 0
  catalogVersionFrozen := false
  splitPath := true
  totalSplits := 2
  diskDir := ascii "cache"
  diskMax := 1000
  diskCompression := ascii "none"
  diskCompressionLevel := 1

abbrev ByteRun := List (Threads.Act Unit (ReaderAct UInt8))

/-- Two readers with a split each. The first keeps its batch in memory; the batch of
    the second makes the capture spill. -/
def spilledRun : ByteRun :=
  let cc : CacheControl := { present := true, ttlSeconds := some 60 }
  let split (i : ℕ) : ByteRun :=
    .step i .finish :: List.replicate 2 (.step i (.advance true))
  [.spawn (), .spawn ()] ++ split 0 ++ split 1 ++
    .step 0 (.deliver ⟨7, cc, none, []⟩) :: List.replicate 5 (.step 0 (.advance true)) ++
    .step 1 (.deliver ⟨8, cc, some 3, []⟩) :: List.replicate 7 (.step 1 (.advance true)) ++
    split 0 ++ split 1

/-- One reader, with two batches of different partitions. -/
def partitionedRun : ByteRun :=
  let cc : CacheControl := { present := true, ttlSeconds := some 60, partitionScope := true }
  let deliver (b : UInt8) : ByteRun :=
    .step 0 (.deliver ⟨b, cc, none, [b]⟩) :: List.replicate 5 (.step 0 (.advance true))
  .spawn () :: deliver 7 ++ deliver 8 ++ [.step 0 .finish]

def onePartitioned : CaptureConfig := { twoSplits with splitPath := false, maxEntryBytes := 9 }

/-- One partition column, and at most two partitions. -/
def byteParts : PartitionCapture Unit := ⟨default, [()], [ascii "p"], [], 2, []⟩

end Vgi
