import Vgi.Shm.Allocator

/-!
# Leases on slots

A batch that the client resolves from a pointer of the worker is a view of the slot it was written
to. The connection keeps a lease on the slot, and gives the slot back once nobody else holds the
lease; at each init it resets the table up to the slots it still leases. In the other direction the
client writes a batch to a slot, and the worker frees it when it has resolved the pointer.

Client and worker take turns on the header, so each operation is one step; an init comes when both
directions are drained (`Permitted`). Batches are held and dropped at any time.

* `Inv`: leased slots and those of pointers that are on the way are entries of the table, and no two
  of them are the same;
* `slot_not_reused`: in every run, what is allocated does not overlap a slot that a batch views.
-/

namespace Vgi.Shm

open VgiShmSegment List
variable (w : Connection)

/-- A lease on a slot of a segment, with the number of references to it from batches. -/
structure VgiShmSlotLease where
  segment : ℕ
  slot : AllocEntry
  holders : ℕ

/-- A connection, and what is on the way to both sides. -/
structure Connection where
  /-- How many segments have been created; the last of them is in use. -/
  created : ℕ := 0
  shmSegment : Option VgiShmSegment := none
  shmLeases : List VgiShmSlotLease := []
  /-- Leases that the connection has let go of with their segment. -/
  orphans : List VgiShmSlotLease := []
  toClient : List AllocEntry := []
  toWorker : List AllocEntry := []

open Connection

/-- Free the slots of the leases that nobody else holds; the leases that are left. -/
def releaseUnreferencedShmSlots :
    List VgiShmSlotLease → VgiShmSegment → Except String (List VgiShmSlotLease × VgiShmSegment)
  | [], seg => .ok ([], seg)
  | lease :: leases, seg =>
    if lease.holders ≠ 0 then do
      let (leases, seg) ← releaseUnreferencedShmSlots leases seg
      .ok (lease :: leases, seg)
    else do
      let seg ← seg.freeAllocation lease.slot.offset
      releaseUnreferencedShmSlots leases seg

inductive Action
  /-- The worker writes a batch of this size. -/
  | workerWrite (len : UInt64)
  /-- The worker resolves the next pointer and frees its slot, or passes over it. -/
  | workerResolve (free : Bool)
  /-- The client reads the next pointer: it can be decoded, or not. -/
  | resolve (decodes : Bool)
  /-- The client drains a pointer. -/
  | discard
  | sweep
  /-- The client writes a batch, and the write runs through or not. -/
  | clientWrite (len : UInt64) (written : Bool)
  /-- Another reference to a batch, or one less. -/
  | hold (i : ℕ)
  | drop (i : ℕ)
  /-- An init, with the size for a new segment. -/
  | performInit (size : UInt64)
  /-- An init that cannot set shared memory up. -/
  | performInitFails

/-- The sweep of the connection. -/
def sweep : Except String Connection :=
  match w.shmSegment with
  | none => .ok w
  | some seg => do
    let (shmLeases, seg) ← releaseUnreferencedShmSlots w.shmLeases seg
    .ok { w with shmLeases, shmSegment := some seg }

/-- Change how many hold a lease that is held. -/
def setHolders (i : ℕ) (f : ℕ → ℕ) : Connection :=
  { w with shmLeases := w.shmLeases.modify i fun lease =>
      if lease.holders = 0 then lease else { lease with holders := f lease.holders } }

def perform : Action → Except String Connection
  | .workerWrite len =>
    match w.shmSegment with
    | none => .ok w
    | some seg => do
      match ← seg.allocate len with
      | (none, _) => .ok w
      | (some o, seg) => .ok { w with shmSegment := some seg, toClient := w.toClient ++ [⟨o, len⟩] }
  | .workerResolve free =>
    match w.toWorker, w.shmSegment with
    | slot :: rest, some seg => do
      let seg ← if free then seg.freeAllocation slot.offset else .ok seg
      .ok { w with shmSegment := some seg, toWorker := rest }
    | _, _ => .ok w
  | .resolve decodes => do
    let w ← sweep w
    match w.toClient with
    | [] => .ok w
    | slot :: rest =>
      .ok { w with
        toClient := rest
        shmLeases := if decodes then w.shmLeases ++ [⟨w.created, slot, 1⟩] else w.shmLeases }
  | .discard => .ok { w with toClient := w.toClient.tail }
  | .sweep => sweep w
  | .clientWrite len written =>
    match w.shmSegment with
    | none => .ok w
    | some seg => do
      match ← seg.allocate len with
      | (none, _) => .ok w
      | (some o, seg) =>
        if written then .ok { w with shmSegment := some seg, toWorker := w.toWorker ++ [⟨o, len⟩] }
        else do
          let seg ← seg.freeAllocation o
          .ok { w with shmSegment := some seg }
  | .hold i => .ok (setHolders w i (· + 1))
  | .drop i => .ok (setHolders w i (· - 1))
  | .performInit size =>
    match w.shmSegment with
    | none => .ok { w with created := w.created + 1, shmSegment := some { size } }
    | some _ => do
      let w ← sweep w
      match w.shmSegment with
      | none => .ok w
      | some seg =>
        let seg ← seg.retainOnly (w.shmLeases.map (·.slot.offset))
        .ok { w with shmSegment := some seg }
  | .performInitFails =>
    .ok { w with shmSegment := none, shmLeases := [], orphans := w.shmLeases ++ w.orphans }

/-- Sizes of batches and segments are those of memory, and an init comes when nothing is on the way. -/
abbrev Permitted : Action → Prop
  | .workerWrite len => len.toNat < 2 ^ 63
  | .clientWrite len _ => len.toNat < 2 ^ 63
  | .performInit size => size.toNat < 2 ^ 63 ∧ w.toClient = [] ∧ w.toWorker = []
  | .performInitFails => w.toClient = [] ∧ w.toWorker = []
  | _ => True

instance (w : Connection) (act : Action) : Decidable (Permitted w act) := by
  rcases act <;> infer_instance

/-- The steps of a connection. One that throws is none. -/
def machine : Machine Connection Action where
  step w act := if Permitted w act then (perform w act).toOption else none

theorem ok_bind {α β : Type} (a : α) (f : α → Except String β) : (Except.ok a >>= f) = f a := rfl

/-! ## The segment -/

/-- A segment that is only used by its operations. -/
structure Sound (seg : VgiShmSegment) : Prop where
  mapped : seg.mapped
  size_lt : seg.size.toNat < 2 ^ 63
  wellFormed : seg.WellFormed
  num_le : seg.numAllocs ≤ maxAllocs
  length_ne : ∀ e ∈ seg.live, e.length ≠ 0

variable {seg seg' : VgiShmSegment}

theorem sound_new {size : UInt64} (hsz : size.toNat < 2 ^ 63) : Sound { size } where
  mapped := rfl
  size_lt := hsz
  wellFormed := ⟨.nil, .nil, fun _ he => nomatch he⟩
  num_le := Nat.zero_le _
  length_ne _ he := nomatch he

section

variable (h : Sound seg)

include h

/-- With fewer entries a segment is as sound. -/
theorem Sound.sublist (hmap : seg'.mapped) (hsz : seg'.size = seg.size)
    (hsub : seg'.live.Sublist seg.live) : Sound seg' where
  mapped := hmap
  size_lt := hsz ▸ h.size_lt
  wellFormed := h.wellFormed.sublist hsub hsz
  num_le := by
    have := hsub.length_le
    rw [length_live, length_live] at this
    exact this.trans h.num_le
  length_ne e he := h.length_ne e (hsub.subset he)

variable {len : UInt64}

/-- Batches that fit into memory are allocated safely. -/
theorem Sound.inRange (hlen : len.toNat < 2 ^ 63) : seg.InRange len := by
  refine (inRange_iff seg len).2 (.inr (.inr (.inr (.inr (.inl ⟨?_, fun i hi => ?_⟩)))))
  · have : headerSize.toNat = 65536 := rfl
    omega
  have hmem : seg.table i ∈ seg.live := mem_live.2 ⟨i, hi, rfl⟩
  have := h.wellFormed.toNat_wrapEnd hmem
  have := (h.wellFormed.inside _ hmem).2
  have := h.size_lt
  omega

theorem Sound.exists_allocate (len : UInt64) : ∃ r, seg.allocate len = .ok r := by
  rcases hr : seg.allocate len with msg | r
  · rw [VgiShmSegment.allocate, if_neg (Nat.not_lt.2 h.num_le)] at hr
    dsimp only at hr
    split_ifs at hr
  · exact ⟨r, rfl⟩

variable {o : UInt64}

/-- An allocation is a new entry, at an offset of its own. -/
theorem Sound.allocate (hlen : len.toNat < 2 ^ 63) (hal : seg.allocate len = .ok (some o, seg')) :
    Sound seg' ∧ ⟨o, len⟩ ∈ seg'.live ∧ (∀ e ∈ seg.live, e ∈ seg'.live) ∧ ∀ e ∈ seg.live, e.offset ≠ o := by
  have hle := (firstFit_fits len headerSize seg.live 0).le_length
  rw [length_live, Nat.zero_add] at hle
  obtain ⟨-, hne, -, hnm, -, hlv, hmap, hsz⟩ := allocate_some hal rfl hle
  have hmem e : e ∈ seg'.live ↔ e = ⟨o, len⟩ ∨ e ∈ seg.live := by
    rw [hlv, mem_append, mem_cons, or_left_comm, ← mem_append, take_append_drop]
  refine ⟨⟨hmap, hsz ▸ h.size_lt, h.wellFormed.allocate hal (h.inRange hlen), ?_, ?_⟩,
    (hmem _).2 (.inl rfl), fun e he => (hmem e).2 (.inr he), fun e he heq => ?_⟩
  · have := congrArg List.length hlv
    rw [length_live, length_append, length_cons, length_take, length_drop, length_live] at this
    omega
  · intro e he
    rcases (hmem e).1 he with rfl | he
    · exact hne
    · exact h.length_ne e he
  · -- both would have the byte at the offset
    have hpos {x : UInt64} (hx : x ≠ 0) : 0 < x.toNat := Nat.pos_of_ne_zero fun h0 => hx (UInt64.toNat_inj.1 h0)
    have hdj := h.wellFormed.allocate_disjoint hal he
    have := hpos hne
    have := hpos (h.length_ne e he)
    refine absurd hdj (Set.not_disjoint_iff.2 ⟨o.toNat, ?_, ?_⟩)
    · rw [AllocEntry.bytes, heq, Set.mem_Ico]
      omega
    · rw [AllocEntry.bytes, Set.mem_Ico]
      dsimp only
      omega

/-- The other entries stay when a slot is freed. -/
theorem Sound.freeAllocation (offset : UInt64) :
    ∃ seg', seg.freeAllocation offset = .ok seg' ∧ Sound seg' ∧ ∀ e ∈ seg.live, e.offset ≠ offset → e ∈ seg'.live := by
  rcases hfr : seg.freeAllocation offset with msg | seg'
  · rw [VgiShmSegment.freeAllocation, if_neg (by simp [h.mapped]), if_neg (Nat.not_lt.2 h.num_le)] at hfr
    rcases hfn : seg.live.findIdx? (fun e => e.offset = offset) with _ | i <;> rw [hfn] at hfr <;> cases hfr
  · obtain ⟨hlv, hmap, hsz⟩ := freeAllocation_ok hfr h.mapped
    refine ⟨seg', rfl, h.sublist hmap hsz (hlv ▸ eraseP_sublist), fun e he hne => ?_⟩
    rw [hlv]
    exact (mem_eraseP_of_neg (by simpa using hne)).2 he

theorem Sound.retainOnly (offsets : List UInt64) :
    ∃ seg', seg.retainOnly offsets = .ok seg' ∧ Sound seg' ∧ ∀ e ∈ seg.live, e.offset ∈ offsets → e ∈ seg'.live := by
  rcases hrt : seg.retainOnly offsets with msg | seg'
  · rw [VgiShmSegment.retainOnly, if_neg (by simp [h.mapped]), if_neg (Nat.not_lt.2 h.num_le)] at hrt
    split_ifs at hrt
  · obtain ⟨hlv, hmap, hsz⟩ := retainOnly_ok hrt h.mapped
    refine ⟨seg', rfl, h.sublist hmap hsz (hlv ▸ filter_sublist), fun e he hmem => ?_⟩
    rw [hlv, mem_filter]
    exact ⟨he, by simpa using hmem⟩

/-- A sweep frees the slots of the leases without holders. -/
theorem Sound.releaseUnreferencedShmSlots (leases : List VgiShmSlotLease) :
    ∃ seg', releaseUnreferencedShmSlots leases seg = .ok (leases.filter (·.holders ≠ 0), seg') ∧ Sound seg' ∧
      ∀ e ∈ seg.live, (∀ l ∈ leases, l.holders = 0 → e.offset ≠ l.slot.offset) → e ∈ seg'.live := by
  induction leases generalizing seg with
  | nil => exact ⟨seg, rfl, h, fun e he _ => he⟩
  | cons lease leases ih =>
    rw [Shm.releaseUnreferencedShmSlots]
    by_cases hhl : lease.holders ≠ 0
    · obtain ⟨seg', hsg', hsnd, hkp⟩ := ih h
      refine ⟨seg', ?_, hsnd, fun e he hne => hkp e he fun l hl => hne l (mem_cons_of_mem _ hl)⟩
      rw [if_pos hhl, hsg', filter_cons_of_pos (by simpa using hhl)]
      rfl
    · obtain ⟨seg₁, hfr, hsnd₁, hkp₁⟩ := h.freeAllocation lease.slot.offset
      obtain ⟨seg', hsg', hsnd, hkp⟩ := ih hsnd₁
      refine ⟨seg', ?_, hsnd, fun e he hne => hkp e (hkp₁ e he ?_) fun l hl => ?_⟩
      · rw [if_neg hhl, hfr, filter_cons_of_neg (by simpa using hhl)]
        exact hsg'
      · exact hne lease mem_cons_self (not_not.1 hhl)
      · exact hne l (mem_cons_of_mem _ hl)

end

/-! ## The invariant -/

/-- The slots that someone is entitled to. -/
def Connection.owned : List AllocEntry :=
  w.shmLeases.map (·.slot) ++ (w.toClient ++ w.toWorker)

/-- The slots are entries of the table, no two of them at one offset. -/
structure Owns (slots : List AllocEntry) (seg : VgiShmSegment) : Prop where
  distinct : (slots.map (·.offset)).Nodup
  live : ∀ s ∈ slots, s ∈ seg.live

variable {slots : List AllocEntry} {slots' : List AllocEntry}

theorem Owns.perm (h : Owns slots seg) (hpr : slots'.Perm slots) : Owns slots' seg where
  distinct := (hpr.map _).nodup_iff.2 h.distinct
  live s hs := h.live s (hpr.mem_iff.1 hs)

theorem Owns.sublist (h : Owns slots seg) (hsub : slots'.Sublist slots)
    (hkp : ∀ s ∈ slots', s ∈ seg.live → s ∈ seg'.live) : Owns slots' seg' where
  distinct := h.distinct.sublist (hsub.map _)
  live s hs := hkp s hs (h.live s (hsub.subset hs))

/-- A new allocation belongs to the one it is for. -/
theorem Owns.allocate (h : Owns slots seg) (hsnd : Sound seg) (hlen : len.toNat < 2 ^ 63)
    (hal : seg.allocate len = .ok (some o, seg')) : Sound seg' ∧ Owns (⟨o, len⟩ :: slots) seg' := by
  obtain ⟨hsnd', hnew, hkp, hne⟩ := hsnd.allocate hlen hal
  refine ⟨hsnd', nodup_cons.2 ⟨fun hmem => ?_, h.distinct⟩, fun s hs => ?_⟩
  · obtain ⟨s, hs, heq⟩ := mem_map.1 hmem
    exact hne s (h.live s hs) heq
  · rcases mem_cons.1 hs with rfl | hs
    · exact hnew
    · exact hkp s (h.live s hs)

/-- When a slot is freed the others stay with their owners. -/
theorem Owns.freeAllocation {slot : AllocEntry} (h : Owns (slot :: slots) seg) (hsnd : Sound seg) :
    ∃ seg', seg.freeAllocation slot.offset = .ok seg' ∧ Sound seg' ∧ Owns slots seg' := by
  obtain ⟨seg', hfr, hsnd', hkp⟩ := hsnd.freeAllocation slot.offset
  refine ⟨seg', hfr, hsnd', h.sublist (sublist_cons_self _ _) fun s hs hlv => ?_⟩
  refine hkp s hlv fun heq => (nodup_cons.1 h.distinct).1 ?_
  exact mem_map.2 ⟨s, hs, heq⟩

/-- A sweep only takes slots that nobody holds. -/
theorem Owns.release {leases : List VgiShmSlotLease} {rest : List AllocEntry}
    (h : Owns (leases.map (·.slot) ++ rest) seg) (hsnd : Sound seg) :
    ∃ seg', releaseUnreferencedShmSlots leases seg = .ok (leases.filter (·.holders ≠ 0), seg') ∧ Sound seg' ∧
      Owns ((leases.filter (·.holders ≠ 0)).map (·.slot) ++ rest) seg' := by
  obtain ⟨seg', hrl, hsnd', hkp⟩ := hsnd.releaseUnreferencedShmSlots leases
  refine ⟨seg', hrl, hsnd', h.sublist ((filter_sublist.map _).append (.refl _)) ?_⟩
  intro s hs hlv
  refine hkp s hlv fun l hl hfr heq => ?_
  have hds := h.distinct
  rw [map_append, map_map, nodup_append] at hds
  rcases mem_append.1 hs with hs | hs
  · -- another lease, one that is held
    obtain ⟨l', hl', rfl⟩ := mem_map.1 hs
    obtain ⟨hl', hhl⟩ := mem_filter.1 hl'
    have : l' = l := inj_on_of_nodup_map hds.1 hl' hl heq
    rw [this, hfr] at hhl
    simp at hhl
  · exact hds.2.2 _ (mem_map_of_mem hl) _ (mem_map_of_mem hs) heq.symm

structure Inv (w : Connection) : Prop where
  sound : ∀ seg, w.shmSegment = some seg → Sound seg ∧ Owns w.owned seg
  nothing : w.shmSegment = none → w.owned = []
  current : ∀ l ∈ w.shmLeases, l.segment = w.created
  orphan : ∀ l ∈ w.orphans, l.segment < w.created ∨ l.segment = w.created ∧ w.shmSegment = none

variable {w : Connection}

/-- The segment changes, with the leases and the slots on the way. -/
theorem Inv.change (h : Inv w) {seg : VgiShmSegment} (hsg : w.shmSegment = some seg)
    {shmLeases : List VgiShmSlotLease} {toClient toWorker : List AllocEntry}
    (hls : ∀ l ∈ shmLeases, l.segment = w.created) (hsnd : Sound seg')
    (how : Owns (shmLeases.map (·.slot) ++ (toClient ++ toWorker)) seg') :
    Inv { w with shmSegment := some seg', shmLeases, toClient, toWorker } where
  sound _ heq := Option.some.inj heq ▸ ⟨hsnd, how⟩
  nothing heq := nomatch heq
  current := hls
  orphan l hl := by
    rcases h.orphan l hl with hlt | ⟨-, hno⟩
    · exact .inl hlt
    · rw [hsg] at hno
      cases hno

theorem Inv.sweep (h : Inv w) :
    ∃ w', sweep w = .ok w' ∧ Inv w' ∧ w'.toClient = w.toClient ∧ w'.toWorker = w.toWorker ∧
      w'.shmSegment.isSome = w.shmSegment.isSome := by
  rw [Shm.sweep]
  rcases hsg : w.shmSegment with _ | seg
  · exact ⟨w, rfl, h, rfl, rfl, by rw [hsg]⟩
  obtain ⟨hsnd, how⟩ := h.sound seg hsg
  obtain ⟨seg', hrl, hsnd', how'⟩ := how.release hsnd
  dsimp only
  rw [hrl]
  exact ⟨_, rfl, h.change hsg (fun l hl => h.current l (mem_of_mem_filter hl)) hsnd' how', rfl, rfl, rfl⟩

theorem map_modify_of_eq {α β : Type*} {f : α → β} {g : α → α} (h : ∀ x, f (g x) = f x) (l : List α) (i : ℕ) :
    (l.modify i g).map f = l.map f := by
  refine ext_getElem? fun j => ?_
  rw [getElem?_map, getElem?_map, getElem?_modify]
  rcases l[j]? with _ | x
  · rfl
  · split_ifs
    · exact congrArg some (h x)
    · rfl

section

variable (h : Inv w)

include h

/-- Holding and dropping a batch moves no slot. -/
theorem Inv.setHolders (i : ℕ) (f : ℕ → ℕ) : Inv (setHolders w i f) := by
  have hown : (Shm.setHolders w i f).owned = w.owned := by
    rw [owned, Shm.setHolders, map_modify_of_eq fun l => by split_ifs <;> rfl]
    rfl
  have hsgm : (Shm.setHolders w i f).shmLeases.map (·.segment) = w.shmLeases.map (·.segment) :=
    map_modify_of_eq (fun l => by split_ifs <;> rfl) _ _
  refine ⟨fun seg hsg => hown ▸ h.sound seg hsg, fun hno => hown ▸ h.nothing hno, fun l hl => ?_, h.orphan⟩
  obtain ⟨l', hl', heq⟩ := mem_map.1 (hsgm ▸ mem_map_of_mem hl)
  exact heq ▸ h.current l' hl'

/-- What either side does with a new slot. -/
theorem Inv.write {seg : VgiShmSegment} (hsg : w.shmSegment = some seg) (hlen : len.toNat < 2 ^ 63)
    (hal : seg.allocate len = .ok (some o, seg')) :
    Inv { w with shmSegment := some seg', toClient := w.toClient ++ [⟨o, len⟩] } ∧
    Inv { w with shmSegment := some seg', toWorker := w.toWorker ++ [⟨o, len⟩] } ∧
    ∃ seg'', seg'.freeAllocation o = .ok seg'' ∧ Inv { w with shmSegment := some seg'' } := by
  obtain ⟨hsnd, how⟩ := h.sound seg hsg
  obtain ⟨hsnd', how'⟩ := how.allocate hsnd hlen hal
  refine ⟨h.change hsg h.current hsnd' (how'.perm ?_), h.change hsg h.current hsnd' (how'.perm ?_), ?_⟩
  · rw [append_assoc w.toClient, singleton_append, ← append_assoc, owned, ← append_assoc]
    exact perm_middle
  · rw [← append_assoc, ← append_assoc, owned, ← append_assoc]
    exact perm_append_singleton _ _
  · obtain ⟨seg'', hfr, hsnd'', how''⟩ := how'.freeAllocation hsnd'
    exact ⟨seg'', hfr, h.change hsg h.current hsnd'' how''⟩

/-- The worker takes the next pointer. -/
theorem Inv.workerResolve (free : Bool) : ∃ w', perform w (.workerResolve free) = .ok w' ∧ Inv w' := by
  rw [perform]
  rcases hwk : w.toWorker with _ | ⟨slot, rest⟩
  · exact ⟨w, rfl, h⟩
  rcases hsg : w.shmSegment with _ | seg
  · exact ⟨w, rfl, h⟩
  obtain ⟨hsnd, how⟩ := h.sound seg hsg
  have how' : Owns (slot :: (w.shmLeases.map (·.slot) ++ (w.toClient ++ rest))) seg := by
    refine how.perm ?_
    rw [owned, hwk, ← append_assoc, ← append_assoc]
    exact perm_middle.symm
  dsimp only
  rcases free with _ | _
  · exact ⟨_, rfl, h.change hsg h.current hsnd (how'.sublist (sublist_cons_self _ _) fun _ _ hs => hs)⟩
  · obtain ⟨seg', hfr, hsnd', how''⟩ := how'.freeAllocation hsnd
    rw [if_pos rfl, hfr]
    exact ⟨_, rfl, h.change hsg h.current hsnd' how''⟩

/-- The client takes the next pointer, and leases its slot. -/
theorem Inv.resolve (decodes : Bool) : ∃ w', perform w (.resolve decodes) = .ok w' ∧ Inv w' := by
  obtain ⟨w₁, hw₁, h₁, -⟩ := h.sweep
  rw [perform, hw₁, ok_bind]
  rcases hcl : w₁.toClient with _ | ⟨slot, rest⟩
  · exact ⟨w₁, rfl, h₁⟩
  refine ⟨_, rfl, ?_⟩
  have hsub : (w₁.shmLeases.map (·.slot) ++ (rest ++ w₁.toWorker)).Sublist w₁.owned := by
    rw [owned, hcl]
    exact (List.Sublist.refl _).append ((sublist_cons_self _ _).append (.refl _))
  rcases hsg : w₁.shmSegment with _ | seg
  · -- without a segment nothing is on the way
    have hnil := h₁.nothing hsg
    rw [owned, hcl] at hnil
    simp at hnil
  obtain ⟨hsnd, how⟩ := h₁.sound seg hsg
  rcases decodes with _ | _
  · exact h₁.change hsg h₁.current hsnd (how.sublist hsub fun _ _ hs => hs)
  refine h₁.change hsg (fun l hl => ?_) hsnd (how.perm ?_)
  · rcases mem_append.1 hl with hl | hl
    · exact h₁.current l hl
    · exact mem_singleton.1 hl ▸ rfl
  · rw [if_pos rfl, map_append, append_assoc, owned, hcl]
    exact .refl _

/-- The client drains a pointer. -/
theorem Inv.discard : Inv { w with toClient := w.toClient.tail } := by
  have hsub : (w.shmLeases.map (·.slot) ++ (w.toClient.tail ++ w.toWorker)).Sublist w.owned :=
    (List.Sublist.refl _).append ((tail_sublist _).append (.refl _))
  refine ⟨fun seg hsg => ?_, fun hno => ?_, h.current, h.orphan⟩
  · obtain ⟨hsnd, how⟩ := h.sound seg hsg
    exact ⟨hsnd, how.sublist hsub fun _ _ hs => hs⟩
  · exact sublist_nil.1 (h.nothing hno ▸ hsub)

/-- An init keeps the slots that are leased. -/
theorem Inv.performInit {size : UInt64}
    (hact : Permitted w (.performInit size)) : ∃ w', perform w (.performInit size) = .ok w' ∧ Inv w' := by
  obtain ⟨hsz, hcl, hwk⟩ := hact
  rw [perform]
  rcases hsg : w.shmSegment with _ | seg
  · -- a new segment
    have hnil := h.nothing hsg
    have hls : w.shmLeases = [] := by
      rw [owned] at hnil
      exact map_eq_nil_iff.1 (append_eq_nil_iff.1 hnil).1
    refine ⟨_, rfl, fun _ heq => ?_, nofun, fun l hl => ?_, fun l hl => ?_⟩
    · cases heq
      refine ⟨sound_new hsz, ?_⟩
      change Owns w.owned _
      rw [hnil]
      exact ⟨.nil, nofun⟩
    · change l ∈ w.shmLeases at hl
      rw [hls] at hl
      cases hl
    · rcases h.orphan l hl with hlt | ⟨heq, -⟩
      · exact .inl (Nat.lt_succ_of_lt hlt)
      · exact .inl (heq ▸ Nat.lt_succ_self _)
  · obtain ⟨w₁, hw₁, h₁, hcl₁, hwk₁, hsm⟩ := h.sweep
    rw [hw₁, ok_bind]
    rcases hsg₁ : w₁.shmSegment with _ | seg₁
    · exact ⟨w₁, rfl, h₁⟩
    obtain ⟨hsnd, how⟩ := h₁.sound seg₁ hsg₁
    obtain ⟨seg', hrt, hsnd', hkp⟩ := hsnd.retainOnly (w₁.shmLeases.map (·.slot.offset))
    dsimp only
    rw [hrt, ok_bind]
    refine ⟨_, rfl, h₁.change hsg₁ h₁.current hsnd' (how.sublist (.refl _) fun s hs hlv => ?_)⟩
    rw [hcl₁, hwk₁, hcl, hwk, append_nil, append_nil] at hs
    obtain ⟨l, hl, rfl⟩ := mem_map.1 hs
    exact hkp _ hlv (mem_map.2 ⟨l, hl, rfl⟩)

theorem Inv.performInitFails (hact : Permitted w .performInitFails) :
    ∃ w', perform w .performInitFails = .ok w' ∧ Inv w' := by
  obtain ⟨hcl, hwk⟩ := hact
  refine ⟨_, rfl, nofun, fun _ => ?_, nofun, fun l hl => ?_⟩
  · rw [owned, hcl, hwk]
    rfl
  rcases mem_append.1 hl with hl | hl
  · exact .inr ⟨h.current l hl, rfl⟩
  · rcases h.orphan l hl with hlt | ⟨heq, -⟩
    · exact .inl hlt
    · exact .inr ⟨heq, rfl⟩

/-- An operation does not throw and keeps the invariant. -/
theorem Inv.perform {act : Action} (hact : Permitted w act) : ∃ w', perform w act = .ok w' ∧ Inv w' := by
  rcases act with len | free | decodes | _ | _ | ⟨len, written⟩ | i | i | size | _
  · rw [Shm.perform]
    rcases hsg : w.shmSegment with _ | seg
    · exact ⟨w, rfl, h⟩
    obtain ⟨⟨_ | o, seg'⟩, hr⟩ := (h.sound seg hsg).1.exists_allocate len
    · exact ⟨w, by dsimp only; rw [hr]; rfl, h⟩
    · exact ⟨_, by dsimp only; rw [hr]; rfl, (h.write hsg hact hr).1⟩
  · exact h.workerResolve free
  · exact h.resolve decodes
  · exact ⟨_, rfl, h.discard⟩
  · obtain ⟨w', hw', hinv, -⟩ := h.sweep
    exact ⟨w', hw', hinv⟩
  · rw [Shm.perform]
    rcases hsg : w.shmSegment with _ | seg
    · exact ⟨w, rfl, h⟩
    obtain ⟨⟨_ | o, seg'⟩, hr⟩ := (h.sound seg hsg).1.exists_allocate len
    · exact ⟨w, by dsimp only; rw [hr]; rfl, h⟩
    obtain ⟨-, hwt, seg'', hfr, hfl⟩ := h.write hsg hact hr
    rcases written with _ | _
    · refine ⟨_, ?_, hfl⟩
      dsimp only
      rw [hr, ok_bind]
      dsimp only
      rw [if_neg Bool.false_ne_true, hfr]
      rfl
    · exact ⟨_, by dsimp only; rw [hr]; rfl, hwt⟩
  · exact ⟨_, rfl, h.setHolders i _⟩
  · exact ⟨_, rfl, h.setHolders i _⟩
  · exact h.performInit hact
  · exact h.performInitFails hact

end

theorem Inv.run {acts : List Action} (hw : machine.run {} acts = some w) : Inv w := by
  refine Machine.run_invariant (fun {w act w'} h hst => ?_) ?_ hw
  · obtain ⟨hact, hpr⟩ : Permitted w act ∧ (Shm.perform w act).toOption = some w' := by
      simpa [machine] using hst
    obtain ⟨w₁, hw₁, hinv⟩ := h.perform hact
    rw [hw₁] at hpr
    exact Option.some.inj hpr ▸ hinv
  · exact ⟨nofun, fun _ => rfl, nofun, nofun⟩

/-- In every run of a connection, what is allocated next, by either side, does not overlap a slot that
    a batch still views; and no operation throws. -/
theorem slot_not_reused {acts : List Action} {w : Connection} (hw : machine.run {} acts = some w) :
    (∀ seg len o seg', w.shmSegment = some seg → seg.allocate len = .ok (some o, seg') →
      ∀ lease ∈ w.shmLeases ++ w.orphans, lease.segment = w.created → lease.holders ≠ 0 →
        Disjoint lease.slot.bytes (AllocEntry.bytes ⟨o, len⟩)) ∧
    ∀ act, Permitted w act → (machine.step w act).isSome := by
  have h := Inv.run hw
  refine ⟨fun seg len o seg' hsg hal lease hls hcr _ => ?_, fun act hact => ?_⟩
  · obtain ⟨hsnd, how⟩ := h.sound seg hsg
    rcases mem_append.1 hls with hls | hls
    · refine hsnd.wellFormed.allocate_disjoint hal (how.live _ ?_)
      exact mem_append_left _ (mem_map_of_mem hls)
    -- a lease of a segment that is no longer used
    rcases h.orphan lease hls with hlt | ⟨-, hno⟩
    · exact absurd hcr (Nat.ne_of_lt hlt)
    · rw [hsg] at hno
      cases hno
  · obtain ⟨w', hw', -⟩ := h.perform hact
    have hst : machine.step w act = some w' := by
      refine (if_pos hact).trans ?_
      rw [hw']
      rfl
    rw [hst]
    rfl

/-- The worker writes two batches; the second is kept beyond the next init. -/
def retained : List Action :=
  [.performInit 69632, .workerWrite 100, .resolve true, .workerWrite 200, .resolve true, .hold 1, .drop 0,
   .drop 1, .workerWrite 40, .discard, .performInit 69632, .clientWrite 30 true, .workerResolve true]

def retainedConnection : Connection := (machine.run {} retained).get (by decide +kernel)

/-- The slot of the first batch is free again; that of the second is not. -/
theorem retained_not_reused :
    retainedConnection.shmLeases.map (·.slot) = [⟨65636, 200⟩] ∧
    ∀ seg len o seg', retainedConnection.shmSegment = some seg → seg.allocate len = .ok (some o, seg') →
      ∀ lease ∈ retainedConnection.shmLeases ++ retainedConnection.orphans,
        lease.segment = retainedConnection.created → lease.holders ≠ 0 →
          Disjoint lease.slot.bytes (AllocEntry.bytes ⟨o, len⟩) :=
  ⟨by decide +kernel, (slot_not_reused (Option.some_get _).symm).1⟩

/-- In every run, the table of the segment in use is sorted, disjoint and inside of the segment, and what is leased or
    on the way are different slots of it. -/
theorem table_kept {acts : List Action} {w : Connection} (hw : machine.run {} acts = some w) {seg : VgiShmSegment}
    (hseg : w.shmSegment = some seg) : seg.WellFormed ∧ seg.numAllocs ≤ maxAllocs ∧
      (∀ e ∈ seg.live, e.length ≠ 0) ∧ (∀ slot ∈ w.owned, slot ∈ seg.live) ∧ (w.owned.map (·.offset)).Nodup := by
  obtain ⟨hsnd, hown⟩ := (Inv.run hw).sound seg hseg
  exact ⟨hsnd.wellFormed, hsnd.num_le, hsnd.length_ne, hown.live, hown.distinct⟩

theorem retained_table_kept : ∃ seg, retainedConnection.shmSegment = some seg ∧ seg.WellFormed := by
  obtain ⟨seg, hseg⟩ := Option.isSome_iff_exists.1 (show retainedConnection.shmSegment.isSome by decide +kernel)
  exact ⟨seg, hseg, (table_kept (Option.some_get _).symm hseg).1⟩

end Vgi.Shm
