import Vgi.Cache.Record
import Vgi.Lib.Fallible
import Vgi.Lib.Machine
import Vgi.Lib.Text

/-!
# The packed store

`PackStore`: the small results of exchanges are appended to pack files. Each shard has
an index from the fingerprints of keys to the records of its packs (`Loc`), a pack it
appends to (the writer), and the files of its directory. Beside a pack `x.vpack` there
may be a sidecar `x.vidx` with what the index has of it.

* `persist` appends a record and enters it into the index;
* `ensureLoaded` fills the index of a shard from its files: from the sidecar if it is
  for a pack of this size, or else from the records, and then the sidecar is written;
* `reap` drops what has expired, or is over the byte cap, from the indexes, and copies
  what is left of packs that are mostly dead to new ones;
* `invalidateShard` and `invalidateAll` forget the state of shards, not their files.

Any access to a file may fail (`Fault`): it throws, or a write stops after some bytes. A
file is opened for writing at its beginning, and is not truncated.
-/

namespace Vgi

/-! ## The state -/

/-- Where a record is. -/
structure Loc where
  /-- The name of the pack. -/
  pack : Bytes
  offset : ℕ
  recLen : ℕ
  expiresUnix : Int64
  logical : UInt64
  rows : Int64
  exchange : Bool
  /-- This process owns the pack. -/
  own : Bool
  /-- The age, for the eviction over the byte cap. -/
  seq : ℕ

structure PackMeta where
  own : Bool := false
  /-- The size of the file, as far as it is indexed. -/
  size : ℕ := 0

/-- The files of a directory. -/
abbrev Files := AList fun _ : Bytes => Bytes

structure ShardState where
  loaded : Bool := false
  index : AList fun _ : Bytes => Loc := ∅
  packs : AList fun _ : Bytes => PackMeta := ∅
  /-- The position in the open file of the writer. -/
  writer : Option ℕ := none
  writerPack : Bytes := []
  writerSize : ℕ := 0
  writerSeq : ℕ := 0

/-- A shard and its files. The records that were persisted are recorded beside. -/
structure PackShard where
  st : ShardState := {}
  files : Files := ∅
  log : List PackRecord := []

/-- What happens at an access to a file. -/
inductive Fault
  | ok
  | throws
  /-- A write stops after so many bytes. -/
  | short (n : ℕ)

/-- A shard at work: the next age, and what happens at the next accesses to files. -/
structure PackEnv where
  shard : PackShard
  ageSeq : ℕ := 1
  faults : List Fault := []

/-- The shards, by cache directory and identity. -/
structure PackWorld where
  shards : Bytes × Bytes → PackShard := fun _ => {}
  ageSeq : ℕ := 1
  faults : List Fault := []

/-- What a store is built on. -/
structure PackConfig where
  /-- The beginning of the names of its packs, of this process alone. -/
  selfId : Bytes
  sha256Hex : Bytes → Bytes
  /-- The order in which the entries of a hash map are visited. -/
  order : ∀ {α : Type}, List α → List α
  order_perm : ∀ {α : Type} (l : List α), (order l).Perm l

namespace PackStore

variable (cfg : PackConfig) (base : Bytes) (name : Bytes) (st : ShardState)

/-! ## Names -/

/-- The names of the packs of the process. -/
def packName (n : ℕ) : Bytes := cfg.selfId ++ (ascii "-" ++ (decimal n ++ ascii ".vpack"))

/-- `VidxOf`: the name of the sidecar. -/
def vidxOf : Bytes := base.take (base.length - 6) ++ ascii ".vidx"

def isOwn : Bool := (cfg.selfId ++ ascii "-").isPrefixOf base

/-- The name of a pack. -/
def isVpack : Bool :=
  6 < name.length && name.drop (name.length - 6) = ascii ".vpack"

/-! ## Files -/

open Fallible

/-- File operations, any of which may fail. -/
abbrev PackM := Fallible PackEnv

/-- What happens at this access. -/
def nextFault : PackM Fault := do
  let e ← get
  modify fun e => { e with faults := e.faults.tail }
  pure (e.faults.headD .ok)

/-- An access that succeeds or throws. -/
def access : PackM Unit := do
  match ← nextFault with
  | .ok => pure ()
  | _ => throw

/-- Try it; `none` if it throws. -/
def attempt {α : Type} (c : PackM α) : PackM (Option α) :=
  catching (do let a ← c; pure (some a)) (pure none)

def modifyState (f : ShardState → ShardState) : PackM Unit :=
  modify fun e => { e with shard := { e.shard with st := f e.shard.st } }

def modifyFiles (f : Files → Files) : PackM Unit :=
  modify fun e => { e with shard := { e.shard with files := f e.shard.files } }

/-- Open a file for reading. -/
def openRead : PackM Bytes := do
  access
  let e ← get
  match e.shard.files.lookup name with
  | some content => pure content
  | none => throw

/-- `ReadFileAll`: `none` if there is no such file, or it cannot be read. -/
def readFileAll : PackM (Option Bytes) := attempt (openRead name)

/-- Read at an offset, all the bytes or none. -/
def readAt (offset n : ℕ) : PackM Bytes := do
  let content ← openRead name
  if offset + n ≤ content.length then pure (slice content offset n) else throw

/-- Open a file for writing, at its beginning. It is created if need be, and not truncated. -/
def openCreate : PackM Unit := do
  access
  modifyFiles fun files => if (files.lookup name).isSome then files else files.insert name []

/-- The bytes from a position on are replaced. -/
def overwrite (content : Bytes) (pos : ℕ) (b : Bytes) : Bytes :=
  content.take pos ++ (b ++ content.drop (pos + b.length))

/-- No file is larger. -/
def maxFileBytes : ℕ := 2 ^ 63 - 1

/-- How many of `len` bytes are written. -/
def Fault.written (len : ℕ) : Fault → ℕ
  | .ok => len
  | .throws => 0
  | .short n => min n len

/-- The file with the bytes written at a position. -/
def writeFile (pos : ℕ) (b : Bytes) (files : Files) : Files :=
  match files.lookup name with
  | some content => files.insert name (overwrite content pos b)
  | none => files

/-- Write at a position; the number of bytes that were written. -/
def writeAt (pos : ℕ) (b : Bytes) : PackM ℕ := do
  let fault ← nextFault
  let n := min (Fault.written b.length fault) (maxFileBytes - pos)
  modifyFiles (writeFile name pos (b.take n))
  pure n

/-- `WriteFileAtomic`: a temporary file is written and then moved to the name. If the
    write stops early the file is moved all the same. -/
def writeFileAtomic (name b : Bytes) : PackM Unit := do
  match ← nextFault with
  | .ok => modifyFiles fun files => files.insert name b
  | .throws => throw
  | .short n => modifyFiles fun files => files.insert name (b.take n)

def removeFile : PackM Unit := do
  access
  let e ← get
  if (e.shard.files.lookup name).isSome then modifyFiles fun files => files.erase name else throw

/-! ## Sidecars -/

/-- What the index has of a pack. -/
def liveIn (base : Bytes) : List (Bytes × Loc) :=
  (cfg.order (st.index.entries.map fun x => (x.1, x.2))).filter fun x => x.2.pack = base

/-- An entry of a sidecar. -/
def vidxEntry (x : Bytes × Loc) : Bytes :=
  x.1 ++ (putLE 8 x.2.offset ++ (putLE 8 x.2.recLen ++ (putInt64 x.2.expiresUnix ++
    (putLE 8 x.2.logical.toNat ++ (putInt64 x.2.rows ++ [if x.2.exchange then 1 else 0])))))

/-- A sidecar: for which size of the pack it is, and its entries. -/
def vidxBytes (packSize : ℕ) (live : List (Bytes × Loc)) : Bytes :=
  ascii "VIX1" ++ (putLE 8 packSize ++ (putLE 8 live.length ++ live.flatMap vidxEntry))

/-- `WriteVidx`. -/
def writeVidx (packSize : ℕ) : PackM Unit := do
  let e ← get
  catching (writeFileAtomic (vidxOf base) (vidxBytes packSize (liveIn cfg e.shard.st base))) (pure ())

/-- The beginning of a sidecar: the size of the pack, and the number of entries. -/
def parseVidxHeader : Cursor (ℕ × ℕ) := do
  Cursor.expect (ascii "VIX1")
  let packSize ← Cursor.num 8
  let count ← Cursor.num 8
  pure (packSize, count)

/-- An entry of the sidecar of a pack. -/
def parseVidxEntry (own : Bool) : Cursor (Bytes × Loc) := do
  let keyfp ← Cursor.bytes 64
  let offset ← Cursor.num 8
  let recLen ← Cursor.num 8
  let expiresUnix ← readInt64
  let logical ← (fun n => UInt64.ofNat n) <$> Cursor.num 8
  let rows ← readInt64
  let flags ← (fun b => b.headD 0) <$> Cursor.bytes 1
  pure (keyfp, ⟨base, offset, recLen, expiresUnix, logical, rows, flags ≠ 0, own, 0⟩)

/-- So many entries of a sidecar, and whether there are as many. -/
def readVidx (base : Bytes) (own : Bool) (idx : Bytes) : ℕ → ℕ → List (Bytes × Loc) × Bool
  | 0, _ => ([], true)
  | count + 1, p =>
    match parseVidxEntry base own idx p with
    | none => ([], false)
    | some (x, p) =>
      let rest := readVidx base own idx count p
      (x :: rest.1, rest.2)

/-- The entries of the sidecar of a pack of this size, and whether they can be trusted. -/
def vidxFor (own : Bool) (actualSize : ℕ) : Option Bytes → List (Bytes × Loc) × Bool
  | none => ([], false)
  | some idx =>
    match parseVidxHeader idx 0 with
    | none => ([], false)
    | some ((packSize, count), p) =>
      if packSize = actualSize then readVidx base own idx count p else ([], false)

/-! ## Loading -/

/-- The key is new, or the record expires later than the one in the index. -/
def wins (x : Bytes × Loc) : Bool :=
  match st.index.lookup x.1 with
  | some old => old.expiresUnix < x.2.expiresUnix
  | none => true

/-- Enter a record that was found, unless the index has one that expires later. -/
def insertLoc (x : Bytes × Loc) (e : PackEnv) : PackEnv :=
  { e with
    ageSeq := e.ageSeq + 1
    shard := { e.shard with
      st := { e.shard.st with
        index :=
          if wins e.shard.st x then e.shard.st.index.insert x.1 { x.2 with seq := e.ageSeq }
          else e.shard.st.index } } }

/-- The record the scan of a pack has found. -/
def scannedLoc (own : Bool) (x : ℕ × ℕ × Rec) : Bytes × Loc :=
  (x.2.2.keyfp,
    { pack := base
      offset := x.1
      recLen := x.2.1
      expiresUnix := x.2.2.expires
      logical := x.2.2.logical
      rows := x.2.2.rows
      exchange := x.2.2.flags &&& 1 ≠ 0
      own := own
      seq := 0 })

/-- `LoadOnePack`, by a scan of the pack. -/
def rescan (actualSize : ℕ) : PackM Unit := do
  match ← readFileAll base with
  | none => pure ()
  | some buf =>
    match scanRecords buf with
    -- the scan does not come to an end
    | none => throw
    | some recs =>
      forEach (recs.map (scannedLoc base (isOwn cfg base))) fun x => modify (insertLoc x)
      writeVidx cfg base actualSize

/-- `LoadOnePack`. -/
def loadOnePack : PackM Unit := do
  match ← attempt (openRead base) with
  | none => pure ()
  | some content =>
    modifyState fun st =>
      { st with packs := st.packs.insert base ⟨isOwn cfg base, content.length⟩ }
    let vidx := vidxFor base (isOwn cfg base) content.length (← readFileAll (vidxOf base))
    forEach vidx.1 fun x => modify (insertLoc x)
    if vidx.2 then pure () else rescan cfg base content.length

/-- The packs of a directory, in the order of their names. -/
def vpacks (files : Files) : List Bytes :=
  (files.keys.filter isVpack).mergeSort fun a b => a ≤ b

/-- `EnsureLoaded`. -/
def ensureLoaded : PackM Unit := do
  let e ← get
  if e.shard.st.loaded then pure ()
  else
    modifyState fun st => { st with loaded := true }
    -- the directory is listed
    access
    forEach (vpacks e.shard.files) (loadOnePack cfg)

/-! ## Writing -/

/-- The pack of the writer is closed, after its sidecar was written. -/
def closeWriter : PackM Unit := do
  let e ← get
  let _ ← attempt access
  writeVidx cfg e.shard.st.writerPack e.shard.st.writerSize
  modifyState fun st => { st with writer := none }

/-- The pack of the writer is full. -/
def rolls (target need : ℕ) : Bool :=
  st.writer.isSome && 0 < target && target < st.writerSize + need

/-- The number of the next pack is taken. -/
def takeName : PackM Bytes := do
  let e ← get
  modifyState fun st => { st with writerSeq := (st.writerSeq + 1) % 2 ^ 32 }
  pure (packName cfg e.shard.st.writerSeq)

/-- A new pack for the writer. -/
def openWriter : PackM Unit := do
  -- the directories are made
  access
  let base ← takeName cfg
  openCreate base
  modifyState fun st =>
    { st with
      writer := some 0
      writerPack := base
      writerSize := 0
      packs := st.packs.insert base ⟨true, 0⟩ }

/-- `EnsureWriter`. -/
def ensureWriter (target need : ℕ) : PackM Unit := do
  let e ← get
  if e.shard.st.writer.isSome && !rolls e.shard.st target need then pure ()
  else
    if e.shard.st.writer.isSome then closeWriter cfg
    openWriter cfg

/-- `WriteAll` to the pack of the writer: the position moves by what was written. -/
def writeAll (b : Bytes) : PackM Unit := do
  let e ← get
  let pos := e.shard.st.writer.getD 0
  let n ← writeAt e.shard.st.writerPack pos b
  modifyState fun st => { st with writer := st.writer.map (· + n) }
  if n < b.length then throw

/-- The record was appended: it is entered into the index. The expiry is computed from the clock once more. -/
def enter (r : PackRecord) (expiresUnix : Int64) (e : PackEnv) : PackEnv :=
  let st := e.shard.st
  let size := st.writerSize + r.buildRecord.length
  let loc : Loc :=
    { pack := st.writerPack
      offset := st.writerSize
      recLen := r.buildRecord.length
      expiresUnix := expiresUnix
      logical := r.logical
      rows := r.rows
      exchange := r.exchange
      own := true
      seq := e.ageSeq }
  { e with
    ageSeq := e.ageSeq + 1
    shard := { e.shard with
      st := { st with
        writerSize := size
        packs := st.packs.insert st.writerPack
          { (st.packs.lookup st.writerPack).getD {} with size := size }
        index := st.index.insert r.keyfp loc }
      log := r :: e.shard.log } }

/-- `Persist`: whether the record was appended. -/
def persist (r : PackRecord) (expiresUnix : Int64) (target : ℕ) : PackM Bool :=
  catching
    (do
      ensureLoaded cfg
      ensureWriter cfg target r.buildRecord.length
      writeAll r.buildRecord
      modify (enter r expiresUnix)
      pure true)
    (pure false)

/-- Past the expiry. -/
def isStale (loc : Loc) (nowUnix : Int64) : Bool :=
  loc.expiresUnix ≠ Int64.maxValue && loc.expiresUnix ≤ nowUnix

/-- `Lookup`: the record of the key, if it has not expired and its blob has its digest. -/
def lookup (keyfp : Bytes) (nowUnix : Int64) : PackM (Option Rec) := do
  ensureLoaded cfg
  let e ← get
  match e.shard.st.index.lookup keyfp with
  | none => pure none
  | some loc =>
    if isStale loc nowUnix then pure none
    else
      match ← attempt (readAt loc.pack loc.offset loc.recLen) with
      | none => pure none
      | some buf =>
        match parseRecord buf 0 with
        | none => pure none
        | some (r, _) =>
          pure (if r.keyfp = keyfp ∧ cfg.sha256Hex r.blob = r.contentSha then some r else none)

/-! ## Reaping -/

/-- `RemovePackFiles`. -/
def removePackFiles : PackM Unit := do
  let _ ← attempt (removeFile base)
  let _ ← attempt (removeFile (vidxOf base))
  pure ()

/-- `SealWriter`. -/
def sealWriter : PackM Unit := do
  let e ← get
  if e.shard.st.writer.isSome then
    closeWriter cfg
    modifyState fun st => { st with writerPack := [], writerSize := 0 }

/-- The records still live are copied to a new pack, one after the other, and each is bound to its copy. -/
def copyLive (base newBase : Bytes) : List (Bytes × Loc) → ℕ → PackM ℕ
  | [], off => pure off
  | (k, loc) :: live, off => do
    let buf ← readAt base loc.offset loc.recLen
    let n ← writeAt newBase off buf
    if n < buf.length then throw
    modifyState fun st =>
      { st with index := st.index.insert k { loc with pack := newBase, offset := off } }
    copyLive base newBase live (off + loc.recLen)

/-- `CompactPack`: the part that may throw. -/
def compactInto (base newBase : Bytes) (live : List (Bytes × Loc)) : PackM Unit := do
  let _ ← openRead base
  openCreate newBase
  let size ← copyLive base newBase live 0
  access
  modifyState fun st => { st with packs := (st.packs.erase base).insert newBase ⟨true, size⟩ }
  writeVidx cfg newBase size

/-- `CompactPack`. -/
def compactPack : PackM Unit := do
  let e ← get
  let live := liveIn cfg e.shard.st base
  if live.isEmpty then
    modifyState fun st => { st with packs := st.packs.erase base }
    removePackFiles base
  else
    let newBase ← takeName cfg
    match ← attempt (compactInto cfg base newBase live) with
    | none => pure ()
    | some _ => removePackFiles base

/-- The bytes of a pack that are live. -/
def liveBytes (base : Bytes) : ℕ :=
  ((liveIn cfg st base).map (·.2.recLen)).sum % 2 ^ 64

/-- The pack is mostly dead. -/
def overThreshold (deadPct size live : ℕ) : Bool :=
  size ≠ 0 && (live = 0 || size * deadPct % 2 ^ 64 ≤ (size - live) * 100 % 2 ^ 64)

/-- The packs to be compacted. -/
def toCompact (deadPct : ℕ) : List Bytes :=
  ((cfg.order (st.packs.entries.map fun x => (x.1, x.2))).filter fun x =>
    x.2.own && x.1 ≠ st.writerPack && overThreshold deadPct x.2.size (liveBytes cfg st x.1)).map (·.1)

/-- `Reap`, the last part: the space of dead records is reclaimed. -/
def reclaim (deadPct : ℕ) : PackM Unit := do
  let e ← get
  let st := e.shard.st
  if st.writer.isSome && st.writerPack ≠ [] &&
      overThreshold deadPct ((st.packs.lookup st.writerPack).getD {}).size (liveBytes cfg st st.writerPack) then
    sealWriter cfg
  let e ← get
  forEach (toCompact cfg e.shard.st deadPct) (compactPack cfg)

/-- `Reap`, the first part: what has expired is dropped. -/
def expire (nowUnix : Int64) : PackM Unit := do
  ensureLoaded cfg
  modifyState fun st =>
    { st with index := st.index.entries.foldl (fun index x =>
      if isStale x.2 nowUnix then index.erase x.1 else index) st.index }

/-! ## All shards -/

/-- The work on one shard. -/
def onShard {α : Type} (k : Bytes × Bytes) (c : PackM α) : Fallible PackWorld α :=
  zoom (fun w => ⟨w.shards k, w.ageSeq, w.faults⟩)
    (fun e w => { w with shards := Function.update w.shards k e.shard, ageSeq := e.ageSeq, faults := e.faults })
    c

/-- Drop an entry of the index. -/
def dropKey (s : PackShard) (keyfp : Bytes) : PackShard :=
  { s with st := { s.st with index := s.st.index.erase keyfp } }

/-- The entries of the indexes, with their ages. -/
def byAge (w : PackWorld) (keys : List (Bytes × Bytes)) : List (ℕ × (Bytes × Bytes) × Bytes) :=
  (keys.flatMap fun k => (w.shards k).st.index.entries.map fun x => (x.2.seq, k, x.1)).mergeSort
    fun a b => a.1 ≤ b.1

/-- The sum of the sizes of the live results. -/
def logicalBytes (w : PackWorld) (keys : List (Bytes × Bytes)) : ℤ :=
  (keys.map fun k => ((w.shards k).st.index.entries.map fun x => x.2.logical.toInt64.toInt).sum).sum

/-- Drop the oldest entries until the sum is within the cap. -/
def evictOldest (maxBytes : ℤ) : List (ℕ × (Bytes × Bytes) × Bytes) → ℤ → PackWorld → PackWorld
  | [], _, w => w
  | (_, k, keyfp) :: es, total, w =>
    if total ≤ maxBytes then w
    else
      match (w.shards k).st.index.lookup keyfp with
      | none => evictOldest maxBytes es total w
      | some loc =>
        evictOldest maxBytes es (total - loc.logical.toInt64.toInt)
          { w with shards := Function.update w.shards k (dropKey (w.shards k) keyfp) }

/-- `Reap` of the shards found in a cache directory. -/
def reap (dir : Bytes) (shardHashes : List Bytes) (nowUnix : Int64) (maxBytes : UInt64) (deadPct : ℕ) :
    Fallible PackWorld Unit := do
  let keys := shardHashes.map fun sh => (dir, sh)
  forEach keys fun k => onShard k (expire cfg nowUnix)
  if 0 < maxBytes then
    modify fun w => evictOldest maxBytes.toInt64.toInt (byAge w keys) (logicalBytes w keys) w
  forEach keys fun k => onShard k (reclaim cfg deadPct)

/-- Forget the state of a shard, not its files. -/
def forget (s : PackShard) : PackShard := { s with st := {} }

end PackStore

/-- The operations of the store. The shards of a directory are listed once each. -/
inductive PackOp
  | persist (dir shard : Bytes) (r : PackRecord) (expiresUnix : Int64) (target : ℕ)
  | lookup (dir shard keyfp : Bytes) (nowUnix : Int64)
  | reap (dir : Bytes) (shardHashes : List Bytes) (nodup : shardHashes.Nodup) (nowUnix : Int64)
    (maxBytes : UInt64) (deadPct : ℕ)
  | invalidateShard (dir shard : Bytes)
  | invalidateAll

namespace PackStore

open Fallible

variable (cfg : PackConfig)

/-- An operation. -/
def perform : PackOp → Fallible PackWorld Unit
  | .persist dir shard r expiresUnix target => do
    let _ ← onShard (dir, shard) (persist cfg r expiresUnix target)
    pure ()
  | .lookup dir shard keyfp nowUnix => do
    let _ ← onShard (dir, shard) (lookup cfg keyfp nowUnix)
    pure ()
  | .reap dir shardHashes _ nowUnix maxBytes deadPct =>
    reap cfg dir shardHashes nowUnix maxBytes deadPct
  | .invalidateShard dir shard =>
    onShard (dir, shard) (modify fun e => { e with shard := forget e.shard })
  | .invalidateAll => modify fun w => { w with shards := fun k => forget (w.shards k) }

/-- The operations, each with what happens at its accesses to files. -/
def machine : Machine PackWorld (PackOp × List Fault) where
  step w x := some (perform cfg x.1 { w with faults := x.2 }).2

/-! ## A store of letters -/

/-- A record with the key and the blob of one letter. -/
def letterRecord (c : UInt8) (expires : Int64) : PackRecord where
  keyfp := List.replicate 64 c
  contentSha := List.replicate 64 48
  exchange := true
  expires := expires
  rows := 1
  logical := 8
  scope := []
  etag := []
  lastModified := []
  catalogName := []
  blob := [c]
  length_keyfp := List.length_replicate
  length_contentSha := List.length_replicate
  scope_lt := by norm_num
  etag_lt := by norm_num
  lastModified_lt := by norm_num
  catalogName_lt := by norm_num
  blob_lt := by norm_num

/-- A store without digests, that visits entries in their order. -/
def letterConfig : PackConfig := ⟨ascii "p", fun _ => [], id, List.Perm.refl⟩

end PackStore

end Vgi
