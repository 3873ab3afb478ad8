import Vgi.Lib.Text
import Vgi.Lib.Threads

/-!
# The remote secret storage

Secrets are looked up at a service, and kept for a time (`SecretStorage`). A lookup first looks into
the cache, under a lock. If there is nothing, and no other lookup is asking for the same, then it
becomes the *leader*: it asks the service, without the lock, puts the answer into the cache, and hands
it to the lookups that have been waiting for it. Calls may be made at any time from any number of
threads (`SecretHost.threads`), and time passes between any two steps.

The state also has what the program does not know, so that it can be spoken about: how many flushes
there have been, and which fetches are under way. A credential has with it how many flushes there had
been when its fetch began, when this was completed, and what was said of its lifetime.

* `SecretHost.step_moves`: what a step can do.
-/

namespace Vgi

open List Option

/-! ## Secrets -/

/-- A credential. -/
structure Credential where
  type : Bytes
  name : Bytes
  scope : List Bytes
  /-- How many flushes there had been when its fetch began. -/
  epoch : ℕ
  /-- When its fetch was completed. -/
  completed : ℕ
  /-- Its lifetime in seconds, as the service says, or as is usual. -/
  ttl : ℤ
  /-- The second after which it is not valid, if positive. -/
  expiresAtUnix : ℤ
  deriving DecidableEq

/-- The answer of the service. -/
structure SecretResponse where
  found : Bool
  name : Bytes
  scope : List Bytes
  ttlSeconds : ℤ
  expiresAtUnix : ℤ

/-- A type, and a scope or a path. -/
abbrev SecretKey := Bytes × Bytes

/-- What the storage has from outside. Times are in nanoseconds. -/
structure SecretHost where
  /-- DuckDB's choice of a secret for a path. -/
  select : Bytes → List (SecretKey × Credential) → Option (SecretKey × Credential)
  select_mem : ∀ path cs x, select path cs = some x → x ∈ cs
  defaultTtl : ℤ
  /-- The wall clock when the steady clock is at zero; they advance together. -/
  wallStart : ℕ

/-- Nanoseconds in a second. -/
def nanos : ℕ := 1000000000

/-- The value of a 64-bit integer after an overflow. -/
def int64 (x : ℤ) : ℤ := x.bmod (2 ^ 64)

namespace SecretHost

variable (H : SecretHost)

def wall (t : ℕ) : ℕ := t + H.wallStart

/-- The wall clock in seconds. -/
def unixTime (t : ℕ) : ℕ := H.wall t / nanos

/-- The lifetime that the response gives. -/
def responseTtl (r : SecretResponse) : ℤ := if r.ttlSeconds > 0 then r.ttlSeconds else H.defaultTtl

/-- How long a credential is kept. -/
def effectiveTtl (r : SecretResponse) (nowUnix : ℤ) : ℤ :=
  let ttl := H.responseTtl r
  let ttl := if r.expiresAtUnix > 0 then min ttl (r.expiresAtUnix - nowUnix) else ttl
  if ttl < 0 then 0 else ttl

/-- A secret of the type that was asked for. -/
def synthesize (type : Bytes) (r : SecretResponse) (epoch completed : ℕ) : Credential where
  type := type
  name := if r.name = [] then ascii "vgi_orchard_" ++ type else r.name
  scope := if r.scope = [] then [[]] else r.scope
  epoch := epoch
  completed := completed
  ttl := H.responseTtl r
  expiresAtUnix := r.expiresAtUnix

def matchFromSecret (path : Bytes) (c : Credential) : Option Credential :=
  (H.select path [(([], []), c)]).map (·.2)

/-- How long it is remembered that there is no secret. -/
def negativeTtl : ℤ := max 0 (min H.defaultTtl 30)

end SecretHost

/-- A point in time, some seconds later. -/
def deadline (now : ℕ) (ttl : ℤ) : ℤ := int64 (now + int64 (ttl * nanos))

/-! ## The storage -/

structure PositiveEntry where
  secret : Credential
  expiresAt : ℤ
  lastAccess : ℕ

structure NegativeEntry where
  expiresAt : ℤ
  lastAccess : ℕ

/-- What a leader hands to those that wait for it. -/
structure InflightLookup where
  done : Bool := false
  error : Bool := false
  secret : Option Credential := none
  /-- How many flushes there had been when the fetch began. -/
  begun : Option ℕ := none

/-- The shared state. Records of leaders are named by the number of their thread. -/
structure SecretStorage where
  active : Bool := true
  positive : List (SecretKey × PositiveEntry) := []
  negative : List (SecretKey × NegativeEntry) := []
  inflight : List (SecretKey × ℕ) := []
  records : ℕ → InflightLookup := fun _ => {}
  /-- The steady clock. -/
  clock : ℕ := 0
  /-- How many flushes there have been. -/
  epoch : ℕ := 0
  /-- The threads with a fetch under way: it has begun, and its result is not published. -/
  fetching : List ℕ := []

/-- The order of the keys in a map. -/
def keyLt (a b : SecretKey) : Bool := a.1 < b.1 || (a.1 = b.1 && a.2 < b.2)

/-- Put a value into a map. -/
def insertKey {V : Type} (k : SecretKey) (v : V) : List (SecretKey × V) → List (SecretKey × V)
  | [] => [(k, v)]
  | e :: l => if k = e.1 then (k, v) :: l else if keyLt k e.1 then (k, v) :: e :: l else e :: insertKey k v l

/-- Remove the value that was used longest ago. -/
def evictOldest {V : Type} (lastAccess : V → ℕ) (l : List (SecretKey × V)) : List (SecretKey × V) :=
  match l.argmin fun e => lastAccess e.2 with
  | none => l
  | some oldest => l.filter (·.1 ≠ oldest.1)

/-- Remove values until there are not too many. -/
def evictOver {V : Type} (lastAccess : V → ℕ) (maxEntries : ℕ) (l : List (SecretKey × V)) :
    List (SecretKey × V) := (evictOldest lastAccess)^[l.length - maxEntries] l

/-- The outcome of a fetch: it failed, there is no secret, or there is one, to be kept for some seconds. -/
inductive Fetched
  | failed | missing | found (c : Credential) (ttl : ℤ)

/-- The credential that was fetched. -/
def Fetched.credential : Fetched → Option Credential
  | failed | missing => none
  | found c _ => some c

namespace SecretStorage

variable (g : SecretStorage)

def tick (elapsed : ℕ) : SecretStorage := { g with clock := g.clock + elapsed }

def pruneExpiredCaches (now : ℕ) : SecretStorage :=
  { g with
    positive := g.positive.filter (¬·.2.expiresAt ≤ now)
    negative := g.negative.filter (¬·.2.expiresAt ≤ now) }

def maxPositiveCacheEntries : ℕ := 1024

def maxNegativeCacheEntries : ℕ := 4096

def enforceCacheLimits : SecretStorage :=
  { g with
    positive := evictOver (·.lastAccess) maxPositiveCacheEntries g.positive
    negative := evictOver (·.lastAccess) maxNegativeCacheEntries g.negative }

/-- These entries were used now. -/
def touch (used : SecretKey → Bool) (now : ℕ) : SecretStorage :=
  { g with positive := g.positive.map fun e => if used e.1 then (e.1, { e.2 with lastAccess := now }) else e }

def touchNegative (key : SecretKey) (now : ℕ) : SecretStorage :=
  { g with negative := g.negative.map fun e => if e.1 = key then (e.1, { e.2 with lastAccess := now }) else e }

def setRecord (i : ℕ) (r : InflightLookup) : SecretStorage :=
  { g with records := Function.update g.records i r }

/-- The thread is the leader for the key. -/
def register (i : ℕ) (key : SecretKey) : SecretStorage :=
  { g.setRecord i {} with inflight := (key, i) :: g.inflight }

/-- The leader asks the service. -/
def beginFetch (i : ℕ) : SecretStorage :=
  { g.setRecord i { g.records i with begun := some g.epoch } with fetching := i :: g.fetching }

/-- The fetch of a leader is no longer under way. -/
def release (i : ℕ) (key : SecretKey) : SecretStorage :=
  { g with inflight := g.inflight.filter (·.1 ≠ key), fetching := g.fetching.erase i }

def flushCache : SecretStorage :=
  { g with positive := [], negative := [], epoch := g.epoch + 1 }

end SecretStorage

/-! ## Calls -/

inductive SecretOp
  /-- `nested` if the thread is in a lookup already. -/
  | lookup (path type : Bytes) (nested : Bool)
  | getSecretByName (name : Bytes)
  | allSecrets
  | flushCache
  | deactivate

/-- Where a call is. -/
inductive SecretPc
  | start
  /-- It has read the clock, and is to look into the cache. -/
  | check (now : ℕ)
  /-- It waits for this leader. -/
  | wait (leader : ℕ)
  /-- It is a leader, and is to ask the service. -/
  | fetch (now : ℕ)
  /-- It is asking the service, since there were this many flushes. -/
  | fetching (now epoch : ℕ)
  /-- It is to put the outcome into the cache. -/
  | publish (now : ℕ) (fetched : Fetched)
  /-- It is to hand the outcome to those that wait. -/
  | wake (fetched : Fetched)
  /-- `Deactivate` is to flush the cache. -/
  | clear
  /-- It is to return these credentials; those from the cache were looked up for this time. -/
  | answer (out : List Credential) (cached : Option ℕ)
  | threw
  /-- It has returned at this time. -/
  | done (out : List Credential) (cached : Option ℕ) (time : ℕ)

/-- A call, and how many flushes there had been when it was started. -/
structure SecretThread where
  op : SecretOp
  started : ℕ
  pc : SecretPc := .start

/-- What happens at a step: time has passed since the last one, and this is what the service answers
    (`none` if it fails). -/
structure SecretInput where
  elapsed : ℕ := 0
  response : Option SecretResponse := none

/-- What the threads do, in the order in which they do it. -/
abbrev SecretActs := List (Threads.Act SecretOp SecretInput)

namespace SecretHost

variable (H : SecretHost) (g : SecretStorage)

/-- What is done under the lock at first. -/
def lookupCached (i : ℕ) (path type : Bytes) (now : ℕ) : SecretStorage × SecretPc :=
  let g := g.pruneExpiredCaches now
  let key := (type, path)
  match H.select path ((g.positive.filter (·.1.1 = type)).map fun e => (e.1, e.2.secret)) with
  | some (k, secret) => (g.touch (· = k) now, .answer [secret] (some now))
  | none =>
    if (g.negative.lookup key).isSome then (g.touchNegative key now, .answer [] none)
    else
      match g.inflight.lookup key with
      | some leader => (g, .wait leader)
      | none => (g.register i key, .fetch now)

/-- The response, as it arrives. -/
def fetched (type : Bytes) (epoch time : ℕ) : Option SecretResponse → Fetched
  | none => .failed
  | some r =>
    if r.found then .found (H.synthesize type r epoch time) (H.effectiveTtl r (H.unixTime time)) else .missing

/-- What is done under the lock with the outcome. -/
def publish (i : ℕ) (path type : Bytes) (now : ℕ) (f : Fetched) : SecretStorage :=
  let key := (type, path)
  let g := (g.release i key).pruneExpiredCaches now
  match f with
  | .failed => g
  | .found c ttl =>
    if ttl > 0 then
      let entry : PositiveEntry := ⟨c, deadline now ttl, now⟩
      { g with positive := insertKey (type, c.scope.headD []) entry g.positive }.enforceCacheLimits
    else g.enforceCacheLimits
  | .missing =>
    if H.negativeTtl > 0 then
      { g with negative := insertKey key ⟨deadline now H.negativeTtl, now⟩ g.negative }.enforceCacheLimits
    else g.enforceCacheLimits

/-- The secret that is handed over, for the path. -/
def answered (path : Bytes) (secret : Option Credential) : List Credential :=
  (secret.bind (H.matchFromSecret path)).toList

def getSecretByName (name : Bytes) : SecretStorage × SecretPc :=
  let g := g.pruneExpiredCaches g.clock
  -- identifiers are compared without case
  match g.positive.find? fun e => lower e.2.secret.name = lower name with
  | none => (g, .answer [] none)
  | some (k, e) => (g.touch (· = k) g.clock, .answer [e.secret] (some g.clock))

def allSecrets : SecretStorage × SecretPc :=
  let g := g.pruneExpiredCaches g.clock
  (g.touch (fun _ => true) g.clock, .answer (g.positive.map (·.2.secret)) (some g.clock))

/-- A step of a lookup. -/
def lookupSecret (i : ℕ) (path type : Bytes) (nested : Bool)
    (response : Option SecretResponse) : SecretPc → Option (SecretStorage × SecretPc)
  | .start => if !g.active || nested then some (g, .answer [] none) else some (g, .check g.clock)
  | .check now => some (H.lookupCached g i path type now)
  | .wait leader =>
    let r := g.records leader
    if !r.done then none
    else if r.error then some (g, .threw)
    else some (g, .answer (H.answered path r.secret) none)
  | .fetch now => some (g.beginFetch i, .fetching now g.epoch)
  | .fetching now epoch => some (g, .publish now (H.fetched type epoch g.clock response))
  | .publish now f => some (H.publish g i path type now f, .wake f)
  | .wake f =>
    let failed := match f with
      | .failed => true
      | _ => false
    let g := g.setRecord i { g.records i with done := true, error := failed, secret := f.credential }
    some (g, if failed then .threw else .answer (H.answered path f.credential) none)
  | _ => none

/-- A step of a call. -/
def act (i : ℕ) (l : SecretThread) (response : Option SecretResponse) :
    Option (SecretStorage × SecretPc) :=
  match l.pc, l.op with
  | .answer out cached, _ => some (g, .done out cached g.clock)
  | pc, .lookup path type nested => H.lookupSecret g i path type nested response pc
  | .start, .getSecretByName name => some (getSecretByName g name)
  | .start, .allSecrets => some (allSecrets g)
  | .start, .flushCache => some (g.flushCache, .answer [] none)
  | .start, .deactivate => some ({ g with active := false }, .clear)
  | .clear, .deactivate => some (g.flushCache, .answer [] none)
  | _, _ => none

/-- The calls, from any number of threads. -/
def threads : Threads SecretStorage SecretThread SecretOp SecretInput where
  spawn g _ op := some (g, { op, started := g.epoch })
  step g i l a := (H.act (g.tick a.elapsed) i l a.response).map fun x => (x.1, { l with pc := x.2 })

end SecretHost

/-! ## What a step can do -/

namespace SecretStorage

theorem records_setRecord_self (g : SecretStorage) (i : ℕ) (r : InflightLookup) :
    (g.setRecord i r).records i = r := Function.update_self ..

theorem records_setRecord_of_ne (g : SecretStorage) {i j : ℕ} (h : j ≠ i) (r : InflightLookup) :
    (g.setRecord i r).records j = g.records j := Function.update_of_ne h ..

/-- Nothing is added to the cache: its secrets were there, with the same deadlines. -/
structure Keeps (g g' : SecretStorage) : Prop where
  positive : ∀ e' ∈ g'.positive, ∃ e ∈ g.positive, e.2.secret = e'.2.secret ∧ e.2.expiresAt = e'.2.expiresAt
  inflight : g'.inflight = g.inflight
  records : g'.records = g.records
  clock : g'.clock = g.clock
  epoch : g'.epoch = g.epoch
  fetching : g'.fetching = g.fetching

variable {g g' g'' : SecretStorage}

theorem Keeps.trans (h : g.Keeps g') (h' : g'.Keeps g'') : g.Keeps g'' := by
  refine ⟨fun e'' he'' => ?_, h'.inflight.trans h.inflight, h'.records.trans h.records,
    h'.clock.trans h.clock, h'.epoch.trans h.epoch, h'.fetching.trans h.fetching⟩
  obtain ⟨e', he', hsc', hex'⟩ := h'.positive e'' he''
  obtain ⟨e, he, hsc, hex⟩ := h.positive e' he'
  exact ⟨e, he, hsc.trans hsc', hex.trans hex'⟩

theorem keeps_pruneExpiredCaches (g : SecretStorage) (now : ℕ) : g.Keeps (g.pruneExpiredCaches now) :=
  ⟨fun e he => ⟨e, mem_of_mem_filter he, rfl, rfl⟩, rfl, rfl, rfl, rfl, rfl⟩

theorem keeps_touch (g : SecretStorage) (used : SecretKey → Bool) (now : ℕ) : g.Keeps (g.touch used now) := by
  refine ⟨fun e' he' => ?_, rfl, rfl, rfl, rfl, rfl⟩
  obtain ⟨e, he, rfl⟩ := List.mem_map.1 he'
  refine ⟨e, he, ?_⟩
  split_ifs
  · exact ⟨rfl, rfl⟩
  · exact ⟨rfl, rfl⟩

theorem keeps_touchNegative (g : SecretStorage) (key : SecretKey) (now : ℕ) : g.Keeps (g.touchNegative key now) :=
  ⟨fun e he => ⟨e, he, rfl, rfl⟩, rfl, rfl, rfl, rfl, rfl⟩

theorem mem_of_mem_evictOver {V : Type} {lastAccess : V → ℕ} {n : ℕ} {l : List (SecretKey × V)}
    {e : SecretKey × V} (h : e ∈ evictOver lastAccess n l) : e ∈ l := by
  rw [evictOver] at h
  generalize l.length - n = rounds at h
  -- each round keeps some of the entries
  induction rounds generalizing l with
  | zero => exact h
  | succ rounds ih =>
    rw [Function.iterate_succ_apply] at h
    have hone := ih h
    rw [evictOldest] at hone
    split at hone
    · exact hone
    · exact mem_of_mem_filter hone

theorem keeps_enforceCacheLimits (g : SecretStorage) : g.Keeps g.enforceCacheLimits := by
  rw [enforceCacheLimits]
  refine ⟨fun e he => ⟨e, ?_, rfl, rfl⟩, ?_, ?_, ?_, ?_, ?_⟩
  · dsimp only at he
    exact mem_of_mem_evictOver he
  all_goals dsimp only

theorem mem_insertKey {V : Type} {k : SecretKey} {v : V} {l : List (SecretKey × V)} {e : SecretKey × V}
    (h : e ∈ insertKey k v l) : e = (k, v) ∨ e ∈ l := by
  induction l with
  | nil => exact .inl (mem_singleton.1 h)
  | cons e' l ih =>
    rw [insertKey] at h
    split_ifs at h
    · rcases mem_cons.1 h with rfl | h
      · exact .inl rfl
      · exact .inr (mem_cons_of_mem _ h)
    · rcases mem_cons.1 h with rfl | h
      · exact .inl rfl
      · exact .inr h
    · rcases mem_cons.1 h with rfl | h
      · exact .inr mem_cons_self
      · rcases ih h with rfl | h
        · exact .inl rfl
        · exact .inr (mem_cons_of_mem _ h)

/-- The cache with one more secret. -/
def add (g : SecretStorage) (key : SecretKey) (e : PositiveEntry) : SecretStorage :=
  { g with positive := (key, e) :: g.positive }

theorem keeps_negative (g : SecretStorage) (negative : List (SecretKey × NegativeEntry)) :
    g.Keeps { g with negative } :=
  ⟨fun e he => ⟨e, he, rfl, rfl⟩, rfl, rfl, rfl, rfl, rfl⟩

theorem Keeps.insert (h : g.Keeps g') (key : SecretKey) (e : PositiveEntry) :
    (g.add key e).Keeps { g' with positive := insertKey key e g'.positive } := by
  refine { h with positive := fun e' he' => ?_ }
  rcases mem_insertKey he' with rfl | he'
  · exact ⟨_, mem_cons_self, rfl, rfl⟩
  · obtain ⟨e₀, he₀, hsm⟩ := h.positive e' he'
    exact ⟨e₀, mem_cons_of_mem _ he₀, hsm⟩

/-- The cache has the secret, and it is not out of date at this time. -/
def Serves (g : SecretStorage) (now : ℕ) (c : Credential) : Prop :=
  ∃ e ∈ g.positive, e.2.secret = c ∧ (now : ℤ) < e.2.expiresAt

theorem serves_of_mem_prune {now : ℕ} {e : SecretKey × PositiveEntry}
    (he : e ∈ (g.pruneExpiredCaches now).positive) : g.Serves now e.2.secret := by
  obtain ⟨hmem, hex⟩ := mem_filter.1 he
  exact ⟨e, hmem, rfl, lt_of_not_ge (of_decide_eq_true hex)⟩

end SecretStorage

/-- The next step of the call is to clear the cache. -/
def SecretThread.flushes (l : SecretThread) : Bool :=
  match l.pc, l.op with
  | .start, .flushCache => true
  | .clear, .deactivate => true
  | _, _ => false

/-- The key that a call looks up. -/
def SecretOp.key : SecretOp → SecretKey
  | lookup path type _ => (type, path)
  | _ => ([], [])

namespace SecretHost

open SecretStorage

variable {H : SecretHost} {g g' : SecretStorage} {i : ℕ} {l : SecretThread} {response : Option SecretResponse}

variable (H g i l response) in
/-- What a step can do with the state, and where the call is then. -/
inductive Move : SecretStorage → SecretPc → Prop
  | refuse : l.pc = .start → Move g (.answer [] none)
  | read : l.pc = .start → Move g (.check g.clock)
  | disable : l.pc = .start → Move { g with active := false } .clear
  | flush : l.flushes → Move g.flushCache (.answer [] none)
  | serve {g' out now} : l.pc = .start ∧ now = g.clock ∨ l.pc = .check now → g.Keeps g' →
      (∀ c ∈ out, g.Serves now c) → Move g' (.answer out (some now))
  | unknown {g' : SecretStorage} : (l.pc = .start ∨ ∃ now, l.pc = .check now) → g.Keeps g' → Move g' (.answer [] none)
  | attach {g' now leader} : l.pc = .check now → g.Keeps g' → (l.op.key, leader) ∈ g.inflight →
      Move g' (.wait leader)
  | lead {g' now} : l.pc = .check now → g.Keeps g' →
      Move (g'.register i l.op.key) (.fetch now)
  | handed {leader out} : l.pc = .wait leader → (∀ c ∈ out, (g.records leader).secret = some c) →
      Move g (.answer out none)
  | rethrow {leader} : l.pc = .wait leader → Move g .threw
  | begin {now} : l.pc = .fetch now → Move (g.beginFetch i) (.fetching now g.epoch)
  | complete {now epoch type} : l.pc = .fetching now epoch →
      Move g (.publish now (H.fetched type epoch g.clock response))
  | publish {g' now f} : l.pc = .publish now f →
      (g.release i l.op.key).Keeps g' ∨
        (∃ key c ttl, f = .found c ttl ∧ 0 < ttl ∧
          ((g.release i l.op.key).add key ⟨c, deadline now ttl, now⟩).Keeps g') →
      Move g' (.wake f)
  | settle {f r pc} : l.pc = .wake f → r.begun = (g.records i).begun → r.secret = f.credential →
      pc = .threw ∨ (∃ out, pc = .answer out none ∧ ∀ c ∈ out, f.credential = some c) →
      Move (g.setRecord i r) pc
  | return {out cached} : l.pc = .answer out cached → Move g (.done out cached g.clock)

variable {path : Bytes}

theorem mem_answered {secret : Option Credential} {c : Credential} (h : c ∈ H.answered path secret) :
    secret = some c := by
  rw [answered, mem_toList] at h
  obtain ⟨c', hc', h⟩ := bind_eq_some_iff.1 h
  rw [matchFromSecret] at h
  obtain ⟨x, hx, rfl⟩ := map_eq_some_iff.1 h
  obtain rfl := mem_singleton.1 (H.select_mem _ _ _ hx)
  exact hc'

variable {nested : Bool} {type : Bytes}

theorem lookupCached_moves {now : ℕ} (hpc : l.pc = .check now) (hop : l.op = .lookup path type nested) :
    H.Move g i l response (H.lookupCached g i path type now).1 (H.lookupCached g i path type now).2 := by
  have hkey : l.op.key = (type, path) := by rw [hop, SecretOp.key]
  have hpr := g.keeps_pruneExpiredCaches now
  rw [lookupCached]
  split
  · next k secret hsl =>
    dsimp only
    refine .serve (.inr hpc) (hpr.trans (keeps_touch _ _ _)) fun c hc => ?_
    obtain rfl := mem_singleton.1 hc
    obtain ⟨e, he, hsc⟩ := List.mem_map.1 (H.select_mem _ _ _ hsl)
    obtain rfl : e.2.secret = c := congrArg Prod.snd hsc
    exact serves_of_mem_prune (mem_of_mem_filter he)
  · split_ifs
    · exact .unknown (.inr ⟨now, hpc⟩) (hpr.trans (keeps_touchNegative _ _ _))
    split
    · next leader hld =>
      refine .attach hpc hpr ?_
      rw [hkey]
      obtain ⟨before, after, hsp, -⟩ := lookup_eq_some_iff.1 hld
      have hin : g.inflight = before ++ ((type, path), leader) :: after := hsp
      rw [hin]
      exact mem_append_right before mem_cons_self
    · rw [← hkey]
      exact .lead hpc hpr

theorem publish_moves {now : ℕ} {f : Fetched} (hpc : l.pc = .publish now f) (hop : l.op = .lookup path type nested) :
    H.Move g i l response (H.publish g i path type now f) (.wake f) := by
  have hkey : l.op.key = (type, path) := by rw [hop, SecretOp.key]
  have hpr := keeps_pruneExpiredCaches (g.release i (type, path)) now
  refine .publish hpc ?_
  rw [hkey]
  rcases f with _ | _ | ⟨c, ttl⟩
  · exact .inl hpr
  · refine .inl (hpr.trans ?_)
    rw [SecretHost.publish.eq_def]
    split_ifs
    · exact (keeps_negative _ _).trans (keeps_enforceCacheLimits _)
    · exact keeps_enforceCacheLimits _
  · rw [SecretHost.publish.eq_def]
    dsimp only
    split_ifs with htl
    · exact .inr ⟨_, c, ttl, rfl, htl, (hpr.insert _ _).trans (keeps_enforceCacheLimits _)⟩
    · exact .inl (hpr.trans (keeps_enforceCacheLimits _))

theorem lookupSecret_moves (hop : l.op = .lookup path type nested) {pc : SecretPc}
    (h : H.lookupSecret g i path type nested response l.pc = some (g', pc)) : H.Move g i l response g' pc := by
  rcases hpc : l.pc with _ | now | leader | now | ⟨now, epoch⟩ | ⟨now, f⟩ | f | _ | _ | _ | _ <;> rw [hpc] at h
  case start =>
    rw [lookupSecret] at h
    split_ifs at h
    · cases h
      exact .refuse hpc
    · cases h
      exact .read hpc
  case check =>
    obtain ⟨rfl, rfl⟩ := Prod.mk.inj (some.inj h)
    exact lookupCached_moves hpc hop
  case wait =>
    rw [lookupSecret] at h
    split_ifs at h
    · cases h
      exact .rethrow hpc
    · cases h
      exact .handed hpc fun c hc => mem_answered hc
  case fetch =>
    cases h
    exact .begin hpc
  case fetching =>
    cases h
    exact .complete hpc
  case publish =>
    cases h
    exact publish_moves hpc hop
  case wake =>
    cases h
    refine .settle hpc rfl rfl ?_
    split_ifs
    · exact .inl rfl
    · exact .inr ⟨_, rfl, fun c hc => mem_answered hc⟩
  all_goals exact nomatch h

theorem getSecretByName_moves {name : Bytes} (hpc : l.pc = .start) :
    H.Move g i l response (getSecretByName g name).1 (getSecretByName g name).2 := by
  have hpr := g.keeps_pruneExpiredCaches g.clock
  rw [getSecretByName]
  split
  · exact .unknown (.inl hpc) hpr
  next k e hfn =>
  dsimp only
  refine .serve (.inl ⟨hpc, rfl⟩) (hpr.trans (keeps_touch _ _ _)) fun c hc => ?_
  obtain rfl := mem_singleton.1 hc
  exact serves_of_mem_prune (mem_of_find?_eq_some hfn)

theorem allSecrets_moves (hpc : l.pc = .start) : H.Move g i l response (allSecrets g).1 (allSecrets g).2 := by
  have hpr := g.keeps_pruneExpiredCaches g.clock
  rw [allSecrets]
  dsimp only
  refine .serve (.inl ⟨hpc, rfl⟩) (hpr.trans (keeps_touch _ _ _)) fun c hc => ?_
  obtain ⟨e, he, rfl⟩ := List.mem_map.1 hc
  exact serves_of_mem_prune he

/-- A step is one of the moves, from the state some time later. -/
theorem step_moves {a : SecretInput} {l' : SecretThread} (h : H.threads.step g i l a = some (g', l')) :
    ∃ pc, l' = { l with pc } ∧ H.Move (g.tick a.elapsed) i l a.response g' pc := by
  obtain ⟨⟨g₁, pc⟩, hact, heq⟩ := map_eq_some_iff.1 h
  obtain ⟨rfl, rfl⟩ := Prod.mk.inj heq
  refine ⟨pc, rfl, ?_⟩
  rw [act] at hact
  split at hact
  · next hpc =>
    cases hact
    exact .return hpc
  · next hop _ => exact lookupSecret_moves hop hact
  · next hpc hop =>
    obtain ⟨rfl, rfl⟩ := Prod.mk.inj (some.inj hact)
    exact getSecretByName_moves hpc
  · next hpc hop =>
    cases hact
    exact allSecrets_moves hpc
  · next hpc hop =>
    cases hact
    exact .flush (by rw [SecretThread.flushes, hpc, hop])
  · next hpc hop =>
    cases hact
    exact .disable hpc
  · next hpc hop =>
    cases hact
    exact .flush (by rw [SecretThread.flushes, hpc, hop])
  · cases hact

end SecretHost

end Vgi
