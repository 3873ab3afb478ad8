import Vgi.Secret.Flush

/-!
# How long a secret is given out

A credential is kept in the cache for the lifetime the service gives, but not beyond its expiry. The
deadline is computed from two clocks: the steady clock, read when the lookup begins, and the wall clock
in whole seconds, read when the response has arrived. A lookup that has read the clock does not read it
again before it returns, and a leader, and who waits for it, return what was fetched whatever its
expiry. So a credential is given out after its expiry: at once, if it has expired on its way; by a lookup
that is late; and for a part of a second, as the wall clock is rounded (`served_expired`).

* `served_valid`: if each response arrives before the credential expires, and in a later second than
  its lookup began, and no time passes between when the clock is read, or the response arrives, and the
  return, then a credential is only given out before its expiry, and from the cache only within its
  lifetime. An overflow in the deadline does not prolong it.
-/

namespace Vgi

open Option

/-! ## Deadlines -/

theorem int64_le {x : ℤ} (h : -2 ^ 63 ≤ x) : int64 x ≤ x := by
  rw [int64, Int.bmod]
  split_ifs <;> omega

theorem le_int64 (x : ℤ) : -2 ^ 63 ≤ int64 x := by
  rw [int64, Int.bmod]
  split_ifs <;> omega

/-- An overflow makes a deadline earlier. -/
theorem deadline_le {now : ℕ} {ttl : ℤ} (h : 0 ≤ ttl) : deadline now ttl ≤ now + ttl * nanos := by
  have hpos : 0 ≤ ttl * nanos := mul_nonneg h (Int.natCast_nonneg nanos)
  have hin : int64 (ttl * nanos) ≤ ttl * nanos := int64_le (by omega)
  have hlw := le_int64 (ttl * nanos)
  have hot : int64 (now + int64 (ttl * nanos)) ≤ now + int64 (ttl * nanos) := int64_le (by omega)
  rw [deadline]
  omega

namespace SecretHost

variable (H : SecretHost)

/-- The credential has not expired at this time. -/
abbrev Valid (c : Credential) (t : ℕ) : Prop :=
  0 < c.expiresAtUnix → (H.wall t : ℤ) ≤ c.expiresAtUnix * nanos

/-- How long it may be kept after its fetch was completed. -/
def lifetime (c : Credential) : ℤ :=
  if 0 < c.expiresAtUnix then min (c.ttl * nanos) (c.expiresAtUnix * nanos - H.wall c.completed)
  else c.ttl * nanos

/-- A time at which it may be given out from the cache. -/
abbrev Within (c : Credential) (t : ℕ) : Prop := (t : ℤ) - c.completed ≤ H.lifetime c

/-- The deadline of an entry is within the lifetime of its secret. -/
def Bounded (c : Credential) (expiresAt : ℤ) : Prop := expiresAt - c.completed ≤ H.lifetime c

variable {H}

/-- What is given out within its lifetime has not expired. -/
theorem Within.valid {c : Credential} {t : ℕ} (h : H.Within c t) : H.Valid c t := by
  intro hex
  rw [Within, lifetime, if_pos hex, wall] at h
  have hmin := h.trans (min_le_right _ _)
  rw [wall]
  push_cast at hmin ⊢
  omega

theorem Bounded.within {c : Credential} {expiresAt : ℤ} {t : ℕ} (h : H.Bounded c expiresAt)
    (ht : (t : ℤ) < expiresAt) : H.Within c t := by
  rw [Bounded] at h
  rw [Within]
  omega

theorem effectiveTtl_le {r : SecretResponse} {nowUnix : ℤ} (h : 0 < H.effectiveTtl r nowUnix) :
    H.effectiveTtl r nowUnix ≤ H.responseTtl r ∧
      (0 < r.expiresAtUnix → H.effectiveTtl r nowUnix ≤ r.expiresAtUnix - nowUnix) := by
  rw [effectiveTtl] at h ⊢
  split_ifs at h ⊢ with hex hng hng
  · exact absurd h (lt_irrefl 0)
  · exact ⟨min_le_left _ _, fun _ => min_le_right _ _⟩
  · exact absurd h (lt_irrefl 0)
  · exact ⟨le_rfl, fun hpos => absurd hpos hex⟩

/-- The response arrives before the credential expires, and the second in which it arrives began after the lookup. -/
abbrev Arrives (H : SecretHost) (r : SecretResponse) (now t : ℕ) : Prop :=
  0 < r.expiresAtUnix → (H.wall t : ℤ) ≤ r.expiresAtUnix * nanos ∧ H.wall now ≤ H.unixTime t * nanos

/-- The deadline that is computed from the two clocks. -/
theorem bounded_deadline {type : Bytes} {r : SecretResponse} {epoch now t : ℕ} (hnow : now ≤ t)
    (har : H.Arrives r now t) (hpos : 0 < H.effectiveTtl r (H.unixTime t)) :
    H.Bounded (H.synthesize type r epoch t) (deadline now (H.effectiveTtl r (H.unixTime t))) := by
  obtain ⟨htl, hlf⟩ := effectiveTtl_le hpos
  have hdl : deadline now _ ≤ _ := deadline_le hpos.le
  have hns : (0 : ℤ) ≤ nanos := Int.natCast_nonneg nanos
  have hle : H.effectiveTtl r (H.unixTime t) * nanos ≤ H.responseTtl r * nanos := mul_le_mul_of_nonneg_right htl hns
  rw [Bounded, lifetime]
  by_cases hex : 0 < (H.synthesize type r epoch t).expiresAtUnix
  · rw [if_pos hex]
    dsimp only [synthesize] at hex ⊢
    refine le_min ?_ ?_
    · omega
    -- the seconds that are left are counted from the start of this second
    have hle' : H.effectiveTtl r (H.unixTime t) * nanos ≤ (r.expiresAtUnix - H.unixTime t) * nanos :=
      mul_le_mul_of_nonneg_right (hlf hex) hns
    have hsc : (H.wall now : ℤ) ≤ H.unixTime t * nanos := by exact_mod_cast (har hex).2
    rw [sub_mul] at hle'
    rw [wall] at hsc ⊢
    push_cast at hsc ⊢
    omega
  · rw [if_neg hex]
    dsimp only [synthesize]
    omega

end SecretHost

/-! ## No time is lost -/

/-- A response arrives in time. A call returns at the time at which it has read the clock, if the answer
    is from the cache. Otherwise, if what it returns may expire, it does so when the response has arrived. -/
abbrev prompt (H : SecretHost) : Threads.Rule SecretStorage SecretThread SecretOp SecretInput where
  step g _ l a := match l.pc with
    | .fetching now _ => ∀ r ∈ a.response, H.Arrives r now (g.clock + a.elapsed)
    | .answer _ (some now) => g.clock + a.elapsed = now
    | .answer out none => ∀ c ∈ out, 0 < c.expiresAtUnix → g.clock + a.elapsed = c.completed
    | _ => True

instance (H : SecretHost) (g : SecretStorage) (i : ℕ) (l : SecretThread) (a : SecretInput) :
    Decidable ((prompt H).step g i l a) := by
  rcases l with ⟨_, _, pc⟩
  cases pc with
  | answer out cached => cases cached <;> infer_instance
  | _ => infer_instance

/-- What was fetched may be given out at once, and kept until the deadline. -/
structure Fetched.Timely (H : SecretHost) (now : ℕ) (f : Fetched) : Prop where
  valid : ∀ c ∈ f.credential, H.Valid c c.completed
  bounded : ∀ c ttl, f = .found c ttl → 0 < ttl → H.Bounded c (deadline now ttl)

/-- The deadlines of the entries are within the lifetimes of their secrets, and what leaders hand over
    has not expired when it arrives. -/
structure SecretStorage.Timely (H : SecretHost) (g : SecretStorage) : Prop where
  positive : ∀ e ∈ g.positive, H.Bounded e.2.secret e.2.expiresAt
  records : ∀ j, ∀ c ∈ (g.records j).secret, H.Valid c c.completed

/-- What a call is to give out may be given out. -/
def SecretThread.Timely (H : SecretHost) (g : SecretStorage) (l : SecretThread) : Prop :=
  match l.pc with
  | .check now | .fetch now | .fetching now _ => now ≤ g.clock
  | .publish now f => f.Timely H now
  | .wake f => ∀ c ∈ f.credential, H.Valid c c.completed
  | .answer out (some now) => ∀ c ∈ out, H.Within c now
  | .answer out none => ∀ c ∈ out, H.Valid c c.completed
  | .done out (some _) t => ∀ c ∈ out, H.Within c t
  | .done out none t => ∀ c ∈ out, H.Valid c t
  | .start | .wait _ | .clear | .threw => True

theorem SecretThread.Timely.later {H : SecretHost} {g g' : SecretStorage} {l : SecretThread}
    (h : l.Timely H g) (hcl : g.clock ≤ g'.clock) : l.Timely H g' := by
  rw [SecretThread.Timely] at h ⊢
  split at h
  all_goals first | exact h.trans hcl | exact h

namespace SecretHost

open SecretStorage

variable {H : SecretHost} {g g' : SecretStorage} {i : ℕ} {l : SecretThread} {pc : SecretPc}
  {response : Option SecretResponse}

theorem timely_of_keeps (hg : g.Timely H) (h : g.Keeps g') : g'.Timely H := by
  refine ⟨fun e' he' => ?_, fun j => ?_⟩
  · obtain ⟨e, he, hsc, hex⟩ := h.positive e' he'
    rw [← hsc, ← hex]
    exact hg.positive e he
  · rw [h.records]
    exact hg.records j

theorem timely_setRecord (hg : g.Timely H) {r : InflightLookup} (hr : ∀ c ∈ r.secret, H.Valid c c.completed) :
    (g.setRecord i r).Timely H := by
  refine ⟨hg.positive, fun j c hc => ?_⟩
  by_cases hj : j = i
  · subst hj
    rw [records_setRecord_self] at hc
    exact hr c hc
  · rw [records_setRecord_of_ne g hj] at hc
    exact hg.records j c hc

theorem timely_add (hg : g.Timely H) (key : SecretKey) {e : PositiveEntry} (he : H.Bounded e.secret e.expiresAt) :
    (g.add key e).Timely H := by
  refine ⟨fun e' he' => ?_, hg.records⟩
  rcases List.mem_cons.1 he' with rfl | he'
  · exact he
  · exact hg.positive e' he'

theorem timely_fetched {type : Bytes} {epoch now t : ℕ} (hnow : now ≤ t)
    (har : ∀ r ∈ response, H.Arrives r now t) : (H.fetched type epoch t response).Timely H now := by
  rcases response with _ | r
  · exact ⟨nofun, nofun⟩
  rw [fetched]
  split_ifs
  · refine ⟨fun c hc hex => ?_, fun c ttl hf hpos => ?_⟩
    · cases hc
      exact (har r rfl hex).1
    · obtain ⟨rfl, rfl⟩ := Fetched.found.inj hf
      exact bounded_deadline hnow (har r rfl) hpos
  · exact ⟨fun _ hc => (by cases hc), fun _ _ hf => by cases hf⟩

/-- A step does not change the clock, apart from the time that has passed. -/
theorem Move.clock (h : H.Move g i l response g' pc) : g'.clock = g.clock := by
  rcases h with _ | _ | _ | _ | ⟨-, hkp, -⟩ | ⟨-, hkp⟩ | ⟨-, hkp, -⟩ | ⟨-, hkp⟩ | _ | _ | _ | _ |
    ⟨-, hkp | ⟨_, _, _, -, -, hkp⟩⟩ | _ | _
  all_goals first | rfl | exact hkp.clock

/-- A step keeps it, if the response has arrived in time, and the call returns in time. -/
theorem Move.timely (h : H.Move g i l response g' pc) (hg : g.Timely H) (hl : l.Timely H g)
    (har : ∀ now epoch, l.pc = .fetching now epoch → ∀ r ∈ response, H.Arrives r now g.clock)
    (hhit : ∀ out now, l.pc = .answer out (some now) → g.clock = now)
    (hrt : ∀ out, l.pc = .answer out none → ∀ c ∈ out, 0 < c.expiresAtUnix → g.clock = c.completed) :
    g'.Timely H ∧ SecretThread.Timely H g' { l with pc } := by
  rw [SecretThread.Timely] at hl
  cases h with
  | refuse => exact ⟨hg, nofun⟩
  | read => exact ⟨hg, le_rfl⟩
  | disable => exact ⟨{ hg with }, trivial⟩
  | flush => exact ⟨⟨nofun, hg.records⟩, nofun⟩
  | serve _ hkp hsr =>
    refine ⟨timely_of_keeps hg hkp, fun c hc => ?_⟩
    obtain ⟨e, he, rfl, hpre⟩ := hsr c hc
    exact (hg.positive e he).within hpre
  | unknown _ hkp => exact ⟨timely_of_keeps hg hkp, nofun⟩
  | attach _ hkp => exact ⟨timely_of_keeps hg hkp, trivial⟩
  | lead hch hkp =>
    rw [hch] at hl
    have hg' := timely_setRecord (i := i) (r := {}) (timely_of_keeps hg hkp) nofun
    refine ⟨{ hg' with }, ?_⟩
    exact hl.trans hkp.clock.ge
  | @handed leader _ _ hout => exact ⟨hg, fun c hc => hg.records leader c (hout c hc)⟩
  | rethrow => exact ⟨hg, trivial⟩
  | begin hftc =>
    rw [hftc] at hl
    have hg' := timely_setRecord (i := i) (r := { g.records i with begun := some g.epoch }) hg (hg.records i)
    exact ⟨{ hg' with }, hl⟩
  | complete hft =>
    have hl' := hl
    rw [hft] at hl'
    exact ⟨hg, timely_fetched hl' (har _ _ hft)⟩
  | publish hpb hkp =>
    rw [hpb] at hl
    have hrl : (g.release i l.op.key).Timely H := { hg with }
    rcases hkp with hkp | ⟨key, c, ttl, rfl, hpos, hkp⟩
    · exact ⟨timely_of_keeps hrl hkp, hl.valid⟩
    · exact ⟨timely_of_keeps (timely_add hrl key (hl.bounded c ttl rfl hpos)) hkp, hl.valid⟩
  | settle hwk _ hsc hout =>
    rw [hwk] at hl
    refine ⟨timely_setRecord hg fun c hc => hl c (hsc ▸ hc), ?_⟩
    rcases hout with rfl | ⟨out, rfl, hout⟩
    · trivial
    · exact fun c hc => hl c (hout c hc)
  | @«return» out cached han =>
    refine ⟨hg, ?_⟩
    rw [han] at hl
    rcases cached with _ | now
    · intro c hc hex
      rw [hrt out han c hc hex]
      exact hl c hc hex
    · rw [hhit out now han]
      exact hl

variable (H) in
theorem outline_timely : H.threads.Outline (prompt H) (fun _ g => g.Timely H) (fun g _ l => l.Timely H g) where
  spawn hg _ h := by
    cases h
    exact ⟨hg, trivial, fun _ _ _ => id⟩
  step {g n i l a g' l'} hg hi hl hrule h := by
    obtain ⟨pc, rfl, hmove⟩ := step_moves h
    have htick : ∀ m : SecretThread, m.Timely H g → m.Timely H (g.tick a.elapsed) :=
      fun _ hm => hm.later (Nat.le_add_right _ _)
    rw [prompt] at hrule
    dsimp only at hrule
    obtain ⟨hg', hl'⟩ := hmove.timely { hg with } (htick l hl)
      (fun now epoch hpc => by rwa [hpc] at hrule) (fun out now hpc => by rwa [hpc] at hrule)
      (fun out hpc => by rwa [hpc] at hrule)
    exact ⟨hg', hl', fun j m _ hm => (htick m hm).later hmove.clock.ge⟩

/-- In every interleaving of calls in which no time is lost, no credential is given out after its expiry,
    and none from the cache after the end of its lifetime, counted from the end of its fetch. -/
theorem served_valid (H : SecretHost) (acts : SecretActs)
    {s : Threads.Config SecretStorage SecretThread} (hrule : H.threads.machine.Along (prompt H).At ⟨{}, []⟩ acts)
    (hrun : H.threads.machine.run ⟨{}, []⟩ acts = some s) {i : ℕ} {l : SecretThread} (hl : s.locals[i]? = some l)
    {out : List Credential} {cached : Option ℕ} {time : ℕ} (hdone : l.pc = .done out cached time) :
    ∀ c ∈ out, H.Valid c time ∧ (cached.isSome → H.Within c time) := by
  have hst : Threads.Config.Meets (fun _ g => g.Timely H) (fun g _ l => l.Timely H g)
      (⟨{}, []⟩ : Threads.Config SecretStorage SecretThread) :=
    ⟨⟨nofun, nofun⟩,
      nofun⟩
  have htm := ((outline_timely H).run hst hrule hrun).locals i l hl
  rw [SecretThread.Timely, hdone] at htm
  intro c hc
  rcases cached with _ | now
  · exact ⟨htm c hc, nofun⟩
  · exact ⟨(htm c hc).valid, fun _ => htm c hc⟩

/-! ## Time that passes -/

/-- The service knows a secret, which expires at this second. -/
def lasting (expiresAtUnix : ℤ) : SecretResponse := ⟨true, ascii "s", [], 60, expiresAtUnix⟩

/-- After some time, a thread takes some steps. -/
def wait (i elapsed n : ℕ) (expiresAtUnix : ℤ) : SecretActs :=
  .step i ⟨elapsed, some (lasting expiresAtUnix)⟩ ::
    List.replicate n (.step i ⟨0, some (lasting expiresAtUnix)⟩)

/-- What a call has returned: from the cache, for which time, and when. -/
def served (acts : SecretActs) (i : ℕ) : Option (List Credential × Option ℕ × ℕ) :=
  (ended acts i).map (·.2)

/-- The secret, if it was fetched at this time. -/
def fetchedAt (completed : ℕ) (expiresAtUnix : ℤ) : Credential :=
  ⟨ascii "t", ascii "s", [[]], 0, completed, 60, expiresAtUnix⟩

/-- It is second 10 when a secret is looked up. In second 11 it arrives, to expire at second 20, and in
    second 16 it is given out from the cache. -/
theorem firstMatch_prompt :
    let acts := call aLookup ++ wait 0 0 2 20 ++ wait 0 nanos 3 20 ++ call aLookup ++ wait 1 (5 * nanos) 2 20
    served acts 0 = some ([fetchedAt nanos 20], none, nanos) ∧
      served acts 1 = some ([fetchedAt nanos 20], some (6 * nanos), 6 * nanos) ∧
      firstMatch.Valid (fetchedAt nanos 20) (6 * nanos) ∧ firstMatch.Within (fetchedAt nanos 20) (6 * nanos) := by
  intro acts
  have hsr : served acts 1 = some ([fetchedAt nanos 20], some (6 * nanos), 6 * nanos) := by decide +kernel
  refine ⟨by decide +kernel, hsr, ?_⟩
  obtain ⟨⟨started, out, cached, time⟩, hen, hx⟩ := map_eq_some_iff.1 hsr
  cases hx
  obtain ⟨s, l, hrun, hl, hdn, -⟩ := done_of_ended hen
  obtain ⟨hvl, hwt⟩ :=
    served_valid firstMatch acts (by decide +kernel) hrun hl hdn _ (List.mem_singleton_self _)
  exact ⟨hvl, hwt rfl⟩

/-- It is second 10. What has expired when it arrives is returned; so is what a lookup has waited for,
    when it wakes up late. What is fetched in the last tenth of a second, to expire at its end, is given
    out from the cache half a second later. And a lookup that reads the clock before the expiry, but has
    the lock after it, is answered from the cache. -/
theorem served_expired :
    (served (call aLookup ++ wait 0 0 6 5) 0 = some ([fetchedAt 0 5], none, 0) ∧
      ¬firstMatch.Valid (fetchedAt 0 5) 0) ∧
    (served (call aLookup ++ wait 0 0 2 20 ++ call aLookup ++ wait 1 0 1 20 ++ wait 0 0 3 20 ++
        wait 1 (60 * nanos) 1 20) 1 = some ([fetchedAt 0 20], none, 60 * nanos) ∧
      ¬firstMatch.Valid (fetchedAt 0 20) (60 * nanos)) ∧
    (served (call aLookup ++ wait 0 900000000 6 11 ++ call aLookup ++ wait 1 500000000 2 11) 1 =
        some ([fetchedAt 900000000 11], some 1400000000, 1400000000) ∧
      ¬firstMatch.Valid (fetchedAt 900000000 11) 1400000000 ∧
      ¬firstMatch.Within (fetchedAt 900000000 11) 1400000000) ∧
    (served (call aLookup ++ wait 0 0 6 20 ++ call aLookup ++ wait 1 (5 * nanos) 0 20 ++
        wait 1 (20 * nanos) 1 20) 1 = some ([fetchedAt 0 20], some (5 * nanos), 25 * nanos) ∧
      ¬firstMatch.Valid (fetchedAt 0 20) (25 * nanos) ∧ ¬firstMatch.Within (fetchedAt 0 20) (25 * nanos)) := by
  refine ⟨⟨?_, ?_⟩, ⟨?_, ?_⟩, ⟨?_, ?_, ?_⟩, ?_, ?_, ?_⟩
  all_goals decide +kernel

end SecretHost

end Vgi
