import ImgSync.Backoff.Idle
import ImgSync.Lib.Run

/-!
# The liveness probe and the worker loops

`/livez` of `internal/health/server.go` answers 503 when the last lease
attempt of the pod is older than a threshold.  The attempts are recorded by
the worker loops (`internal/worker/runner.go`), through the callback that
`cmd/imgsync/worker.go` installs.  The module runs the loops against a clock
and asks what the probe answers.

There are three groups.

* The model.  A loop leases, waits in `WaitOnce`, or is inside `processOne`.
  The clock moves by `tick`, and never past the timer of a waiting loop.
  Leasing and processing take any time.
* The probe.  The recorded timestamp is the latest attempt of all loops, so
  `/livez` answers 200 exactly while some loop has attempted a lease recently.
* Bounded cycles.  A loop whose leases and jobs take a bounded time keeps the
  probe at 200 when the threshold covers its cycle.

Instants and durations are in nanoseconds.  The loops are not cancelled.
-/

namespace ImgSync.Health

open ImgSync.Lib ImgSync.Backoff

/-! ## The model -/

/-- `health.Status`.  The zero time is `none`.  The sweep timestamp is not
read by the probe. -/
structure Status where
  lastLeaseAttemptTS : Option Int
  lastLeaseSuccessTS : Option Int
  deriving DecidableEq, Repr

def Status.onLeaseAttempt (s : Status) (now : Int) (success : Bool) : Status where
  lastLeaseAttemptTS := some now
  lastLeaseSuccessTS := if success then some now else s.lastLeaseSuccessTS

/-- `Server.livez`: the status code of the answer. -/
def livez (liveAfter : Int) (s : Status) (now : Int) : Nat :=
  if liveAfter > 0 then
    match s.lastLeaseAttemptTS with
    | none => 200
    | some last => if now - last > liveAfter then 503 else 200
  else 200

/-- What `LeaseJob` answers. -/
inductive LeaseResult where
  | failed
  | empty
  | job
  deriving DecidableEq, Repr

/-- Where a loop is.  A waiting loop has its timer set to `deadline`, and
`woken` says that its channel holds a token of `WakeAll`. -/
inductive Phase where
  | starting
  | leasing
  | waiting (deadline : Int) (woken : Bool)
  | processing
  deriving DecidableEq, Repr

/-- A worker loop.  The two instants are not in the source: when the loop
entered its phase, and when it last called `OnLeaseAttempt`. -/
structure Loop where
  phase : Phase
  since : Int
  attempted : Option Int
  deriving DecidableEq, Repr

structure Config where
  workers : Int
  idle : Backoff.Config
  liveAfter : Int

/-- The number of loops that `Run` starts. -/
def Config.count (cfg : Config) : Nat := (if cfg.workers ≤ 0 then 4 else cfg.workers).toNat

structure Pod where
  now : Int
  /-- The nominal delay of the shared `IdleBackoff`. -/
  nominal : Int
  status : Status
  loops : Nat → Loop

inductive Action where
  | tick (d : Nat)
  | start (w : Nat)
  | lease (w : Nat) (r : LeaseResult) (draw : Fin (2 ^ 53))
  | wake (w : Nat)
  | finish (w : Nat)

def Pod.enter (s : Pod) (w : Nat) (ph : Phase) : Pod :=
  { s with loops := Function.update s.loops w { s.loops w with phase := ph, since := s.now } }

/-- `OnLeaseAttempt`, called by the loop `w`. -/
def Pod.attempt (s : Pod) (w : Nat) (success : Bool) : Pod :=
  { s with
    status := s.status.onLeaseAttempt s.now success
    loops := Function.update s.loops w { s.loops w with attempted := some s.now } }

def Phase.wake : Phase → Phase
  | .waiting deadline _ => .waiting deadline true
  | ph => ph

/-- `WakeAll`: the schedule starts again and every waiting loop gets a token. -/
def Pod.wakeAll (cfg : Config) (s : Pod) : Pod :=
  { s with
    nominal := (newIdle cfg.idle).baseDelay
    loops := fun w => { s.loops w with phase := (s.loops w).phase.wake } }

/-- The registration of `WaitOnce`: the timer is set and the schedule moves. -/
def Pod.waitOnce (cfg : Config) (s : Pod) (w : Nat) (draw : Fin (2 ^ 53)) : Pod :=
  { s.enter w (.waiting (s.now + jitter draw s.nominal) false) with
    nominal := advance (newIdle cfg.idle) s.nominal }

/-- The timer of the loop is not set to an instant before `t`. -/
def Phase.runsUntil (t : Int) : Phase → Bool
  | .waiting deadline _ => t ≤ deadline
  | _ => true

def step (cfg : Config) (s : Pod) : Action → Pod
  | .tick d =>
    if (List.range cfg.count).all fun w => (s.loops w).phase.runsUntil (s.now + d) then
      { s with now := s.now + d }
    else s
  | .start w =>
    if w < cfg.count ∧ (s.loops w).phase = .starting then s.enter w .leasing else s
  | .lease w r draw =>
    if w < cfg.count ∧ (s.loops w).phase = .leasing then
      match r with
      | .failed | .empty => (s.attempt w false).waitOnce cfg w draw
      | .job => ((s.attempt w true).wakeAll cfg).enter w .processing
    else s
  | .wake w =>
    match (s.loops w).phase with
    | .waiting deadline woken =>
      if woken = true ∨ deadline ≤ s.now then s.enter w .leasing else s
    | _ => s
  | .finish w =>
    if (s.loops w).phase = .processing then s.enter w .leasing else s

/-- The pod when `Run` is called. -/
def initial (cfg : Config) : Pod where
  now := 0
  nominal := (newIdle cfg.idle).baseDelay
  status := ⟨none, none⟩
  loops := fun _ => ⟨.starting, 0, none⟩

def reach (cfg : Config) (as : List Action) : Pod := as.foldl (step cfg) (initial cfg)

/-- The answer of `/livez` in a state of the pod. -/
def Pod.livez (cfg : Config) (s : Pod) : Nat := Health.livez cfg.liveAfter s.status s.now

section Steps

variable {cfg : Config} {s : Pod} {w v : Nat}

@[simp] theorem enter_self (ph : Phase) :
    (s.enter w ph).loops w = { s.loops w with phase := ph, since := s.now } :=
  Function.update_self ..

theorem enter_of_ne (hv : v ≠ w) (ph : Phase) : (s.enter w ph).loops v = s.loops v :=
  Function.update_of_ne hv ..

@[simp] theorem attempt_self (success : Bool) :
    (s.attempt w success).loops w = { s.loops w with attempted := some s.now } :=
  Function.update_self ..

theorem attempt_of_ne (hv : v ≠ w) (success : Bool) :
    (s.attempt w success).loops v = s.loops v :=
  Function.update_of_ne hv ..

@[simp] theorem enter_attempted (ph : Phase) :
    ((s.enter w ph).loops v).attempted = (s.loops v).attempted := by
  by_cases hv : v = w
  · subst hv
    rw [enter_self]
  · rw [enter_of_ne hv]

@[simp] theorem wakeAll_attempted :
    ((s.wakeAll cfg).loops v).attempted = (s.loops v).attempted := rfl

@[simp] theorem waitOnce_attempted (draw : Fin (2 ^ 53)) :
    ((s.waitOnce cfg w draw).loops v).attempted = (s.loops v).attempted :=
  enter_attempted _

theorem attempt_attempted (success : Bool) :
    ((s.attempt w success).loops v).attempted =
      if v = w then some s.now else (s.loops v).attempted := by
  by_cases hv : v = w
  · subst hv
    rw [attempt_self, if_pos rfl]
  · rw [attempt_of_ne hv, if_neg hv]

/-! ## The probe -/

/-- The step records no attempt. -/
structure Silent (s s' : Pod) : Prop where
  now : s.now ≤ s'.now
  status : s'.status = s.status
  attempted : ∀ v, (s'.loops v).attempted = (s.loops v).attempted

/-- The loop `w` attempts a lease. -/
structure Attempts (cfg : Config) (w : Nat) (s s' : Pod) : Prop where
  worker : w < cfg.count
  now : s'.now = s.now
  status : s'.status.lastLeaseAttemptTS = some s.now
  attempted : ∀ v, (s'.loops v).attempted = if v = w then some s.now else (s.loops v).attempted

theorem Silent.refl (s : Pod) : Silent s s := ⟨le_rfl, rfl, fun _ => rfl⟩

theorem Silent.enter (ph : Phase) : Silent s (s.enter w ph) :=
  ⟨le_rfl, rfl, fun _ => enter_attempted ph⟩

theorem step_attempts (a : Action) :
    Silent s (step cfg s a) ∨ ∃ w, Attempts cfg w s (step cfg s a) := by
  cases a with
  | tick d =>
    left
    simp only [step]
    split
    · exact ⟨by show s.now ≤ s.now + d; omega, rfl, fun _ => rfl⟩
    · exact .refl s
  | start w =>
    left
    simp only [step]
    split
    · exact .enter _
    · exact .refl s
  | lease w r draw =>
    simp only [step]
    split
    · rename_i hw
      right
      refine ⟨w, ?_⟩
      cases r with
      | failed | empty =>
        refine ⟨hw.1, rfl, rfl, fun v => ?_⟩
        rw [waitOnce_attempted, attempt_attempted]
      | job =>
        refine ⟨hw.1, rfl, rfl, fun v => ?_⟩
        rw [enter_attempted, wakeAll_attempted, attempt_attempted]
    · exact Or.inl (.refl s)
  | wake w =>
    left
    simp only [step]
    split
    · split
      · exact .enter _
      · exact .refl s
    · exact .refl s
  | finish w =>
    left
    simp only [step]
    split
    · exact .enter _
    · exact .refl s

end Steps

/-- The recorded timestamp is the latest attempt of all loops. -/
structure Latest (cfg : Config) (s : Pod) : Prop where
  upper : ∀ w t, (s.loops w).attempted = some t →
    ∃ last, s.status.lastLeaseAttemptTS = some last ∧ t ≤ last
  attained : ∀ last, s.status.lastLeaseAttemptTS = some last →
    last ≤ s.now ∧ ∃ w, w < cfg.count ∧ (s.loops w).attempted = some last

theorem Latest.step {cfg : Config} {s : Pod} (h : Latest cfg s) (a : Action) :
    Latest cfg (step cfg s a) := by
  rcases @step_attempts cfg s a with hs | ⟨w, hs⟩
  · constructor
    · intro v t hv
      rw [hs.attempted] at hv
      rw [hs.status]
      exact h.upper v t hv
    · intro last hlast
      rw [hs.status] at hlast
      obtain ⟨hle, v, hv, hatt⟩ := h.attained last hlast
      exact ⟨hle.trans hs.now, v, hv, (hs.attempted v).trans hatt⟩
  · constructor
    · intro v t hv
      refine ⟨s.now, hs.status, ?_⟩
      rw [hs.attempted] at hv
      split at hv
      · exact (Option.some.inj hv).ge
      · obtain ⟨last, hlast, hle⟩ := h.upper v t hv
        exact hle.trans (h.attained last hlast).1
    · intro last hlast
      rw [hs.status] at hlast
      obtain rfl := Option.some.inj hlast
      refine ⟨hs.now.ge, w, hs.worker, ?_⟩
      rw [hs.attempted, if_pos rfl]

theorem reach_latest (cfg : Config) (as : List Action) : Latest cfg (reach cfg as) := by
  refine foldl_invariant (Latest cfg) (fun _ a h => h.step a) ?_ as
  constructor
  · intro w t h
    cases h
  · intro last h
    cases h

theorem livez_ok_iff_of_latest {cfg : Config} {s : Pod} (hpos : 0 < cfg.liveAfter)
    (hlatest : Latest cfg s) :
    s.livez cfg = 200 ↔ (∀ w, w < cfg.count → (s.loops w).attempted = none) ∨
      ∃ w t, w < cfg.count ∧ (s.loops w).attempted = some t ∧ s.now - t ≤ cfg.liveAfter := by
  unfold Pod.livez livez
  rw [if_pos hpos]
  split
  · rename_i hnone
    refine ⟨fun _ => Or.inl fun w _ => ?_, fun _ => rfl⟩
    by_contra hatt
    obtain ⟨t, ht⟩ := Option.ne_none_iff_exists'.mp hatt
    obtain ⟨last, hlast, _⟩ := hlatest.upper w t ht
    rw [hnone] at hlast
    cases hlast
  · rename_i last hlast
    obtain ⟨_, w, hw, hatt⟩ := hlatest.attained last hlast
    split
    · rename_i hold
      refine ⟨fun h => absurd h (by decide), ?_⟩
      rintro (hnone | ⟨v, t, hv, ht, hage⟩)
      · rw [hnone w hw] at hatt
        cases hatt
      · -- The attempt of `v` is no later than the recorded one.
        obtain ⟨last', hlast', hle⟩ := hlatest.upper v t ht
        rw [hlast] at hlast'
        obtain rfl := Option.some.inj hlast'
        omega
    · rename_i hold
      exact ⟨fun _ => Or.inr ⟨w, last, hw, hatt, not_lt.mp hold⟩, fun _ => rfl⟩

/-- One worker with the delays and the threshold of `cmd/imgsync/worker.go`. -/
def onePod : Config where
  workers := 1
  idle := ⟨50000000, 1000000000⟩
  liveAfter := 10000000000

/-- A transfer of ten seconds and a nanosecond makes the probe fail while the
worker is inside `ProcessJob`.  The loop is not wedged: the transfer returns,
and the next lease attempt brings the probe back. -/
theorem livez_fails_busy_pod :
    let busy : List Action := [.start 0, .lease 0 .job 0, .tick 10000000001]
    ((reach onePod busy).loops 0).phase = .processing ∧
      (reach onePod busy).livez onePod = 503 ∧
      (reach onePod (busy ++ [.finish 0, .lease 0 .empty 0])).livez onePod = 200 := by
  decide

/-! ## Bounded cycles -/

/-- The clock does not pass the bounds `leaseMax` and `jobMax` while the loop `w`
is leasing or processing. -/
def Within (w : Nat) (leaseMax jobMax : Int) (s : Pod) : Action → Prop
  | .tick d =>
    ((s.loops w).phase = .leasing → s.now + d - (s.loops w).since ≤ leaseMax) ∧
      ((s.loops w).phase = .processing → s.now + d - (s.loops w).since ≤ jobMax)
  | _ => True

/-- The longest wait of the schedule. -/
def Config.longestWait (cfg : Config) : Int :=
  (newIdle cfg.idle).longest + (newIdle cfg.idle).longest / 4

/-- How far a loop is from its last attempt, which it made at `t`. -/
def Phase.InCycle (leaseMax jobMax wait now since t : Int) : Phase → Prop
  | .starting => False
  | .leasing => since - t ≤ max jobMax wait ∧ now - since ≤ leaseMax
  | .waiting deadline _ => now ≤ deadline ∧ deadline - t ≤ wait
  | .processing => since = t ∧ now - t ≤ jobMax

def Loop.InCycle (leaseMax jobMax wait now : Int) (l : Loop) : Prop :=
  ∀ t, l.attempted = some t → l.phase.InCycle leaseMax jobMax wait now l.since t

structure Cycle (cfg : Config) (w : Nat) (leaseMax jobMax : Int) (s : Pod) : Prop where
  nominal_pos : 0 < s.nominal
  nominal_le : s.nominal ≤ (newIdle cfg.idle).longest
  loop : (s.loops w).InCycle leaseMax jobMax cfg.longestWait s.now

section Cycles

variable {cfg : Config} {s : Pod} {w v : Nat} {leaseMax jobMax wait now since t : Int} {ph : Phase}

theorem Phase.InCycle.wake (h : ph.InCycle leaseMax jobMax wait now since t) :
    ph.wake.InCycle leaseMax jobMax wait now since t := by
  cases ph <;> exact h

/-- Outside `LeaseJob` the last attempt is at most a job or a wait ago. -/
theorem Phase.InCycle.elapsed (h : ph.InCycle leaseMax jobMax wait now since t)
    (hph : ph ≠ .leasing) : now - t ≤ max jobMax wait := by
  cases ph with
  | starting => exact h.elim
  | leasing => exact absurd rfl hph
  | waiting deadline woken =>
    have hwait : now - t ≤ wait := by
      have h1 := h.1
      have h2 := h.2
      omega
    exact hwait.trans (le_max_right _ _)
  | processing => exact h.2.trans (le_max_left _ _)

theorem Phase.InCycle.age (h : ph.InCycle leaseMax jobMax wait now since t)
    (hlease : 0 ≤ leaseMax) : now - t ≤ max jobMax wait + leaseMax := by
  by_cases hph : ph = .leasing
  · subst hph
    have h1 := h.1
    have h2 := h.2
    omega
  · have helapsed := h.elapsed hph
    omega

/-- The loop goes back to `LeaseJob`. -/
theorem Cycle.leaseAgain (h : Cycle cfg w leaseMax jobMax s) (hlease : 0 ≤ leaseMax)
    (hph : (s.loops v).phase ≠ .leasing) :
    Cycle cfg w leaseMax jobMax (s.enter v .leasing) := by
  refine ⟨h.nominal_pos, h.nominal_le, ?_⟩
  by_cases hv : w = v
  · subst hv
    rw [enter_self]
    intro t ht
    have helapsed := (h.loop t ht).elapsed hph
    refine ⟨helapsed, ?_⟩
    show s.now - s.now ≤ leaseMax
    omega
  · rw [enter_of_ne hv]
    exact h.loop

theorem Cycle.tick (h : Cycle cfg w leaseMax jobMax s) (hw : w < cfg.count) {d : Nat}
    (hok : Within w leaseMax jobMax s (.tick d)) :
    Cycle cfg w leaseMax jobMax (Health.step cfg s (.tick d)) := by
  simp only [Health.step]
  split
  · rename_i hall
    have hrun := List.all_eq_true.mp hall w (List.mem_range.mpr hw)
    refine ⟨h.nominal_pos, h.nominal_le, ?_⟩
    intro t ht
    have hcycle := h.loop t ht
    show (s.loops w).phase.InCycle leaseMax jobMax cfg.longestWait (s.now + d) (s.loops w).since t
    cases hph : (s.loops w).phase with
    | starting =>
      rw [hph] at hcycle
      exact hcycle.elim
    | leasing =>
      rw [hph] at hcycle
      exact ⟨hcycle.1, hok.1 hph⟩
    | waiting deadline woken =>
      rw [hph] at hcycle hrun
      exact ⟨of_decide_eq_true hrun, hcycle.2⟩
    | processing =>
      rw [hph] at hcycle
      have hbound := hok.2 hph
      exact ⟨hcycle.1, hcycle.1 ▸ hbound⟩
  · exact h

/-- A lease attempt starts a new cycle of its loop, and does not disturb the
others. -/
theorem Cycle.attempt (h : Cycle cfg w leaseMax jobMax s) (hjob : 0 ≤ jobMax) (r : LeaseResult)
    (draw : Fin (2 ^ 53)) :
    Cycle cfg w leaseMax jobMax (Health.step cfg s (.lease v r draw)) := by
  obtain ⟨hbase, hmax⟩ := newIdle_pos cfg.idle
  have hdelay := jitter_bounds draw h.nominal_pos
  have hlongest : jitter draw s.nominal ≤ cfg.longestWait :=
    jitter_le draw h.nominal_pos h.nominal_le
  have hpos := h.nominal_pos
  simp only [Health.step]
  split
  · cases r with
    | failed | empty =>
      refine ⟨advance_pos hmax hpos, (advance_le _ _).trans (le_max_right _ _), ?_⟩
      show (((s.attempt v false).enter v _).loops w).InCycle ..
      by_cases hv : w = v
      · subst hv
        rw [enter_self, attempt_self]
        intro t ht
        obtain rfl := Option.some.inj ht
        constructor
        · show s.now ≤ s.now + jitter draw s.nominal
          omega
        · show s.now + jitter draw s.nominal - s.now ≤ cfg.longestWait
          omega
      · rw [enter_of_ne hv, attempt_of_ne hv]
        exact h.loop
    | job =>
      refine ⟨hbase, le_max_left _ _, ?_⟩
      by_cases hv : w = v
      · subst hv
        rw [enter_self]
        intro t ht
        rw [wakeAll_attempted, attempt_self] at ht
        obtain rfl := Option.some.inj ht
        refine ⟨rfl, ?_⟩
        show s.now - s.now ≤ jobMax
        omega
      · rw [enter_of_ne hv]
        intro t ht
        rw [wakeAll_attempted, attempt_of_ne hv] at ht
        show ((s.attempt v true).loops w).phase.wake.InCycle _ _ _ _
          ((s.attempt v true).loops w).since t
        rw [attempt_of_ne hv]
        exact (h.loop t ht).wake
  · exact h

theorem Cycle.step (h : Cycle cfg w leaseMax jobMax s) (hw : w < cfg.count)
    (hlease : 0 ≤ leaseMax) (hjob : 0 ≤ jobMax) {a : Action}
    (hok : Within w leaseMax jobMax s a) : Cycle cfg w leaseMax jobMax (Health.step cfg s a) := by
  cases a with
  | tick d => exact h.tick hw hok
  | lease v r draw => exact h.attempt hjob r draw
  | start v =>
    simp only [Health.step]
    split
    · rename_i hv
      exact h.leaseAgain hlease (by rw [hv.2]; decide)
    · exact h
  | wake v =>
    simp only [Health.step]
    split
    · rename_i deadline woken hv
      split
      · exact h.leaseAgain hlease (by rw [hv]; simp)
      · exact h
    · exact h
  | finish v =>
    simp only [Health.step]
    split
    · rename_i hv
      exact h.leaseAgain hlease (by rw [hv]; decide)
    · exact h

end Cycles

/-- A loop whose leases take at most `leaseMax` and whose jobs take at most
`jobMax` keeps the probe at 200 from its first attempt on, if the threshold
covers a job or a wait and the lease that follows it. -/
theorem livez_ok_of_cycle (cfg : Config) (w : Nat) (hw : w < cfg.count) (leaseMax jobMax : Int)
    (hlease : 0 ≤ leaseMax) (hjob : 0 ≤ jobMax)
    (hcover : max jobMax cfg.longestWait + leaseMax ≤ cfg.liveAfter) (as : List Action)
    (hrun : AllSteps (step cfg) (Within w leaseMax jobMax) (initial cfg) as)
    (hatt : ((reach cfg as).loops w).attempted ≠ none) : (reach cfg as).livez cfg = 200 := by
  obtain ⟨hbase, _⟩ := newIdle_pos cfg.idle
  have hinit : Cycle cfg w leaseMax jobMax (initial cfg) := by
    refine ⟨hbase, le_max_left _ _, ?_⟩
    intro t ht
    cases ht
  have hcycle : Cycle cfg w leaseMax jobMax (reach cfg as) :=
    foldl_all (Cycle cfg w leaseMax jobMax) (fun _ _ h hok => h.step hw hlease hjob hok) hinit hrun
  have hlongest : (newIdle cfg.idle).baseDelay ≤ (newIdle cfg.idle).longest := le_max_left _ _
  have hwait : 0 < cfg.longestWait := by
    unfold Config.longestWait
    omega
  obtain ⟨t, ht⟩ := Option.ne_none_iff_exists'.mp hatt
  have hage := (hcycle.loop t ht).age hlease
  rw [livez_ok_iff_of_latest (by omega) (reach_latest cfg as)]
  exact Or.inr ⟨w, t, hw, ht, hage.trans hcover⟩

/-- When `/livez` answers 200.  At a moment, exactly while no loop has attempted a lease
or some loop has attempted one at most `liveAfter` ago.  And along a run from the first
attempt of a loop on, if the leases and the jobs of this loop keep within bounds that
the threshold covers. -/
theorem livez_ok_iff (cfg : Config) (hpos : 0 < cfg.liveAfter) (as : List Action) :
    ((reach cfg as).livez cfg = 200 ↔
      (∀ w, w < cfg.count → ((reach cfg as).loops w).attempted = none) ∨
      ∃ w t, w < cfg.count ∧ ((reach cfg as).loops w).attempted = some t ∧
        (reach cfg as).now - t ≤ cfg.liveAfter) ∧
    ∀ w leaseMax jobMax, w < cfg.count → 0 ≤ leaseMax → 0 ≤ jobMax →
      max jobMax cfg.longestWait + leaseMax ≤ cfg.liveAfter →
      AllSteps (step cfg) (Within w leaseMax jobMax) (initial cfg) as →
      ((reach cfg as).loops w).attempted ≠ none → (reach cfg as).livez cfg = 200 :=
  ⟨livez_ok_iff_of_latest hpos (reach_latest cfg as),
    fun w leaseMax jobMax hw hlease hjob hcover hrun hatt =>
      livez_ok_of_cycle cfg w hw leaseMax jobMax hlease hjob hcover as hrun hatt⟩

/-- Five seconds into a job.  The loop takes at most a second for a lease and eight for a
job. -/
theorem livez_ok_iff_leased :
    let run : List Action := [.start 0, .lease 0 .job 0, .tick 5000000000]
    0 < onePod.liveAfter ∧ ((reach onePod run).loops 0).phase = .processing ∧
      (reach onePod run).livez onePod = 200 := by
  refine ⟨by decide, by decide, ?_⟩
  refine (livez_ok_iff onePod (by decide) _).2 0 1000000000 8000000000 (by decide) (by decide)
    (by decide) (by decide) ?_ (by decide)
  simp only [AllSteps, Within]
  decide

end ImgSync.Health
