import ImgSync.Lib.Ticker
import ImgSync.Sweeper.Exact

/-!
# The sweeper loops of several pods

`sweeper.Run` calls `Sweep` on every tick of a `time.Ticker` until its context is
done.  Each cycle has a timeout of two intervals.  Here any number of pods run
the loop against the server of `Sweeper.Run`, with one clock for the pods and the
database.  The loop is timed; `Sweep` itself is the model that the server has,
statement by statement.

* A cycle starts when the loop takes a tick, and `since` is when the last one
  did.  A statement of a cycle does not succeed after the timeout of the cycle or
  under a cancelled context.
* An error of `Sweep` ends the loop only if it comes from the context and the
  context of the loop is done.  A panic of `OnCycle` is recovered, and ends the
  loop.
* `OnCycle` itself is not modelled.

The question is how long a lease can stay overdue.  The advisory lock makes it
more than one cycle: a cycle that finds the lock taken returns at once, and the
call that holds the lock may have begun before the lease was overdue.
`recovered_in_time` says that eight intervals are enough when no statement fails,
whichever pods are running.
-/

namespace ImgSync.Sweeper.Loop

open ImgSync.Lib ImgSync.Queue ImgSync.Worker

/-! ## The loops -/

/-- `sweeper.Config`. -/
structure RunConfig where
  sweep : SweeperConfig
  interval : Duration

/-- The interval after the default, in microseconds. -/
def RunConfig.period (cfg : RunConfig) : Time :=
  (if cfg.interval ≤ 0 then 30000000000 else cfg.interval) / 1000

/-- `cycleTimeout`. -/
def RunConfig.cycleTimeout (cfg : RunConfig) : Time := 2 * cfg.period

/-- Where a loop is: at its `select`, inside of `Sweep`, or returned. -/
inductive Stage where
  | selecting
  | sweeping (call : Nat)
  | returned
  deriving DecidableEq, Repr

/-- The loop of one pod.  `since` and `joined` are not in the source: when its
last cycle started, and when the loop did. -/
structure Pod where
  ticker : Ticker
  stage : Stage
  cancelled : Bool
  since : Time
  joined : Time
  deriving DecidableEq, Repr

structure Fleet where
  server : Server
  pods : List Pod

/-- A step of one loop. -/
inductive PodAction where
  /-- The `select` takes a tick, and `Sweep` is called. -/
  | cycle
  /-- The next statement of `Sweep`. -/
  | statement (answer : Answer)
  /-- The loop goes on after `Sweep` has returned. -/
  | cycleDone (ctxErr panics : Bool)
  /-- The context of the loop is cancelled. -/
  | cancel
  /-- The `select` finds the context done. -/
  | leave
  deriving DecidableEq, Repr

inductive Action where
  | tick (d : Nat)
  | other (op : Op)
  /-- A pod calls `Run`. -/
  | join
  | pod (p : Nat) (a : PodAction)

def Pod.new (cfg : RunConfig) (now : Time) : Pod where
  ticker := .start cfg.period now
  stage := .selecting
  cancelled := false
  since := now
  joined := now

def Pod.advance (cfg : RunConfig) (now : Time) (pod : Pod) : Pod :=
  { pod with ticker := pod.ticker.advance cfg.period now }

/-- The context of a cycle is done. -/
def Pod.ctxDone (cfg : RunConfig) (now : Time) (pod : Pod) : Bool :=
  pod.cancelled || decide (pod.since + cfg.cycleTimeout < now)

/-- Where the loop goes when `Sweep` has returned `err`. -/
def Pod.afterCycle (pod : Pod) (ctxErr panics : Bool) : Option GoString → Stage
  | some _ => if ctxErr && pod.cancelled then .returned else .selecting
  | none => if panics then .returned else .selecting

def Fleet.setPod (f : Fleet) (p : Nat) (pod : Pod) : Fleet := { f with pods := f.pods.set p pod }

/-- A step of the loop `pod`, which is the loop of the pod `p`. -/
def podStep (cfg : RunConfig) (f : Fleet) (p : Nat) (pod : Pod) : PodAction → Fleet
  | .cycle =>
    if pod.stage = .selecting ∧ pod.ticker.waiting then
      { f with server := Sweeper.step cfg.sweep f.server .call }.setPod p
        { pod with
          ticker := pod.ticker.read
          stage := .sweeping f.server.sweeps.length
          since := f.server.clock }
    else f
  | .statement answer =>
    match pod.stage with
    | .sweeping c =>
      if answer = .ok ∧ pod.ctxDone cfg f.server.clock then f
      else { f with server := Sweeper.step cfg.sweep f.server (.sweep c answer) }
    | .selecting | .returned => f
  | .cycleDone ctxErr panics =>
    match pod.stage with
    | .sweeping c =>
      match f.server.sweeps[c]? with
      | some (.returned _ err) => f.setPod p { pod with stage := pod.afterCycle ctxErr panics err }
      | _ => f
    | .selecting | .returned => f
  | .cancel => f.setPod p { pod with cancelled := true }
  | .leave =>
    if pod.stage = .selecting ∧ pod.cancelled then f.setPod p { pod with stage := .returned } else f

def step (cfg : RunConfig) (f : Fleet) : Action → Fleet
  | .tick d =>
    { server := Sweeper.step cfg.sweep f.server (.tick d)
      pods := f.pods.map (Pod.advance cfg (f.server.clock + d)) }
  | .other op => { f with server := Sweeper.step cfg.sweep f.server (.other op) }
  | .join => { f with pods := f.pods ++ [Pod.new cfg f.server.clock] }
  | .pod p a =>
    match f.pods[p]? with
    | some pod => podStep cfg f p pod a
    | none => f

def initial (clock : Time) : Fleet := ⟨Sweeper.initial clock, []⟩

def reach (cfg : RunConfig) (clock : Time) (as : List Action) : Fleet :=
  as.foldl (step cfg) (initial clock)

/-- How far the clock may move before the loop has to take a step.  A loop at
its `select` takes a tick at once and sees at once that its context is done, and a
cycle ends within its timeout. -/
def Pod.limit (cfg : RunConfig) (now : Time) (pod : Pod) : Option Time :=
  match pod.stage with
  | .selecting => some (if pod.ticker.waiting ∨ pod.cancelled then now else pod.ticker.next)
  | .sweeping _ => some (pod.since + cfg.cycleTimeout)
  | .returned => none

/-- Every loop is prompt, and no statement fails. -/
def Prompt (cfg : RunConfig) (f : Fleet) : Action → Prop
  | .tick d => ∀ pod ∈ f.pods, ∀ l ∈ pod.limit cfg f.server.clock, f.server.clock + d ≤ l
  | .pod _ (.statement answer) => answer = .ok
  | .other _ | .join | .pod _ .cycle | .pod _ (.cycleDone _ _) | .pod _ .cancel
  | .pod _ .leave => True

instance (cfg : RunConfig) (f : Fleet) : DecidablePred (Prompt cfg f)
  | .tick d => inferInstanceAs (Decidable
      (∀ pod ∈ f.pods, ∀ l ∈ pod.limit cfg f.server.clock, f.server.clock + d ≤ l))
  | .pod _ (.statement answer) => inferInstanceAs (Decidable (answer = .ok))
  | .other _ | .join | .pod _ .cycle | .pod _ (.cycleDone _ _) | .pod _ .cancel
  | .pod _ .leave => isTrue trivial

/-! ## The holder of the lock -/

/-- The advisory lock is held by a call that is inside of its transaction. -/
def KeyHeld (s : Server) : Prop :=
  ∀ c n, s.locks sweeperLockKey = some (c, n) → ∃ ph, s.sweeps[c]? = some ph ∧ ph.Holding

section Server

variable {cfg : SweeperConfig} {s s' : Server} {c : Nat} {ph ph' : Sweeper.Phase}

theorem KeyHeld.move (h : KeyHeld s) (hc : s.sweeps[c]? = some ph) (hlocks : s'.locks = s.locks)
    (hsweeps : s'.sweeps = s.sweeps.set c ph') (hph : ph.Holding → ph'.Holding) : KeyHeld s' := by
  intro d n hd
  rw [hlocks] at hd
  obtain ⟨x, hx, hold⟩ := h d n hd
  rw [hsweeps]
  by_cases hdc : d = c
  · subst hdc
    obtain rfl : ph = x := Option.some.inj (hc.symm.trans hx)
    exact ⟨ph', List.getElem?_set_self (List.getElem?_eq_some_iff.mp hc).1, hph hold⟩
  · exact ⟨x, by rw [List.getElem?_set_ne (Ne.symm hdc)]; exact hx, hold⟩

/-- The end of the transaction of `c` frees the lock of `c` and no other. -/
theorem KeyHeld.finish (h : KeyHeld s) (hlocks : s'.locks = endSession s.locks c)
    (hsweeps : s'.sweeps = s.sweeps.set c ph') : KeyHeld s' := by
  intro d n hd
  rw [hlocks, endSession, Option.filter_eq_some_iff] at hd
  obtain ⟨x, hx, hold⟩ := h d n hd.1
  have hdc : c ≠ d := fun heq => by simp [heq] at hd
  rw [hsweeps]
  exact ⟨x, by rw [List.getElem?_set_ne hdc]; exact hx, hold⟩

theorem KeyHeld.sweepStep (h : KeyHeld s) (hc : s.sweeps[c]? = some ph) (answer : Answer) :
    KeyHeld (Sweeper.sweepStep cfg s c ph answer) := by
  cases ph with
  | idle =>
    cases answer with
    | ok => exact h.move hc rfl rfl False.elim
    | error | lost => exact h.finish rfl rfl
  | begun now =>
    cases answer with
    | ok =>
      simp only [Sweeper.sweepStep]
      split
      · rename_i hgot
        intro d n hd
        obtain rfl : c = d := (holds_of_tryLock hgot).unique ⟨n, hd⟩
        exact ⟨_, List.getElem?_set_self (List.getElem?_eq_some_iff.mp hc).1, trivial⟩
      · exact h.finish rfl rfl
    | error | lost => exact h.finish rfl rfl
  | locked now =>
    cases answer with
    | ok => exact h.move hc rfl rfl fun _ => trivial
    | error | lost => exact h.finish rfl rfl
  | updated now rows evs =>
    simp only [Sweeper.sweepStep]
    split
    · exact h.move hc rfl rfl fun _ => trivial
    · exact h.finish rfl rfl
    · exact h.finish rfl rfl
    · exact h.finish rfl rfl
    · exact h.finish rfl rfl
    · exact h.finish rfl rfl
  | returned count err => exact h

theorem KeyHeld.call (h : KeyHeld s) (cfg : SweeperConfig) :
    KeyHeld (Sweeper.step cfg s .call) := by
  intro d n hd
  obtain ⟨x, hx, hold⟩ := h d n hd
  refine ⟨x, ?_, hold⟩
  rw [Sweeper.step, List.getElem?_append_left (List.getElem?_eq_some_iff.mp hx).1]
  exact hx

theorem KeyHeld.step (h : KeyHeld s) (cfg : SweeperConfig) (a : Sweeper.Action) :
    KeyHeld (Sweeper.step cfg s a) := by
  cases a with
  | tick d => exact h
  | other op =>
    rw [Sweeper.step]
    split <;> exact h
  | call => exact h.call cfg
  | sweep c answer =>
    rw [Sweeper.step]
    split
    · exact h
    · rename_i ph hc
      exact h.sweepStep hc answer

/-! ## A statement that succeeds -/

/-- How a statement that succeeds moves its call from one phase to the next. -/
inductive Moves (cfg : SweeperConfig) (s s' : Server) : Sweeper.Phase → Sweeper.Phase → Prop where
  | begins : Moves cfg s s' .idle (.begun s.clock)
  | locks (now : Time) : Moves cfg s s' (.begun now) (.locked now)
  /-- Another call holds the lock. -/
  | refused (now : Time) (d : Nat) (x : Sweeper.Phase) (hd : s.sweeps[d]? = some x)
      (hx : x.Holding) : Moves cfg s s' (.begun now) (.returned 0 none)
  | updates (now : Time) (rows : List JobRow) : Moves cfg s s' (.locked now) (.updated now rows [])
  | inserts (now : Time) (rows : List JobRow) (evs evs' : List EventRow) :
      Moves cfg s s' (.updated now rows evs) (.updated now rows evs')
  /-- No lease is left that was overdue when the transaction began. -/
  | commits (now : Time) (rows : List JobRow) (evs : List EventRow)
      (hnone : ∀ r ∈ s'.tables.jobs, expired now cfg.thresholdSeconds r = false) :
      Moves cfg s s' (.updated now rows evs) (.returned rows.length none)
  | stays (n : Nat) (err : Option GoString) : Moves cfg s s' (.returned n err) (.returned n err)

/-- What a statement that succeeds does. -/
structure Executed (cfg : SweeperConfig) (s s' : Server) (c : Nat) (ph ph' : Sweeper.Phase) :
    Prop where
  moves : Moves cfg s s' ph ph'
  sweeps : s'.sweeps = s.sweeps.set c ph'
  clock : s'.clock = s.clock
  leased : ∀ r ∈ s'.tables.jobs, r.status = .leased → r ∈ s.tables.jobs

theorem Executed.self (h : Executed cfg s s' c ph ph') (hc : s.sweeps[c]? = some ph) :
    s'.sweeps[c]? = some ph' := by
  rw [h.sweeps]
  exact List.getElem?_set_self (List.getElem?_eq_some_iff.mp hc).1

theorem Executed.others (h : Executed cfg s s' c ph ph') {d : Nat} (hdc : d ≠ c) :
    s'.sweeps[d]? = s.sweeps[d]? := by
  rw [h.sweeps, List.getElem?_set_ne hdc.symm]

theorem commit_leased {now : Time} {rows : List JobRow} {evs : List EventRow}
    (h : Staged cfg s.tables now rows evs) (hwf : s.tables.Wf) :
    ∀ r ∈ (s.commit now rows evs).tables.jobs,
      expired now cfg.thresholdSeconds r = false ∧ (r.status = .leased → r ∈ s.tables.jobs) := by
  intro r' hr'
  rw [h.commit_jobs hwf] at hr'
  obtain ⟨r, hr, rfl⟩ := List.mem_map.mp hr'
  cases he : expired now cfg.thresholdSeconds r with
  | true =>
    have hstatus : (r.requeue now).status ≠ .leased := by simp [JobRow.requeue]
    rw [if_pos rfl]
    exact ⟨expired_of_not_leased hstatus, fun hl => absurd hl hstatus⟩
  | false => exact ⟨he, fun _ => hr⟩

theorem statement_ok (hinv : Inv cfg s) (hkey : KeyHeld s) (hc : s.sweeps[c]? = some ph) :
    ∃ ph', Executed cfg s (Sweeper.step cfg s (.sweep c .ok)) c ph ph' := by
  simp only [Sweeper.step, hc]
  cases ph with
  | idle => exact ⟨_, .begins, rfl, rfl, fun r hr _ => hr⟩
  | begun now =>
    simp only [Sweeper.sweepStep]
    split
    · exact ⟨_, .locks now, rfl, rfl, fun r hr _ => hr⟩
    · rename_i hgot
      obtain ⟨-, d, n, hd, -⟩ := tryLock_not_got (Bool.not_eq_true _ ▸ hgot)
      obtain ⟨x, hx, hold⟩ := hkey d n hd
      exact ⟨_, .refused now d x hx hold, rfl, rfl, fun r hr _ => hr⟩
  | locked now => exact ⟨_, .updates now _, rfl, rfl, fun r hr _ => hr⟩
  | updated now rows evs =>
    simp only [Sweeper.sweepStep]
    cases hnext : rows[evs.length]? with
    | some r => exact ⟨_, .inserts now rows evs _, rfl, rfl, fun r hr _ => hr⟩
    | none =>
      have hcommit := commit_leased (hinv.staged c now rows evs hc) hinv.wf
      exact ⟨_, .commits now rows evs fun r hr => (hcommit r hr).1, rfl, rfl,
        fun r hr => (hcommit r hr).2⟩
  | returned n err =>
    refine ⟨_, .stays n err, ?_, rfl, fun r hr _ => hr⟩
    show s.sweeps = s.sweeps.set c (.returned n err)
    obtain ⟨hlt, heq⟩ := List.getElem?_eq_some_iff.mp hc
    rw [← heq]
    exact (List.set_getElem_self hlt).symm

end Server

/-- A row that is leased after a statement of another writer was leased before,
or is leased now. -/
theorem leased_exec {t : Tables} (hwf : t.Wf) {now : Time} {op : Op} {r : JobRow}
    (hr : r ∈ (exec t now op).jobs) (hl : r.status = .leased) :
    r ∈ t.jobs ∨ r.lockedAt = some now := by
  by_cases hret : op.IsRetention
  · obtain ⟨keep, hpruned⟩ := exec_retention hwf now hret
    exact Or.inl (hpruned.trail hr).1
  · obtain ⟨d⟩ := exec_delta hwf now hret
    rcases d.mem_jobs.mp hr with ⟨x, hx, rfl⟩ | hnew
    · have hstep := d.rows x hx
      generalize d.f x = x', kindsOf d.evs x.id = kinds at hstep hl
      cases hstep with
      | keep => exact Or.inl hx
      | lease w rowLocked => exact Or.inr rfl
      | drain | expire | succeed | retry =>
        exact absurd hl (by simp [JobRow.requeue, setSuccess, setRetry])
      | finish w job kind =>
        exact absurd hl (by cases kind <;> simp [setTerminal, TerminalKind.jobStatus])
    · rw [(d.created r hnew).pending] at hl
      exact absurd hl (by decide)

/-! ## The invariant -/

/-- A loop that has not returned, on the clock of the server. -/
structure PodInv (cfg : RunConfig) (s : Server) (pod : Pod) : Prop where
  paced : Paced cfg.period pod.ticker pod.since s.clock
  since_le : pod.since ≤ s.clock
  clock_le : s.clock ≤ pod.since + cfg.cycleTimeout
  call : ∀ c, pod.stage = .sweeping c →
    ∃ ph, s.sweeps[c]? = some ph ∧ ∀ now, ph.began? = some now → pod.since ≤ now

/-- The instant from which on a lease is overdue for the loop. -/
def due (cfg : RunConfig) (pod : Pod) (lockedAt : Time) : Time :=
  max (lockedAt + secondsInterval cfg.sweep.thresholdSeconds) pod.joined

/-- Some loop is in a transaction that began after `t`. -/
def InHand (cfg : RunConfig) (f : Fleet) (t : Time) : Prop :=
  ∃ pod ∈ f.pods, ∃ c ph now, pod.stage = .sweeping c ∧ f.server.sweeps[c]? = some ph ∧
    ph.Holding ∧ ph.began? = some now ∧ t < now ∧ pod.since ≤ t + 6 * cfg.period

/-- Why a lease that is overdue from `t` on has not been recovered.  The last
cycle of the loop started too early, or some transaction has the lease in hand,
or the loop has not tried the lock yet. -/
def Excused (cfg : RunConfig) (f : Fleet) (pod : Pod) (t : Time) : Prop :=
  pod.since ≤ t + 2 * cfg.period ∨ InHand cfg f t ∨
    ∃ c ph, pod.stage = .sweeping c ∧ f.server.sweeps[c]? = some ph ∧
      (ph = .idle ∨ ∃ now, ph = .begun now) ∧ pod.since ≤ t + 4 * cfg.period

structure FleetInv (cfg : RunConfig) (f : Fleet) : Prop where
  server : Inv cfg.sweep f.server
  key : KeyHeld f.server
  pods : ∀ pod ∈ f.pods, pod.stage ≠ .returned → PodInv cfg f.server pod
  owner : ∀ (c : Nat) ph, f.server.sweeps[c]? = some ph → ph.Holding →
    ∃ pod ∈ f.pods, pod.stage = .sweeping c
  excused : ∀ pod ∈ f.pods, pod.stage ≠ .returned → ∀ r ∈ f.server.tables.jobs,
    r.status = .leased → ∀ a, r.lockedAt = some a → Excused cfg f pod (due cfg pod a)

section Fleet

variable {cfg : RunConfig} {f : Fleet} {pod pod' : Pod} {p : Nat} {t : Time}

theorem began_of_holding {ph : Sweeper.Phase} (h : ph.Holding) : ∃ now, ph.began? = some now := by
  cases ph with
  | locked now | updated now => exact ⟨now, rfl⟩
  | idle | begun | returned => exact h.elim

/-- What an excuse bounds. -/
theorem FleetInv.clock_le (h : FleetInv cfg f) (hperiod : 0 < cfg.period)
    (hpod : PodInv cfg f.server pod) (hex : Excused cfg f pod t) :
    f.server.clock ≤ t + 8 * cfg.period := by
  have hclock := hpod.clock_le
  rw [RunConfig.cycleTimeout] at hclock
  rcases hex with hsince | ⟨q, hq, c, ph, now, hstage, -, -, -, -, hsince⟩ | ⟨-, -, -, -, -, hsince⟩
  · linarith
  · have hqclock := (h.pods q hq (by simp [hstage])).clock_le
    rw [RunConfig.cycleTimeout] at hqclock
    linarith
  · linarith

/-- The loop of `p` becomes `pod'`.  A loop that holds the lock keeps its cycle. -/
theorem FleetInv.setPod (h : FleetInv cfg f) (hp : f.pods[p]? = some pod)
    (hinv : pod'.stage ≠ .returned → PodInv cfg f.server pod')
    (hkeeps : ∀ c ph, f.server.sweeps[c]? = some ph → ph.Holding → pod.stage = .sweeping c →
      pod'.stage = .sweeping c ∧ pod'.since = pod.since)
    (hex : ∀ r ∈ f.server.tables.jobs, r.status = .leased → ∀ a, r.lockedAt = some a →
      pod'.stage ≠ .returned → Excused cfg f pod' (due cfg pod' a)) :
    FleetInv cfg (f.setPod p pod') := by
  have hlt := (List.getElem?_eq_some_iff.mp hp).1
  have hmem : ∀ x ∈ f.pods.set p pod', x = pod' ∨ x ∈ f.pods := fun x hx =>
    (List.mem_or_eq_of_mem_set hx).symm
  have hnew : pod' ∈ f.pods.set p pod' := List.mem_set hlt pod'
  -- A loop in `f` that holds the lock is still there, or it is `pod`.
  have hholder : ∀ x ∈ f.pods, ∀ c ph, f.server.sweeps[c]? = some ph → ph.Holding →
      x.stage = .sweeping c →
        ∃ y ∈ f.pods.set p pod', y.stage = .sweeping c ∧ y.since = x.since := by
    intro x hx c ph hc hold hstage
    obtain ⟨q, hq⟩ := List.getElem?_of_mem hx
    by_cases hqp : q = p
    · subst hqp
      obtain rfl : pod = x := Option.some.inj (hp.symm.trans hq)
      exact ⟨pod', hnew, hkeeps c ph hc hold hstage⟩
    · refine ⟨x, List.mem_of_getElem? (i := q) ?_, hstage, rfl⟩
      rw [List.getElem?_set_ne (Ne.symm hqp)]
      exact hq
  have hexcused : ∀ x t, Excused cfg f x t → Excused cfg (f.setPod p pod') x t := by
    rintro x t (hsince | ⟨q, hq, c, ph, now, hstage, hc, hold, hbegan, hlt, hsince⟩ | hearly)
    · exact Or.inl hsince
    · obtain ⟨y, hy, hystage, hysince⟩ := hholder q hq c ph hc hold hstage
      exact Or.inr (Or.inl ⟨y, hy, c, ph, now, hystage, hc, hold, hbegan, hlt, hysince ▸ hsince⟩)
    · exact Or.inr (Or.inr hearly)
  refine ⟨h.server, h.key, ?_, ?_, ?_⟩
  · intro x hx hrun
    rcases hmem x hx with rfl | hx
    · exact hinv hrun
    · exact h.pods x hx hrun
  · intro c ph hc hold
    obtain ⟨x, hx, hstage⟩ := h.owner c ph hc hold
    obtain ⟨y, hy, hystage, -⟩ := hholder x hx c ph hc hold hstage
    exact ⟨y, hy, hystage⟩
  · intro x hx hrun r hr hl a ha
    rcases hmem x hx with rfl | hx
    · exact hexcused _ _ (hex r hr hl a ha hrun)
    · exact hexcused _ _ (h.excused x hx hrun r hr hl a ha)

/-- The clock moves, as far as every loop allows. -/
theorem FleetInv.tick (h : FleetInv cfg f) (hperiod : 0 < cfg.period) {d : Nat}
    (hd : ∀ pod ∈ f.pods, ∀ l ∈ pod.limit cfg f.server.clock, f.server.clock + d ≤ l) :
    FleetInv cfg (step cfg f (.tick d)) := by
  have hlater : f.server.clock ≤ f.server.clock + d := by simp
  refine ⟨h.server.step (.tick d), h.key.step cfg.sweep (.tick d), ?_, ?_, ?_⟩
  · intro x hx hrun
    obtain ⟨pod, hpod, rfl⟩ := List.mem_map.mp hx
    obtain ⟨hpaced, hsince, hclock, hcall⟩ := h.pods pod hpod hrun
    refine ⟨hpaced.advance hperiod hlater, hsince.trans hlater, ?_, hcall⟩
    show f.server.clock + d ≤ pod.since + cfg.cycleTimeout
    have hlimit := hd pod hpod
    rw [Pod.limit] at hlimit
    cases hstage : pod.stage with
    | returned => exact absurd hstage hrun
    | sweeping c =>
      rw [hstage] at hlimit
      exact hlimit _ rfl
    | selecting =>
      rw [hstage] at hlimit
      have hready := hlimit _ rfl
      split_ifs at hready with hwaiting
      · exact hready.trans hclock
      · -- No tick is waiting, so the next one comes within an interval.
        rw [not_or, Bool.not_eq_true] at hwaiting
        have hnext := hpaced.unread hwaiting.1
        rw [RunConfig.cycleTimeout]
        linarith
  · intro c ph hc hold
    obtain ⟨x, hx, hstage⟩ := h.owner c ph hc hold
    exact ⟨_, List.mem_map_of_mem hx, hstage⟩
  · intro x hx hrun r hr hl a ha
    obtain ⟨pod, hpod, rfl⟩ := List.mem_map.mp hx
    rcases h.excused pod hpod hrun r hr hl a ha with
      hsince | ⟨q, hq, hhand⟩ | hearly
    · exact Or.inl hsince
    · exact Or.inr (Or.inl ⟨_, List.mem_map_of_mem hq, hhand⟩)
    · exact Or.inr (Or.inr hearly)

theorem FleetInv.other (h : FleetInv cfg f) (hperiod : 0 < cfg.period) (op : Op) :
    FleetInv cfg (step cfg f (.other op)) := by
  have hsweeps : (Sweeper.step cfg.sweep f.server (.other op)).sweeps = f.server.sweeps := by
    rw [Sweeper.step]
    split <;> rfl
  have hclock : (Sweeper.step cfg.sweep f.server (.other op)).clock = f.server.clock := by
    rw [Sweeper.step]
    split <;> rfl
  have hrows : ∀ r ∈ (Sweeper.step cfg.sweep f.server (.other op)).tables.jobs,
      r.status = .leased → r ∈ f.server.tables.jobs ∨ r.lockedAt = some f.server.clock := by
    intro r hr hl
    rw [Sweeper.step] at hr
    split at hr
    · exact leased_exec h.server.wf hr hl
    · exact Or.inl hr
  refine ⟨h.server.step (.other op), h.key.step cfg.sweep (.other op), ?_, ?_, ?_⟩
  · intro pod hpod hrun
    obtain ⟨hpaced, hsince, hlate, hcall⟩ := h.pods pod hpod hrun
    refine ⟨?_, ?_, ?_, ?_⟩
    all_goals simp only [step, hclock, hsweeps]
    exacts [hpaced, hsince, hlate, hcall]
  · simp only [step, hsweeps]
    exact h.owner
  · intro pod hpod hrun r hr hl a ha
    rcases hrows r hr hl with hold | hnow
    · have hex := h.excused pod hpod hrun r hold hl a ha
      simp only [Excused, InHand, step, hsweeps] at hex ⊢
      exact hex
    · -- A lease that starts now is not overdue yet.
      obtain rfl : a = f.server.clock := Option.some.inj (ha.symm.trans hnow)
      have hsince := (h.pods pod hpod hrun).since_le
      have hnonneg : 0 ≤ secondsInterval cfg.sweep.thresholdSeconds :=
        Int.mul_nonneg (thresholdSeconds_nonneg _) (by decide)
      have hdue : f.server.clock + secondsInterval cfg.sweep.thresholdSeconds ≤
          due cfg pod f.server.clock := le_max_left _ _
      exact Or.inl (by linarith)

theorem FleetInv.join (h : FleetInv cfg f) (hperiod : 0 < cfg.period) :
    FleetInv cfg (step cfg f .join) := by
  have hmem : ∀ x ∈ f.pods ++ [Pod.new cfg f.server.clock],
      x ∈ f.pods ∨ x = Pod.new cfg f.server.clock := by simp
  refine ⟨h.server, h.key, ?_, ?_, ?_⟩
  · intro x hx hrun
    rcases hmem x hx with hx | rfl
    · exact h.pods x hx hrun
    · refine ⟨paced_start _ _, le_rfl, ?_, fun c hc => (nomatch hc)⟩
      show f.server.clock ≤ f.server.clock + 2 * cfg.period
      linarith
  · intro c ph hc hold
    obtain ⟨x, hx, hstage⟩ := h.owner c ph hc hold
    exact ⟨x, List.mem_append_left _ hx, hstage⟩
  · intro x hx hrun r hr hl a ha
    rcases hmem x hx with hx | rfl
    · rcases h.excused x hx hrun r hr hl a ha with hsince | ⟨q, hq, hhand⟩ | hearly
      · exact Or.inl hsince
      · exact Or.inr (Or.inl ⟨q, List.mem_append_left _ hq, hhand⟩)
      · exact Or.inr (Or.inr hearly)
    · have hdue : f.server.clock ≤ due cfg (Pod.new cfg f.server.clock) a := le_max_right _ _
      refine Or.inl ?_
      show f.server.clock ≤ _
      linarith

/-- A new call is in its first phase, and nothing else changes. -/
theorem FleetInv.call (h : FleetInv cfg f) :
    FleetInv cfg { f with server := Sweeper.step cfg.sweep f.server .call } := by
  have hkept : ∀ (c : Nat) ph, f.server.sweeps[c]? = some ph →
      (f.server.sweeps ++ [Sweeper.Phase.idle])[c]? = some ph := by
    intro c ph hc
    rw [List.getElem?_append_left (List.getElem?_eq_some_iff.mp hc).1]
    exact hc
  refine ⟨h.server.step .call, h.key.call cfg.sweep, ?_, ?_, ?_⟩
  · intro pod hpod hrun
    obtain ⟨hpaced, hsince, hlate, hcall⟩ := h.pods pod hpod hrun
    refine ⟨hpaced, hsince, hlate, fun c hc => ?_⟩
    obtain ⟨ph, hph, hbegan⟩ := hcall c hc
    exact ⟨ph, hkept c ph hph, hbegan⟩
  · intro c ph hc hold
    have hph : f.server.sweeps[c]? = some ph := by
      rcases Nat.lt_or_ge c f.server.sweeps.length with hlt | hge
      · rwa [Sweeper.step, List.getElem?_append_left hlt] at hc
      · rw [Sweeper.step, List.getElem?_append_right hge] at hc
        rw [List.mem_singleton.mp (List.mem_of_getElem? hc)] at hold
        exact hold.elim
    exact h.owner c ph hph hold
  · intro pod hpod hrun r hr hl a ha
    rcases h.excused pod hpod hrun r hr hl a ha with
      hsince | ⟨q, hq, c, ph, now, hstage, hc, hhand⟩ | ⟨c, ph, hstage, hc, hearly⟩
    · exact Or.inl hsince
    · exact Or.inr (Or.inl ⟨q, hq, c, ph, now, hstage, hkept c ph hc, hhand⟩)
    · exact Or.inr (Or.inr ⟨c, ph, hstage, hkept c ph hc, hearly⟩)

/-- The `select` takes a tick.  The loop was early for every lease that is
overdue now, so it gets the time of one more cycle. -/
theorem FleetInv.cycle (h : FleetInv cfg f) (hperiod : 0 < cfg.period)
    (hp : f.pods[p]? = some pod) : FleetInv cfg (podStep cfg f p pod .cycle) := by
  rw [podStep]
  split
  case isFalse => exact h
  rename_i hready
  have hpod := h.pods pod (List.mem_of_getElem? hp) (by simp [hready.1])
  refine h.call.setPod hp (fun _ => ⟨hpod.paced.read, le_rfl, ?_, ?_⟩) ?_ ?_
  · show f.server.clock ≤ f.server.clock + 2 * cfg.period
    linarith
  · intro c hc
    obtain rfl : f.server.sweeps.length = c := Stage.sweeping.inj hc
    exact ⟨.idle, List.getElem?_concat_length, fun now hnow => (nomatch hnow)⟩
  · intro c ph _ _ hstage
    rw [hready.1] at hstage
    exact absurd hstage (by simp)
  · intro r hr hl a ha _
    rcases h.call.excused pod (List.mem_of_getElem? hp) (by simp [hready.1]) r hr hl a ha with
      hsince | hhand | ⟨c, -, hstage, -⟩
    · refine Or.inr (Or.inr ⟨_, .idle, rfl, List.getElem?_concat_length, Or.inl rfl, ?_⟩)
      have hclock := hpod.clock_le
      rw [RunConfig.cycleTimeout] at hclock
      show f.server.clock ≤ due cfg pod a + 4 * cfg.period
      linarith
    · exact Or.inr (Or.inl hhand)
    · rw [hready.1] at hstage
      exact absurd hstage (by simp)

section Statement

variable {c : Nat} {ph ph' : Sweeper.Phase} {s' : Server}

/-- The loop that runs the statement, and every other loop, after the
statement. -/
theorem PodInv.executed (h : PodInv cfg f.server pod) (hc : f.server.sweeps[c]? = some ph)
    (hx : Executed cfg.sweep f.server s' c ph ph') : PodInv cfg s' pod := by
  refine ⟨?_, ?_, ?_, fun d hd => ?_⟩
  · rw [hx.clock]
    exact h.paced
  · rw [hx.clock]
    exact h.since_le
  · rw [hx.clock]
    exact h.clock_le
  · obtain ⟨x, hx', hbegan⟩ := h.call d hd
    by_cases hdc : d = c
    · subst hdc
      obtain rfl : ph = x := Option.some.inj (hc.symm.trans hx')
      refine ⟨ph', hx.self hc, fun now hnow => ?_⟩
      cases hx.moves with
      | begins =>
        obtain rfl : f.server.clock = now := Option.some.inj hnow
        exact h.since_le
      | locks | updates | inserts => exact hbegan now hnow
      | refused | commits | stays => exact (nomatch hnow)
    · exact ⟨x, (hx.others hdc).trans hx', hbegan⟩

/-- A lease that is in hand stays so until it is recovered. -/
theorem InHand.executed (h : InHand cfg f t) (hc : f.server.sweeps[c]? = some ph)
    (hx : Executed cfg.sweep f.server s' c ph ph') {r : JobRow} (hr : r ∈ s'.tables.jobs)
    (hover : ∀ now, t < now → expired now cfg.sweep.thresholdSeconds r = true) :
    InHand cfg { f with server := s' } t := by
  obtain ⟨q, hq, d, x, now, hstage, hd, hold, hbegan, hlt, hsince⟩ := h
  by_cases hdc : d = c
  · subst hdc
    obtain rfl : ph = x := Option.some.inj (hc.symm.trans hd)
    cases hx.moves with
    | begins | locks | refused | stays => exact hold.elim
    | updates | inserts =>
      exact ⟨q, hq, d, _, now, hstage, hx.self hc, trivial, hbegan, hlt, hsince⟩
    | commits now' rows evs hnone =>
      obtain rfl : now' = now := Option.some.inj hbegan
      have he := hover now' hlt
      rw [hnone r hr] at he
      exact absurd he (by decide)
  · exact ⟨q, hq, d, x, now, hstage, (hx.others hdc).trans hd, hold, hbegan, hlt, hsince⟩

/-- A loop that has tried the lock.  It has the lock, or the call that has it is
either recent enough to have the lease in hand or old enough to excuse the
loop. -/
theorem FleetInv.tried (h : FleetInv cfg f) (hperiod : 0 < cfg.period) (hpod : pod ∈ f.pods)
    (hstage : pod.stage = .sweeping c) {now : Time}
    (hc : f.server.sweeps[c]? = some (.begun now))
    (hx : Executed cfg.sweep f.server s' c (.begun now) ph')
    (hsince : pod.since ≤ t + 4 * cfg.period) :
    Excused cfg { f with server := s' } pod t := by
  have hinv := h.pods pod hpod (by simp [hstage])
  obtain ⟨x, hx', hbegan⟩ := hinv.call c hstage
  obtain rfl : .begun now = x := Option.some.inj (hc.symm.trans hx')
  have hstart : pod.since ≤ now := hbegan now rfl
  cases hx.moves with
  | locks =>
    by_cases hlt : t < now
    · exact Or.inr (Or.inl ⟨pod, hpod, c, .locked now, now, hstage, hx.self hc, trivial, rfl, hlt,
        by linarith⟩)
    · exact Or.inl (by linarith)
  | refused _ d x hd hold =>
    have hdc : d ≠ c := by
      rintro rfl
      rw [hc] at hd
      obtain rfl := Option.some.inj hd
      exact hold.elim
    obtain ⟨q, hq, hqstage⟩ := h.owner d x hd hold
    have hqinv := h.pods q hq (by simp [hqstage])
    obtain ⟨y, hy, hqbegan⟩ := hqinv.call d hqstage
    obtain rfl : x = y := Option.some.inj (hd.symm.trans hy)
    obtain ⟨now', hnow'⟩ := began_of_holding hold
    have hqstart := hqbegan now' hnow'
    have hqsince := hqinv.since_le
    have hqclock := hqinv.clock_le
    have hclock := hinv.clock_le
    have hpast := hinv.since_le
    rw [RunConfig.cycleTimeout] at hqclock hclock
    by_cases hlt : t < now'
    · exact Or.inr (Or.inl ⟨q, hq, d, x, now', hqstage, (hx.others hdc).trans hd, hold, hnow', hlt,
        by linarith⟩)
    · exact Or.inl (by linarith)

theorem FleetInv.executed (h : FleetInv cfg f) (hperiod : 0 < cfg.period) (hpod : pod ∈ f.pods)
    (hstage : pod.stage = .sweeping c) (hc : f.server.sweeps[c]? = some ph)
    (hx : Executed cfg.sweep f.server s' c ph ph') (hserver : Inv cfg.sweep s')
    (hkey : KeyHeld s') : FleetInv cfg { f with server := s' } := by
  refine ⟨hserver, hkey, fun q hq hrun => (h.pods q hq hrun).executed hc hx, ?_, ?_⟩
  · intro d y hd hold
    have hd' : s'.sweeps[d]? = some y := hd
    rw [hx.sweeps] at hd'
    rcases getElem?_set_cases hd' with ⟨rfl, -⟩ | ⟨-, hd'⟩
    · exact ⟨pod, hpod, hstage⟩
    · exact h.owner d y hd' hold
  · intro q hq hrun r hr hl a ha
    have hover : ∀ now, due cfg q a < now → expired now cfg.sweep.thresholdSeconds r = true := by
      intro now hlt
      have hle : a + secondsInterval cfg.sweep.thresholdSeconds ≤ due cfg q a := le_max_left _ _
      simp only [expired, hl, ha, beq_self_eq_true, Bool.true_and, decide_eq_true_eq]
      linarith
    rcases h.excused q hq hrun r (hx.leased r hr hl) hl a ha with
      hsince | hhand | ⟨d, y, hqstage, hd, hearly, hsince⟩
    · exact Or.inl hsince
    · exact Or.inr (Or.inl (hhand.executed hc hx hr hover))
    · by_cases hdc : d = c
      · subst hdc
        obtain rfl : ph = y := Option.some.inj (hc.symm.trans hd)
        rcases hearly with rfl | ⟨now, rfl⟩
        · -- The transaction begins, and the lock is still to be tried.
          cases hx.moves
          exact Or.inr (Or.inr
            ⟨d, .begun f.server.clock, hqstage, hx.self hc, Or.inr ⟨_, rfl⟩, hsince⟩)
        · exact h.tried hperiod hq hqstage hc hx hsince
      · exact Or.inr (Or.inr ⟨d, y, hqstage, (hx.others hdc).trans hd, hearly, hsince⟩)

end Statement

/-- The other steps of a loop leave the server alone. -/
theorem FleetInv.podStep (h : FleetInv cfg f) (hperiod : 0 < cfg.period)
    (hp : f.pods[p]? = some pod) {a : PodAction} (ha : Prompt cfg f (.pod p a)) :
    FleetInv cfg (Loop.podStep cfg f p pod a) := by
  have hmem := List.mem_of_getElem? hp
  cases a with
  | cycle => exact h.cycle hperiod hp
  | statement answer =>
    obtain rfl : answer = .ok := ha
    rw [Loop.podStep]
    split
    · rename_i c hstage
      split
      · exact h
      · obtain ⟨ph, hc, -⟩ := (h.pods pod hmem (by simp [hstage])).call c hstage
        obtain ⟨ph', hx⟩ := statement_ok h.server h.key hc
        exact h.executed hperiod hmem hstage hc hx (h.server.step _) (h.key.step cfg.sweep _)
    · exact h
    · exact h
  | cycleDone ctxErr panics =>
    rw [Loop.podStep]
    split
    · rename_i c hstage
      split
      · rename_i n err hc
        have hrun : pod.stage ≠ .returned := by simp [hstage]
        have hselecting : ∀ d, pod.afterCycle ctxErr panics err ≠ .sweeping d := by
          intro d
          cases err <;> simp only [Pod.afterCycle] <;> split <;> simp
        have hpod := h.pods pod hmem hrun
        refine h.setPod hp (fun _ => ⟨hpod.paced, hpod.since_le, hpod.clock_le, ?_⟩) ?_ ?_
        · exact fun d hd => absurd hd (hselecting d)
        · intro d ph hd hold hd'
          obtain rfl : c = d := Stage.sweeping.inj (hstage.symm.trans hd')
          rw [hc] at hd
          obtain rfl := Option.some.inj hd
          exact hold.elim
        · intro r hr hl a ha _
          rcases h.excused pod hmem hrun r hr hl a ha with
            hsince | hhand | ⟨d, ph, hd', hd, hearly, -⟩
          · exact Or.inl hsince
          · exact Or.inr (Or.inl hhand)
          · obtain rfl : c = d := Stage.sweeping.inj (hstage.symm.trans hd')
            rw [hc] at hd
            obtain rfl := Option.some.inj hd
            exact absurd hearly (by simp)
      · exact h
    · exact h
    · exact h
  | cancel =>
    refine h.setPod hp (fun hrun => ?_) (fun c ph hc hold hstage => ⟨hstage, rfl⟩)
      fun r hr hl a ha hrun => h.excused pod hmem hrun r hr hl a ha
    exact { h.pods pod hmem hrun with }
  | leave =>
    rw [Loop.podStep]
    split
    · rename_i hready
      refine h.setPod hp (fun hrun => absurd rfl hrun) (fun c ph hc hold hstage => ?_)
        fun r hr hl a ha hrun => absurd rfl hrun
      rw [hready.1] at hstage
      exact absurd hstage (by simp)
    · exact h

theorem FleetInv.step (h : FleetInv cfg f) (hperiod : 0 < cfg.period) {a : Action}
    (ha : Prompt cfg f a) : FleetInv cfg (Loop.step cfg f a) := by
  cases a with
  | tick d => exact h.tick hperiod ha
  | other op => exact h.other hperiod op
  | join => exact h.join hperiod
  | pod p a =>
    rw [Loop.step]
    split
    · rename_i pod hp
      exact h.podStep hperiod hp ha
    · exact h

end Fleet

/-- A lease does not stay overdue.  Any number of pods run the loop, they start at
any time, are cancelled between two cycles and return, and the other writers do
what they like.  As long as the loops are prompt and no statement of theirs fails,
no loop has been running for eight intervals next to a lease that is overdue: a
lease that was overdue when the loop started is gone eight intervals after the
start, and any other one is gone eight intervals after it has become overdue.

A loop that is cancelled inside of `Sweep` is not covered: its next statement
fails, and the lease has to wait for another loop. -/
theorem recovered_in_time (cfg : RunConfig) (hperiod : 0 < cfg.period) (clock : Time)
    (as : List Action) (hprompt : AllSteps (step cfg) (Prompt cfg) (initial clock) as) :
    ∀ pod ∈ (reach cfg clock as).pods, pod.stage ≠ .returned →
      ∀ r ∈ (reach cfg clock as).server.tables.jobs, r.status = .leased →
        ∀ a, r.lockedAt = some a → (reach cfg clock as).server.clock ≤
          max (a + secondsInterval cfg.sweep.thresholdSeconds) pod.joined + 8 * cfg.period := by
  have hinit : FleetInv cfg (initial clock) :=
    ⟨Sweeper.reach_inv cfg.sweep clock [], by simp [KeyHeld, initial, Sweeper.initial],
      by simp [initial], by simp [initial, Sweeper.initial], by simp [initial]⟩
  have hinv : FleetInv cfg (reach cfg clock as) :=
    foldl_all (FleetInv cfg) (fun f a h hok => h.step hperiod hok) hinit hprompt
  intro pod hpod hrun r hr hl a ha
  exact hinv.clock_le hperiod (hinv.pods pod hpod hrun) (hinv.excused pod hpod hrun r hr hl a ha)

/-- A threshold of one second and the default interval. -/
def oneSecond : RunConfig := ⟨⟨1000000000⟩, 0⟩

/-- Two pods and a lease.  On the first tick the lease is overdue; the first pod
takes the lock, and the second one finds it taken. -/
def twoPods : List Action :=
  [.join, .join, .other (.snifferEnqueue ⟨"t", "/a", "/b", "localfs", "localfs"⟩),
    .other (.leaseJob "pod-w0" []), .tick 30000000, .pod 0 .cycle, .pod 0 (.statement .ok),
    .pod 0 (.statement .ok), .pod 1 .cycle, .pod 1 (.statement .ok), .pod 1 (.statement .ok),
    .pod 1 (.cycleDone false false), .tick 1000000]

/-- The lease of the two pods is overdue since thirty seconds, and the first pod is
about to recover it.  It is gone after 241 seconds at the latest. -/
theorem recovered_in_time_overdue :
    AllSteps (step oneSecond) (Prompt oneSecond) (initial 0) twoPods ∧
    ∃ pod ∈ (reach oneSecond 0 twoPods).pods, pod.stage = .sweeping 0 ∧
      ∃ r ∈ (reach oneSecond 0 twoPods).server.tables.jobs,
        expired (reach oneSecond 0 twoPods).server.clock oneSecond.sweep.thresholdSeconds r = true ∧
        (reach oneSecond 0 twoPods).server.clock ≤ 241000000 := by
  have hprompt : AllSteps (step oneSecond) (Prompt oneSecond) (initial 0) twoPods := by decide
  have hpod : (⟨⟨60000000, false⟩, .sweeping 0, false, 30000000, 0⟩ : Pod) ∈
      (reach oneSecond 0 twoPods).pods := by decide
  have hrow : (⟨1, "t", "/a", "/b", "localfs", "localfs", "{}", .leased, 0, 5, some 0,
      some "pod-w0", 0, 0, 0⟩ : JobRow) ∈
      (reach oneSecond 0 twoPods).server.tables.jobs := by decide
  exact ⟨hprompt, _, hpod, rfl, _, hrow, by decide,
    recovered_in_time oneSecond (by decide) 0 twoPods hprompt _ hpod (by decide) _ hrow rfl 0 rfl⟩

end ImgSync.Sweeper.Loop
