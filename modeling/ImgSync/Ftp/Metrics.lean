import ImgSync.Ftp.Capacity
import ImgSync.Lib.Board

/-!
# The metrics of the pool

`Acquire` and `release` call `OnPoolChange(host, inUse, idle)` after every
change of the two numbers (`internal/transports/ftp/pool.go`).  The numbers are
read under the mutex, and the callback runs after the unlock.

`Metered` is an open pool with the callbacks that are still to run.  A
goroutine that owes a callback does nothing else before it.

* `counts_callStep`: a section that changes the numbers reads them at its end.
* `Metered.Fresh`: so the newest reading is what the host has, until a newer
  callback overtakes an older one.
* `pool_metrics` and `pool_metrics_stale`: without overtaking the last callback
  is right when none is under way, and with it the older numbers may stay.
-/

namespace ImgSync.Ftp

open ImgSync.Lib

/-- The arguments of `OnPoolChange`. -/
def Host.counts (s : Host) : Int × Nat := (s.inUse, s.idle.length)

/-- Whether the section of a step ends with a snapshot for `OnPoolChange`. -/
def Host.snaps (cfg : PoolConfig) (closed : Bool) (s : Host) (ph : Phase) : CallStep → Bool
  | .enter clock =>
    match ph with
    | .entering | .woken =>
      !closed && ((scanIdle cfg clock s.idle.reverse).2.1.isSome ||
        decide (s.inUse < cfg.maxPerHost))
    | _ => false
  | .unwind =>
    match ph with
    | .noopFailed | .dialFailed => true
    | _ => false
  | .release _ _ =>
    match ph with
    | .holding _ => s.created
    | _ => false
  | _ => false

/-- An open pool, and for every host the callbacks that are owed by the calls
and the one that ran last. -/
structure Metered where
  pool : Pool
  boards : String → Board Nat (Int × Nat)

inductive MeterAction where
  /-- A new call of `Acquire`. -/
  | acquire (host : String)
  /-- A step of the call number `i`. -/
  | call (host : String) (i : Nat) (st : CallStep)
  /-- The callback of the call number `i` runs. -/
  | onPoolChange (host : String) (i : Nat)

def Metered.init : Metered where
  pool := Pool.init
  boards := fun _ => .empty

def meterStep (cfg : PoolConfig) (s : Metered) : MeterAction → Metered
  | .acquire host => { s with pool := step cfg s.pool (.onHost host .acquire) }
  | .call host i st =>
    match (s.pool.hosts host).calls[i]? with
    | none => s
    | some ph =>
      -- The goroutine is still in its callback.
      if i ∈ (s.boards host).owners then s
      else
        let pool := step cfg s.pool (.onHost host (.call i st))
        if (s.pool.hosts host).snaps cfg s.pool.closed ph st then
          { pool := pool
            boards := Function.update s.boards host
              ((s.boards host).take i (pool.hosts host).counts) }
        else { s with pool := pool }
  | .onPoolChange host i =>
    { s with boards := Function.update s.boards host ((s.boards host).publish i) }

/-- The state that a run reaches; `cfg` is the configuration before the defaults
of `NewPool`. -/
def meterReach (cfg : PoolConfig) (as : List MeterAction) : Metered :=
  as.foldl (meterStep (newPool cfg)) Metered.init

/-- The step runs the newest callback of the host while an older one is still
owed. -/
def Metered.overtakes (host : String) (s : Metered) : MeterAction → Bool
  | .onPoolChange host' i => host' == host && (s.boards host).overtakes i
  | _ => false

/-! ## What a section does to the numbers -/

section Counts

variable {cfg : PoolConfig} {closed : Bool} {s : Host} {i : Nat} {ph : Phase}

@[simp]
theorem wakeOneWaiter_counts (s : Host) : s.wakeOneWaiter.counts = s.counts := by
  unfold Host.wakeOneWaiter
  split <;> rfl

@[simp]
theorem evict_counts (s : Host) (ch : Nat) : (s.evict ch).counts = s.counts := by
  unfold Host.evict
  split
  · split
    · rfl
    · exact wakeOneWaiter_counts _
  · rfl

/-- A call that has to wait finds nothing idle, so it drops nothing. -/
theorem counts_enter (hcap : Capacity cfg.maxPerHost closed s) {clock : Nat → Int}
    (hsnap : (!closed && ((scanIdle cfg clock s.idle.reverse).2.1.isSome ||
      decide (s.inUse < cfg.maxPerHost))) = false) :
    (s.enter cfg closed clock i).counts = s.counts := by
  unfold Host.enter
  split
  · rfl
  · rename_i hopen
    simp only [Bool.eq_false_of_not_eq_true hopen, Bool.not_false, Bool.true_and,
      Bool.or_eq_false_iff, decide_eq_false_iff_not, not_lt] at hsnap
    have hidle : s.idle = [] := by
      have hroom := hcap.cap
      exact List.length_eq_zero_iff.mp (by omega)
    rw [hidle]
    show Host.counts (if s.inUse < cfg.maxPerHost then _ else _) = _
    rw [if_neg (not_lt.mpr hsnap.2)]
    simp [Host.counts, hidle]

/-- A step without a snapshot leaves the two numbers alone. -/
theorem counts_callStep (hcap : Capacity cfg.maxPerHost closed s) {st : CallStep}
    (hsnap : s.snaps cfg closed ph st = false) :
    (s.callStep cfg closed i ph st).counts = s.counts := by
  cases st with
  | enter clock => cases ph <;> first | rfl | exact counts_enter hcap hsnap
  | noop ok | dial ok | login ok => cases ph <;> first | rfl | (cases ok <;> rfl)
  | unwind => cases ph <;> first | rfl | cases hsnap
  | take =>
    cases ph with
    | parked ch =>
      show Host.counts (if ch ∈ s.tokens then _ else s) = _
      split <;> rfl
    | _ => rfl
  | cancel => cases ph <;> rfl
  | evict => cases ph <;> first | rfl | exact evict_counts _ _
  | release broken now =>
    cases ph with
    | holding c =>
      have hcr : s.created = false := hsnap
      show (Host.release closed now c broken (s.setCall i .done)).counts = _
      unfold Host.release
      rw [if_neg (by simp [Host.setCall, hcr])]
      rfl
    | _ => rfl

end Counts

/-! ## Runs -/

section Runs

variable {cfg : PoolConfig} {s : Metered} {host : String}

/-- The newest snapshot of the host has its present numbers.  Without a
snapshot the host is as it was at the start. -/
def Metered.Fresh (s : Metered) (host : String) : Prop :=
  (s.boards host).newest = some (s.pool.hosts host).counts ∨
    (s.boards host).newest = none ∧ (s.pool.hosts host).counts = (0, 0)

theorem Metered.Fresh.congr {s' : Metered} (h : s.Fresh host)
    (hnewest : (s'.boards host).newest = (s.boards host).newest)
    (hcounts : (s'.pool.hosts host).counts = (s.pool.hosts host).counts) : s'.Fresh host := by
  unfold Metered.Fresh
  rw [hnewest, hcounts]
  exact h

/-- A step at another host. -/
theorem hosts_step_of_ne {p : Pool} {host' : String} (hne : host ≠ host') (a : HostAction) :
    (step cfg p (.onHost host' a)).hosts host = p.hosts host :=
  Function.update_of_ne hne ..

theorem Metered.Fresh.call (h : s.Fresh host) (hcap : PoolCapacity cfg s.pool) (host' : String)
    (i : Nat) (st : CallStep) : (meterStep cfg s (.call host' i st)).Fresh host := by
  simp only [meterStep]
  split
  · exact h
  · rename_i ph hi
    split
    · exact h
    by_cases heq : host = host'
    · subst heq
      have hhost : (step cfg s.pool (.onHost host (.call i st))).hosts host =
          (s.pool.hosts host).callStep cfg s.pool.closed i ph st :=
        (Function.update_self ..).trans (Host.step_call hi st)
      split
      · left
        show (Function.update s.boards host _ host).newest = _
        rw [Function.update_self, Board.newest_take]
      · rename_i hsnap
        refine h.congr rfl ?_
        rw [hhost]
        exact counts_callStep (hcap host) (Bool.eq_false_of_not_eq_true hsnap)
    · have hhost : (step cfg s.pool (.onHost host' (.call i st))).hosts host = s.pool.hosts host :=
        hosts_step_of_ne heq _
      split
      · exact h.congr (congrArg _ (Function.update_of_ne heq ..)) (congrArg _ hhost)
      · exact h.congr rfl (congrArg _ hhost)

theorem Metered.Fresh.onPoolChange (h : s.Fresh host) {host' : String} {i : Nat}
    (horder : s.overtakes host (.onPoolChange host' i) = false) :
    (meterStep cfg s (.onPoolChange host' i)).Fresh host := by
  refine h.congr ?_ rfl
  by_cases heq : host = host'
  · subst heq
    simp only [Metered.overtakes, beq_self_eq_true, Bool.true_and] at horder
    show (Function.update s.boards host _ host).newest = _
    rw [Function.update_self, Board.newest_publish horder]
  · exact congrArg _ (Function.update_of_ne heq ..)

theorem Metered.Fresh.acquire (h : s.Fresh host) (host' : String) :
    (meterStep cfg s (.acquire host')).Fresh host := by
  refine h.congr rfl ?_
  by_cases heq : host = host'
  · subst heq
    show (Function.update s.pool.hosts host _ host).counts = _
    rw [Function.update_self]
    rfl
  · exact congrArg _ (hosts_step_of_ne heq .acquire)

theorem capacity_meterStep (hcap : PoolCapacity cfg s.pool) (a : MeterAction) :
    PoolCapacity cfg (meterStep cfg s a).pool := by
  cases a with
  | acquire host => exact hcap.step _
  | call host i st =>
    simp only [meterStep]
    split
    · exact hcap
    split
    · exact hcap
    split
    · exact hcap.step _
    · exact hcap.step _
  | onPoolChange host i => exact hcap

theorem meterReach_fresh {as : List MeterAction}
    (horder : AllSteps (meterStep (newPool cfg)) (fun s a => s.overtakes host a = false)
      Metered.init as) : (meterReach cfg as).Fresh host := by
  refine (foldl_all (fun s : Metered => PoolCapacity (newPool cfg) s.pool ∧ s.Fresh host) ?_
    ⟨fun _ => capacity_init (newPool_maxPerHost_pos cfg).le, Or.inr ⟨rfl, rfl⟩⟩ horder).2
  rintro s a ⟨hcap, hfresh⟩ hok
  refine ⟨capacity_meterStep hcap a, ?_⟩
  cases a with
  | acquire host' => exact hfresh.acquire host'
  | call host' i st => exact hfresh.call hcap host' i st
  | onPoolChange host' i => exact hfresh.onPoolChange hok

end Runs

/-- The metrics of a host, for any interleaving of calls on an open pool: if the
newest callback never overtakes an older one of the host, the last callback has
reported the numbers that the host has whenever none is under way. -/
theorem pool_metrics (cfg : PoolConfig) (as : List MeterAction) (host : String)
    (horder : ∀ before a after, as = before ++ a :: after →
      (meterReach cfg before).overtakes host a = false)
    (hquiet : ((meterReach cfg as).boards host).owed = []) {counts : Int × Nat}
    (hlast : ((meterReach cfg as).boards host).shown = some counts) :
    counts = (((meterReach cfg as).pool.hosts host).inUse,
      ((meterReach cfg as).pool.hosts host).idle.length) := by
  have hfresh : (meterReach cfg as).Fresh host := meterReach_fresh (allSteps_iff.mpr horder)
  unfold Metered.Fresh at hfresh
  rw [Board.newest_of_owed_nil hquiet, hlast] at hfresh
  rcases hfresh with hsome | ⟨hnone, -⟩
  · exact Option.some.inj hsome
  · cases hnone

/-- Two calls at once, and a release.  The callbacks run in the order of the sections
that they report. -/
def orderedCalls : List MeterAction :=
  [.acquire "h", .acquire "h", .call "h" 0 (.enter fun _ => 0), .call "h" 1 (.enter fun _ => 0),
    .onPoolChange "h" 0, .onPoolChange "h" 1, .call "h" 0 (.dial true), .call "h" 0 (.login true),
    .call "h" 1 (.dial true), .call "h" 1 (.login true), .call "h" 0 (.release false 0),
    .onPoolChange "h" 0]

/-- One connection is in use and one is idle, and the last callback has said so. -/
theorem pool_metrics_ordered_calls :
    ((meterReach ⟨2, 0, 0⟩ orderedCalls).boards "h").shown = some (1, 1) ∧
    (1, 1) = (((meterReach ⟨2, 0, 0⟩ orderedCalls).pool.hosts "h").inUse,
      ((meterReach ⟨2, 0, 0⟩ orderedCalls).pool.hosts "h").idle.length) := by
  have hsteps : AllSteps (meterStep (newPool ⟨2, 0, 0⟩)) (fun s a => s.overtakes "h" a = false)
      Metered.init orderedCalls := by
    simp only [orderedCalls, AllSteps]
    decide
  exact ⟨by decide, pool_metrics _ _ _ (allSteps_iff.mp hsteps) (by decide) (by decide)⟩

/-- Two calls at once.  The callback of the first runs after that of the
second. -/
def twoCalls : List MeterAction :=
  [.acquire "h", .acquire "h", .call "h" 0 (.enter fun _ => 0), .call "h" 1 (.enter fun _ => 0),
    .onPoolChange "h" 1, .onPoolChange "h" 0, .call "h" 0 (.dial true), .call "h" 0 (.login true),
    .call "h" 1 (.dial true), .call "h" 1 (.login true)]

/-- Both connections are in use, no callback is under way, and the last one has
reported one connection. -/
theorem pool_metrics_stale :
    ((meterReach ⟨2, 0, 0⟩ twoCalls).pool.hosts "h").calls = [.holding 0, .holding 1] ∧
    ((meterReach ⟨2, 0, 0⟩ twoCalls).boards "h").owed = [] ∧
    ((meterReach ⟨2, 0, 0⟩ twoCalls).pool.hosts "h").inUse = 2 ∧
    ((meterReach ⟨2, 0, 0⟩ twoCalls).boards "h").shown = some (1, 0) := by
  decide

end ImgSync.Ftp
