import ImgSync.Backoff.Wake
import ImgSync.Env.Vars
import ImgSync.Lib.Climb

/-!
# The schedule in 64 bits

The nominal delay of `backoff.Idle` over any sequence of `WaitOnce` and `WakeAll`
(`internal/backoff/backoff.go`).  `advance` jumps at three values, doubles all
others, and cuts off at `MaxDelay`.  A `time.Duration` is an `int64`, so the
doubling can wrap around; below `2 ^ 62` it does not.

Every jump is at least a doubling.  So one fact carries all the bounds: `advance`
takes a delay to its double or to `MaxDelay`, and never above
(`climbs_advance64`).  `nominal_reach` connects the schedule with the calls that
run side by side: each call that takes the mutex at its beginning is one
operation, in the order of the mutex.
-/

namespace ImgSync.Backoff

open ImgSync.Lib ImgSync.Env

/-- What changes the nominal delay. -/
inductive Op where
  | waitOnce
  | wakeAll
  deriving DecidableEq

/-- The `switch` of `advance`, in an `int64`. -/
def nextDelay64 (cfg : Config) (nominal : Int) : Int :=
  if nominal = 50000000 then 200000000
  else if nominal = 200000000 then 500000000
  else if nominal = 500000000 then 1000000000
  else if wrap64 (nominal * 2) > cfg.maxDelay then cfg.maxDelay
  else wrap64 (nominal * 2)

/-- `advance`, in an `int64`. -/
def advance64 (cfg : Config) (nominal : Int) : Int :=
  if nextDelay64 cfg nominal > cfg.maxDelay then cfg.maxDelay else nextDelay64 cfg nominal

/-- `i.nominal` behind the first section of `WaitOnce`, or the section of `WakeAll`. -/
def scheduleStep (cfg : Config) (nominal : Int) : Op → Int
  | .waitOnce => advance64 cfg nominal
  | .wakeAll => cfg.baseDelay

/-- `i.nominal` after the operations, from `NewIdle`. -/
def schedule (cfg : Config) (ops : List Op) : Int :=
  ops.foldl (scheduleStep (newIdle cfg)) (newIdle cfg).baseDelay

/-- The operation that a step of the calls is. -/
def Idle.op? (s : Idle) : Action → Option Op
  | .register i _ _ =>
    match s.waits i with
    | .before => some .waitOnce
    | _ => none
  | .detach j =>
    match s.wakes j with
    | .before => some .wakeAll
    | _ => none
  | _ => none

/-- The operations of a run, in the order of the mutex. -/
def opsOf (cfg : Config) (as : List Action) : List Op :=
  trace (step (newIdle cfg)) Idle.op? (Idle.init (newIdle cfg)) as

/-- The two ends of a schedule that does not overflow. -/
structure Config.InRange (cfg : Config) : Prop where
  base_pos : 0 < cfg.baseDelay
  base_le : cfg.baseDelay ≤ cfg.maxDelay
  max_lt : cfg.maxDelay < 2 ^ 62

/-- The nominal delay is between the two ends. -/
def Config.Allows (cfg : Config) (nominal : Int) : Prop :=
  cfg.baseDelay ≤ nominal ∧ nominal ≤ cfg.maxDelay

/-! ## One step -/

section Step

variable {cfg : Config} {nominal : Int}

/-- The doubling does not wrap around. -/
theorem wrap64_double (hpos : 0 < nominal) (hbound : nominal < 2 ^ 62) :
    wrap64 (nominal * 2) = nominal * 2 := by
  apply wrap64_of_fits
  constructor
  · omega
  · omega

theorem advance64_eq (hpos : 0 < nominal) (hbound : nominal < 2 ^ 62) :
    advance64 cfg nominal = advance cfg nominal := by
  unfold advance64 advance nextDelay64 nextDelay
  rw [wrap64_double hpos hbound]

/-- The `switch` at least doubles the delay, up to `MaxDelay`. -/
theorem le_nextDelay (cfg : Config) (nominal : Int) :
    min (2 * nominal) cfg.maxDelay ≤ nextDelay cfg nominal := by
  unfold nextDelay
  split
  · omega
  · split
    · omega
    · split
      · omega
      · split
        · omega
        · omega

theorem climbs_advance64 (hmax : cfg.maxDelay < 2 ^ 62) :
    Climbs cfg.maxDelay (advance64 cfg) where
  doubles := by
    intro nominal hpos hle
    rw [advance64_eq hpos (by omega)]
    have hnext := le_nextDelay cfg nominal
    unfold advance
    split
    · exact min_le_right _ _
    · exact hnext
  le_cap := by
    intro nominal hpos hle
    rw [advance64_eq hpos (by omega)]
    exact advance_le cfg nominal

theorem Config.InRange.pos (hcfg : cfg.InRange) (h : cfg.Allows nominal) : 0 < nominal :=
  hcfg.base_pos.trans_le h.1

/-- The number of doublings that is enough to reach `MaxDelay`. -/
theorem Config.InRange.le_doubled (hcfg : cfg.InRange) (h : cfg.Allows nominal) {k : Nat}
    (hk : nominal = cfg.maxDelay ∨ cfg.maxDelay ≤ cfg.baseDelay * 2 ^ k ∨ 62 ≤ k) :
    cfg.maxDelay ≤ nominal * 2 ^ k := by
  have hpos := hcfg.pos h
  have hpow : (1 : Int) ≤ 2 ^ k := one_le_pow₀ (by decide)
  rcases hk with hcap | hbase | hlong
  · rw [hcap]
    exact le_mul_of_one_le_right (hcfg.base_pos.le.trans hcfg.base_le) hpow
  · exact hbase.trans (mul_le_mul_of_nonneg_right h.1 (zero_le_one.trans hpow))
  · have hmax := hcfg.max_lt
    calc cfg.maxDelay ≤ 2 ^ 62 := hmax.le
      _ ≤ 2 ^ k := pow_le_pow_right₀ (by decide) hlong
      _ ≤ nominal * 2 ^ k := le_mul_of_one_le_left (zero_le_one.trans hpow) hpos

/-- A wait moves the nominal delay up, and a `WakeAll` takes it to the lower end. -/
theorem allows_scheduleStep (hcfg : cfg.InRange) (h : cfg.Allows nominal) (op : Op) :
    cfg.Allows (scheduleStep cfg nominal op) := by
  have hclimbs := climbs_advance64 hcfg.max_lt
  have hpos := hcfg.pos h
  cases op with
  | waitOnce => exact ⟨h.1.trans (hclimbs.le hpos h.2), hclimbs.le_cap nominal hpos h.2⟩
  | wakeAll => exact ⟨le_rfl, hcfg.base_le⟩

/-- A step of the calls changes the nominal delay by its operation. -/
theorem nominal_step (hcfg : cfg.InRange) (s : Idle) (h : cfg.Allows s.nominal) (a : Action) :
    (step cfg s a).nominal = (s.op? a).toList.foldl (scheduleStep cfg) s.nominal := by
  have hexact : advance cfg s.nominal = advance64 cfg s.nominal :=
    (advance64_eq (hcfg.pos h) (h.2.trans_lt hcfg.max_lt)).symm
  unfold step Idle.op?
  cases a with
  | register i draw spare =>
    dsimp only
    cases s.waits i with
    | before => exact hexact
    | _ => rfl
  | select i reason =>
    dsimp only
    split
    · split
      · rfl
      · rfl
      · split <;> rfl
    · rfl
  | evict i =>
    dsimp only
    split
    · exact s.evict_nominal i
    · rfl
  | detach j =>
    dsimp only
    cases s.wakes j with
    | _ => rfl
  | send j =>
    dsimp only
    split
    · split
      · exact (s.trySend_same _).1
      · rfl
    · rfl

end Step

/-! ## Runs -/

section Run

variable {cfg : Config} {ws : List Op}

/-- Without a `WakeAll` the schedule is `advance`, again and again. -/
theorem foldl_waits (cfg : Config) (hws : .wakeAll ∉ ws) (nominal : Int) :
    ws.foldl (scheduleStep cfg) nominal = (advance64 cfg)^[ws.length] nominal := by
  induction ws generalizing nominal with
  | nil => rfl
  | cons op ws ih =>
    rw [List.mem_cons, not_or] at hws
    cases op with
    | waitOnce =>
      rw [List.foldl_cons, ih hws.2, List.length_cons, Function.iterate_succ_apply]
      rfl
    | wakeAll => exact absurd rfl hws.1

theorem schedule_append (cfg : Config) (ops ws : List Op) :
    schedule cfg (ops ++ ws) = ws.foldl (scheduleStep (newIdle cfg)) (schedule cfg ops) :=
  List.foldl_append

theorem allows_schedule (hcfg : (newIdle cfg).InRange) (ops : List Op) :
    (newIdle cfg).Allows (schedule cfg ops) :=
  foldl_invariant (newIdle cfg).Allows (fun _ op h => allows_scheduleStep hcfg h op)
    ⟨le_rfl, hcfg.base_le⟩ ops

/-- The nominal delay of the calls is that of the schedule. -/
theorem nominal_reach (hcfg : (newIdle cfg).InRange) (as : List Action) :
    (reach cfg as).nominal = schedule cfg (opsOf cfg as) := by
  refine foldl_trace (fun s : Idle => (newIdle cfg).Allows s.nominal) ?_ ⟨le_rfl, hcfg.base_le⟩ as
  intro s a h
  have hstep := nominal_step hcfg s h a
  refine ⟨?_, hstep⟩
  rw [hstep]
  exact foldl_invariant (newIdle cfg).Allows (fun _ op h => allows_scheduleStep hcfg h op) h _

end Run

/-- The schedule, for every sequence of `WaitOnce` and `WakeAll`, in an `int64`.
The nominal delay is between `BaseDelay` and `MaxDelay`.  Without a `WakeAll` it
never goes down; a wait takes it up, unless it is `MaxDelay`, which it keeps.  It
gets there with the waits that doubling would take, and with 62 in any case.  A
`WakeAll` restores `BaseDelay`.  The nominal delay of calls that run side by side
is that of their operations, in the order of the mutex. -/
theorem idle_schedule (cfg : Config)
    (hle : (newIdle cfg).baseDelay ≤ (newIdle cfg).maxDelay)
    (hmax : (newIdle cfg).maxDelay < 2 ^ 62) :
    (∀ ops : List Op,
      ((newIdle cfg).baseDelay ≤ schedule cfg ops ∧ schedule cfg ops ≤ (newIdle cfg).maxDelay) ∧
      (∀ ws : List Op, .wakeAll ∉ ws → schedule cfg ops ≤ schedule cfg (ops ++ ws)) ∧
      (schedule cfg ops ≠ (newIdle cfg).maxDelay →
        schedule cfg ops < schedule cfg (ops ++ [.waitOnce])) ∧
      (∀ ws : List Op, .wakeAll ∉ ws →
        schedule cfg ops = (newIdle cfg).maxDelay ∨
          (newIdle cfg).maxDelay ≤ (newIdle cfg).baseDelay * 2 ^ ws.length ∨ 62 ≤ ws.length →
        schedule cfg (ops ++ ws) = (newIdle cfg).maxDelay) ∧
      schedule cfg (ops ++ [.wakeAll]) = (newIdle cfg).baseDelay) ∧
    ∀ as : List Action, (reach cfg as).nominal = schedule cfg (opsOf cfg as) := by
  have hcfg : (newIdle cfg).InRange := ⟨(newIdle_pos cfg).1, hle, hmax⟩
  have hclimbs := climbs_advance64 hmax
  refine ⟨?_, nominal_reach hcfg⟩
  intro ops
  have hops := allows_schedule hcfg ops
  have hpos := hcfg.pos hops
  have hwaits : ∀ ws : List Op, .wakeAll ∉ ws → schedule cfg (ops ++ ws) =
      (advance64 (newIdle cfg))^[ws.length] (schedule cfg ops) := by
    intro ws hws
    rw [schedule_append, foldl_waits _ hws]
  refine ⟨hops, ?_, ?_, ?_, ?_⟩
  · intro ws hws
    rw [hwaits ws hws]
    exact (hclimbs.iterate_mem hpos hops.2 ws.length).1
  · intro hne
    rw [schedule_append]
    exact hclimbs.lt hpos (lt_of_le_of_ne hops.2 hne)
  · intro ws hws hlong
    rw [hwaits ws hws]
    exact hclimbs.iterate_eq_cap hpos hops.2 (hcfg.le_doubled hops hlong)
  · rw [schedule_append]
    rfl

def shortIdle : Config where
  baseDelay := 10000000
  maxDelay := 40000000

/-- From 10 ms to 40 ms in five waits. -/
theorem idle_schedule_short :
    schedule shortIdle [.waitOnce] = 20000000 ∧
    schedule shortIdle (List.replicate 5 .waitOnce) = 40000000 := by
  refine ⟨by decide, ?_⟩
  obtain ⟨hops, -⟩ := idle_schedule shortIdle (by decide) (by decide)
  exact (hops []).2.2.2.1 (List.replicate 5 .waitOnce) (by decide) (Or.inr (Or.inl (by decide)))

/-- With a `MaxDelay` of `2 ^ 62` the doubling wraps around. -/
example : schedule ⟨2 ^ 62, 2 ^ 62⟩ [.waitOnce] = -2 ^ 63 := by decide

end ImgSync.Backoff
