import Mathlib.Tactic

/-!
# The idle backoff schedule

`backoff.Idle` (`internal/backoff/backoff.go`) keeps one nominal delay for all
workers of a pod.  A wait takes the nominal delay with a jitter of a quarter
to either side, and moves the schedule one step towards `MaxDelay`.

Durations are in nanoseconds.  They stay below `2 ^ 62`, where the doubling of
the schedule does not overflow.
-/

namespace ImgSync.Backoff

/-- `backoff.Config`. -/
structure Config where
  baseDelay : Int
  maxDelay : Int
  deriving DecidableEq, Repr

/-- The defaults of `NewIdle`. -/
def newIdle (cfg : Config) : Config where
  baseDelay := if cfg.baseDelay ≤ 0 then 50000000 else cfg.baseDelay
  maxDelay := if cfg.maxDelay ≤ 0 then 1000000000 else cfg.maxDelay

/-- The canonical steps of the schedule, and doubling everywhere else. -/
def nextDelay (cfg : Config) (nominal : Int) : Int :=
  if nominal = 50000000 then 200000000
  else if nominal = 200000000 then 500000000
  else if nominal = 500000000 then 1000000000
  else if nominal * 2 > cfg.maxDelay then cfg.maxDelay
  else nominal * 2

/-- `advance`: the next nominal delay. -/
def advance (cfg : Config) (nominal : Int) : Int :=
  if nextDelay cfg nominal > cfg.maxDelay then cfg.maxDelay else nextDelay cfg nominal

/-- `jitter`.  `rng.Float64()` answers `draw / 2 ^ 53`.  The source multiplies in
`float64`, where the offset may round to a neighbouring nanosecond; the product is exact
here.  The rounding is monotone, so for a delay below `2 ^ 53` it leaves the offset
within a quarter of the delay as well. -/
def jitter (draw : Fin (2 ^ 53)) (d : Int) : Int :=
  if d ≤ 0 then 0 else d + ((2 * (draw : Int) - 2 ^ 53) * d).tdiv (2 ^ 55)

/-- The longest nominal delay.  `NewIdle` does not compare the two fields, so
the first wait may be longer than `MaxDelay`. -/
def Config.longest (cfg : Config) : Int := max cfg.baseDelay cfg.maxDelay

theorem newIdle_pos (cfg : Config) : 0 < (newIdle cfg).baseDelay ∧ 0 < (newIdle cfg).maxDelay := by
  simp only [newIdle]
  constructor
  · split <;> omega
  · split <;> omega

theorem advance_le (cfg : Config) (nominal : Int) : advance cfg nominal ≤ cfg.maxDelay := by
  unfold advance
  split <;> omega

theorem advance_pos {cfg : Config} (hmax : 0 < cfg.maxDelay) {nominal : Int} (h : 0 < nominal) :
    0 < advance cfg nominal := by
  have hnext : 0 < nextDelay cfg nominal := by
    unfold nextDelay
    repeat' split
    all_goals omega
  unfold advance
  split <;> omega

/-- The jitter moves a delay by at most a quarter. -/
theorem jitter_bounds (draw : Fin (2 ^ 53)) {d : Int} (hd : 0 < d) :
    d - d / 4 ≤ jitter draw d ∧ jitter draw d ≤ d + d / 4 := by
  unfold jitter
  rw [if_neg (by omega)]
  have hdraw := draw.isLt
  set k : Int := 2 * (draw : Int) - 2 ^ 53 with hk
  have hlow : -(2 ^ 53) * d ≤ k * d := Int.mul_le_mul_of_nonneg_right (by omega) hd.le
  have hhigh : k * d ≤ 2 ^ 53 * d := Int.mul_le_mul_of_nonneg_right (by omega) hd.le
  rcases le_total 0 (k * d) with hsign | hsign
  · rw [Int.tdiv_eq_ediv_of_nonneg hsign]
    omega
  · have hneg : (k * d).tdiv (2 ^ 55) = -(-(k * d) / 2 ^ 55) := by
      rw [← Int.tdiv_eq_ediv_of_nonneg (by omega), Int.neg_tdiv, neg_neg]
    rw [hneg]
    omega

/-- A wait takes at most five quarters of the longest delay. -/
theorem jitter_le {cfg : Config} (draw : Fin (2 ^ 53)) {d : Int} (hd : 0 < d)
    (hle : d ≤ cfg.longest) : jitter draw d ≤ cfg.longest + cfg.longest / 4 := by
  have hbound := (jitter_bounds draw hd).2
  omega

end ImgSync.Backoff
