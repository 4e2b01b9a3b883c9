import ImgSync.Env.Vars
import ImgSync.Queue.Enqueue
import ImgSync.Worker.Process

/-!
# The delay of a retry

`retryBackoff` (`internal/worker/errdetail.go`) waits `2 ^ attempts` seconds, a
quarter more or less.  The power is a shift of an `int64`, and the result is a
count of nanoseconds in an `int64` as well.  `MaxAttempts` has no upper bound but
its column, so the count can get too large in three ways.

* From 34 attempts on the delay is longer than an `int64` can say; with 33 it
  depends on the jitter.
* With 63 attempts the shift reaches the sign.
* From 64 attempts on the shift gives zero, and the job is due at once.

`inBand_iff` says that nothing else goes wrong.  The arithmetic is exact; the
source computes with `float64` values.
-/

namespace ImgSync.Worker

open ImgSync.Queue ImgSync.Env

/-- `int64(1) << attempts`. -/
def oneShl (attempts : Nat) : Int := wrap64 (2 ^ attempts)

/-- `retryBackoff` in nanoseconds; `none` is a result that is no `int64`.
`backoffRNG.Float64()` answers `draw / 2 ^ 53`. -/
def retryBackoff (draw : Fin (2 ^ 53)) (attempts : Nat) : Option Int :=
  let nominal := oneShl attempts * 1000000000
  let delay := (nominal * 2 ^ 55 + (2 * (draw : Int) - 2 ^ 53) * nominal).tdiv (2 ^ 55)
  if Fits delay then some delay else none

/-- `Duration.Milliseconds`. -/
def milliseconds (d : Int) : Int := d.tdiv 1000000

/-- The result is between three and five quarters of `2 ^ a` seconds. -/
def InBand (a : Nat) (delay : Option Int) : Prop :=
  ∃ d, delay = some d ∧ 3 * (2 ^ a * 1000000000) ≤ 4 * d ∧ 4 * d ≤ 5 * (2 ^ a * 1000000000)

theorem oneShl_eq {a : Nat} (ha : a ≤ 62) : oneShl a = 2 ^ a := by
  have hpow : (2 : Int) ^ a ≤ 2 ^ 62 := pow_le_pow_right₀ (by decide) ha
  have hpos : (0 : Int) < 2 ^ a := by positivity
  apply wrap64_of_fits
  unfold Fits
  omega

theorem oneShl_zero {a : Nat} (ha : 64 ≤ a) : oneShl a = 0 := by
  have hdvd : (18446744073709551616 : Int) ∣ 2 ^ a := by
    have hpow : (2 : Int) ^ 64 ∣ 2 ^ a := pow_dvd_pow 2 ha
    simpa using hpow
  unfold oneShl wrap64
  rw [Int.bmod_eq_emod_of_lt]
  · exact Int.emod_eq_zero_of_dvd hdvd
  · have hmod : (2 : Int) ^ a % 18446744073709551616 = 0 := Int.emod_eq_zero_of_dvd hdvd
    simp [hmod]

/-- The delay of a nominal delay of `4 * m`, with the jitter in units of
`m / 2 ^ 52`. -/
theorem delay_eq (m : Int) (draw : Int) :
    4 * m * 2 ^ 55 + (2 * draw - 2 ^ 53) * (4 * m) = 3 * m * 2 ^ 55 + 8 * (m * draw) := by
  ring

theorem retryBackoff_of_nominal {a : Nat} {m : Int} (hm : 0 ≤ m)
    (hnominal : oneShl a * 1000000000 = 4 * m) (draw : Fin (2 ^ 53)) :
    ∃ d, 3 * m ≤ d ∧ d ≤ 5 * m ∧
      (d ≤ 9223372036854775807 ↔ 3 * m * 2 ^ 55 + 8 * (m * draw) < 2 ^ 118) ∧
      retryBackoff draw a = if d ≤ 9223372036854775807 then some d else none := by
  have hdraw : (draw : Int) < 2 ^ 53 := by exact_mod_cast draw.isLt
  have hlow : 0 ≤ m * (draw : Int) := Int.mul_nonneg hm (Int.natCast_nonneg _)
  have hhigh : m * (draw : Int) ≤ m * 2 ^ 53 := Int.mul_le_mul_of_nonneg_left hdraw.le hm
  have hdiv : (3 * m * 2 ^ 55 + 8 * (m * (draw : Int))).tdiv (2 ^ 55) =
      (3 * m * 2 ^ 55 + 8 * (m * (draw : Int))) / 2 ^ 55 :=
    Int.tdiv_eq_ediv_of_nonneg (by omega)
  refine ⟨(3 * m * 2 ^ 55 + 8 * (m * (draw : Int))) / 2 ^ 55, by omega, by omega, by omega, ?_⟩
  simp only [retryBackoff, hnominal, delay_eq, hdiv]
  refine if_congr ?_ rfl rfl
  unfold Fits
  constructor
  · exact fun h => h.2
  · intro h
    exact ⟨by omega, h⟩

/-- The delay has its size exactly as long as it fits. -/
theorem inBand_iff_fits {a : Nat} (ha : 1 ≤ a) (hle : a ≤ 62) (draw : Fin (2 ^ 53)) :
    InBand a (retryBackoff draw a) ↔
      2 ^ a * 1000000000 * (3 * 2 ^ 53 + 2 * (draw : Int)) < 2 ^ 118 := by
  obtain ⟨b, rfl⟩ : ∃ b, a = b + 1 := ⟨a - 1, by omega⟩
  have hpow : (2 : Int) ^ (b + 1) = 2 * 2 ^ b := by rw [pow_succ, mul_comm]
  have hpos : (0 : Int) ≤ 2 ^ b := by positivity
  have hnominal : oneShl (b + 1) * 1000000000 = 4 * (2 ^ b * 500000000) := by
    rw [oneShl_eq hle, hpow]
    ring
  obtain ⟨d, hlow, hhigh, hfits, heq⟩ := retryBackoff_of_nominal (by omega) hnominal draw
  have hsum : 2 ^ (b + 1) * 1000000000 * (3 * 2 ^ 53 + 2 * (draw : Int)) =
      3 * (2 ^ b * 500000000) * 2 ^ 55 + 8 * (2 ^ b * 500000000 * (draw : Int)) := by
    rw [hpow]
    ring
  rw [hsum, ← hfits, heq]
  constructor
  · rintro ⟨d', hd', -⟩
    by_contra hlarge
    rw [if_neg hlarge] at hd'
    cases hd'
  · intro hd
    exact ⟨d, if_pos hd, by omega, by omega⟩

/-- A shift that has reached the sign, or lost its bit, gives no delay. -/
theorem retryBackoff_nonpos {a : Nat} (ha : oneShl a ≤ 0) {draw : Fin (2 ^ 53)} {d : Int}
    (hd : retryBackoff draw a = some d) : d ≤ 0 := by
  have hdelay : oneShl a * 1000000000 * 2 ^ 55 +
      (2 * (draw : Int) - 2 ^ 53) * (oneShl a * 1000000000) =
        -(-oneShl a * (1000000000 * (3 * 2 ^ 53 + 2 * (draw : Int)))) := by ring
  have hprod : 0 ≤ -oneShl a * (1000000000 * (3 * 2 ^ 53 + 2 * (draw : Int))) :=
    Int.mul_nonneg (by omega) (by omega)
  simp only [retryBackoff, hdelay, Int.neg_tdiv] at hd
  obtain ⟨-, hd⟩ := Option.ite_none_right_eq_some.mp hd
  rw [← Option.some.inj hd, Int.neg_nonpos_iff]
  exact Int.tdiv_nonneg hprod (by decide)

theorem not_inBand_of_shift {a : Nat} (ha : 63 ≤ a) (draw : Fin (2 ^ 53)) :
    ¬InBand a (retryBackoff draw a) := by
  have hshl : oneShl a ≤ 0 := by
    rcases Nat.eq_or_lt_of_le ha with rfl | hlt
    · decide
    · exact (oneShl_zero hlt).le
  have hpos : (0 : Int) < 2 ^ a := by positivity
  rintro ⟨d, hd, hlow, -⟩
  have hneg := retryBackoff_nonpos hshl hd
  omega

/-- Up to 32 attempts every delay has its size, and with 33 attempts those
whose jitter is not too large. -/
theorem inBand_iff {a : Nat} (ha : 1 ≤ a) (draw : Fin (2 ^ 53)) :
    InBand a (retryBackoff draw a) ↔
      a ≤ 32 ∨ a = 33 ∧ 1000000000 * (3 * 2 ^ 53 + 2 * (draw : Int)) < 2 ^ 85 := by
  have hdraw : (draw : Int) < 2 ^ 53 := by exact_mod_cast draw.isLt
  have hnonneg : (0 : Int) ≤ draw := Int.natCast_nonneg _
  by_cases hshift : 63 ≤ a
  · exact iff_of_false (not_inBand_of_shift hshift draw) (by omega)
  rw [inBand_iff_fits ha (by omega)]
  -- The jitter factor is between 3 and 5 times `2 ^ 53`.
  set k : Int := 1000000000 * (3 * 2 ^ 53 + 2 * (draw : Int)) with hk
  rw [mul_assoc, ← hk]
  rcases Nat.lt_trichotomy a 33 with hlt | rfl | hgt
  · have hpow : (2 : Int) ^ a ≤ 2 ^ 32 := pow_le_pow_right₀ (by decide) (by omega)
    have hmul : 2 ^ a * k ≤ 2 ^ 32 * k := Int.mul_le_mul_of_nonneg_right hpow (by omega)
    exact iff_of_true (by omega) (Or.inl (by omega))
  · omega
  · have hpow : (2 : Int) ^ 34 ≤ 2 ^ a := pow_le_pow_right₀ (by decide) hgt
    have hmul : 2 ^ 34 * k ≤ 2 ^ a * k := Int.mul_le_mul_of_nonneg_right hpow (by omega)
    exact iff_of_false (by omega) (by omega)

/-- A retry whose delay has its size is due later than now. -/
theorem InBand.due_later {a : Nat} {draw : Fin (2 ^ 53)} (ha : 1 ≤ a)
    (h : InBand a (retryBackoff draw a)) {d : Int} (hd : retryBackoff draw a = some d) :
    0 < d ∧ 0 < milliseconds d := by
  obtain ⟨d', hd', hlow, -⟩ := h
  obtain rfl := Option.some.inj (hd.symm.trans hd')
  have hpow : (2 : Int) ^ 1 ≤ 2 ^ a := pow_le_pow_right₀ (by decide) ha
  have hpos : 0 < d := by omega
  refine ⟨hpos, ?_⟩
  rw [milliseconds, Int.tdiv_eq_ediv_of_nonneg hpos.le]
  omega

/-- The delay of a retry.  It has its size exactly up to 32 attempts, or with
33 attempts and a jitter that is not too large; the job is then due again later
than now. -/
theorem retry_delay (job : Job) {a : Nat} (ha : 1 ≤ a) (hjob : job.attempts + 1 = a)
    (hmax : (a : Int) < job.maxAttempts) (draw : Fin (2 ^ 53)) :
    (InBand a (retryBackoff draw a) ↔
      a ≤ 32 ∨ a = 33 ∧ 1000000000 * (3 * 2 ^ 53 + 2 * (draw : Int)) < 2 ^ 85) ∧
    (InBand a (retryBackoff draw a) → ∀ d, retryBackoff draw a = some d → 0 < d ∧
      ∀ detail now row,
        (writeRetryOrDead job detail (milliseconds d)).event = .fail ∧
        now < ((writeRetryOrDead job detail (milliseconds d)).set now row).nextRunAt) := by
  refine ⟨inBand_iff ha draw, fun hband d hd => ?_⟩
  obtain ⟨hpos, hms⟩ := hband.due_later ha hd
  refine ⟨hpos, fun detail now row => ?_⟩
  have hretry : writeRetryOrDead job detail (milliseconds d) =
      .retry job (job.attempts + 1) (milliseconds d) detail := by
    rw [writeRetryOrDead]
    exact if_neg (by omega)
  rw [hretry]
  exact ⟨rfl, Int.lt_add_of_pos_right now (Int.mul_pos hms (by decide))⟩

/-- Arguments of `Enqueue` for a job with a hundred attempts. -/
def patientArgs : EnqueueArgs := ⟨"t", "/src", "/dst", "localfs", "localfs", "", 100⟩

/-- The row of that job after so many attempts. -/
def patientJob (attempts : Int) : Job where
  id := 1
  traceId := "t"
  src := "/src"
  dst := "/dst"
  srcProtocol := "localfs"
  dstProtocol := "localfs"
  payload := "{}"
  status := .leased
  attempts := attempts
  maxAttempts := 100
  lockedAt := some 0
  lockedBy := some "pod-w0"
  nextRunAt := 0
  createdAt := 0
  updatedAt := 0

/-- The first retry of that job, with the least jitter, waits one and a half
seconds. -/
theorem retry_delay_first :
    retryBackoff 0 1 = some 1500000000 ∧ InBand 1 (retryBackoff 0 1) ∧
    (0 : Int) < ((writeRetryOrDead (patientJob 0) (.fields []) 1500).set 0
      (patientJob 0)).nextRunAt := by
  have hdelay : retryBackoff 0 1 = some 1500000000 := by decide
  obtain ⟨hiff, hdue⟩ := retry_delay (patientJob 0) (a := 1) le_rfl rfl (by decide) 0
  have hband := hiff.mpr (Or.inl (by decide))
  exact ⟨hdelay, hband, ((hdue hband _ hdelay).2 (.fields []) 0 (patientJob 0)).2⟩

/-- `Enqueue` takes a hundred attempts.  The 34th delay does not fit, and after
64 attempts the job is due at once. -/
theorem retry_delay_degenerates :
    (enqueue Tables.empty 0 patientArgs).1.jobs.map
        (fun r => { r with status := .leased, lockedAt := some 0, lockedBy := some "pod-w0" }) =
      [patientJob 0] ∧
    retryBackoff 0 34 = none ∧ retryBackoff 0 64 = some 0 ∧
    ((writeRetryOrDead (patientJob 63) (.fields []) (milliseconds 0)).set 7
      (patientJob 63)).nextRunAt = 7 ∧
    ¬InBand 34 (retryBackoff 0 34) ∧ ¬InBand 64 (retryBackoff 0 64) := by
  refine ⟨by decide, by decide, by decide, by decide, ?_, ?_⟩
  · rw [inBand_iff (by decide)]
    decide
  · rw [inBand_iff (by decide)]
    decide

end ImgSync.Worker
