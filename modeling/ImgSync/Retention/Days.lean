import ImgSync.Env.Vars
import ImgSync.Retention.Outcome

/-!
# The retention period of the worker

`newWorkerCmd` (`cmd/imgsync/worker.go`) reads the period in days and passes a
window in nanoseconds.  The product has 64 bits and wraps around, so the window is
the period up to 106751 days (`daysWindow_eq_iff`).  Above that it is negative,
which disables the sweep, or some positive window that is shorter than the
period (`daysWindow_lt`).
-/

namespace ImgSync.Retention

open ImgSync.Lib ImgSync.Queue ImgSync.Env

/-- `time.Duration(retentionDays) * 24 * time.Hour`. -/
def daysWindow (days : Int) : Duration := wrap64 (wrap64 (days * 24) * 3600000000000)

/-- The configuration of the retention job, if the worker starts it. -/
def retentionConfig (env : Environ) : Option RetentionConfig :=
  let retentionDays := env.int "IMGSYNC_RETENTION_DAYS" 0
  if retentionDays > 0 then
    some ⟨daysWindow retentionDays, env.int "IMGSYNC_RETENTION_BATCH" 1000⟩
  else none

/-- So many days, as a duration. -/
def days (d : Int) : Duration := d * 86400000000000

theorem days_eq (d : Int) : days d = d * 86400 * 1000000000 := by
  show d * 86400000000000 = d * 86400 * 1000000000
  omega

theorem daysWindow_eq (d : Int) : daysWindow d = wrap64 (days d) := by
  rw [daysWindow, wrap64, wrap64, Int.bmod_mul_bmod, Int.mul_assoc]
  rfl

/-- The window is exact as long as it fits. -/
theorem daysWindow_eq_iff {d : Int} (hd : 0 < d) : daysWindow d = days d ↔ d ≤ 106751 := by
  rw [daysWindow_eq, wrap64_eq_self_iff]
  show Fits (d * 86400000000000) ↔ _
  unfold Fits
  omega

/-- A window that has wrapped is shorter than the period, by more than a second. -/
theorem daysWindow_lt {d : Int} (hd : 106751 < d) : daysWindow d + 2000000000 < days d := by
  have hhigh : wrap64 (days d) ≤ 9223372036854775807 := (fits_wrap64 (days d)).2
  rw [daysWindow_eq]
  show wrap64 (days d) + 2000000000 < d * 86400000000000
  omega

/-! ## The rows that stay -/

/-- No step of the call deletes a row that is younger than `age`.  Timestamps are
microseconds. -/
def Keeps (cfg : RetentionConfig) (age : Duration) : Prop :=
  ∀ (t : Tables) (begin : Except String Time) (as : List Action) (a : Action), t.Wf →
    (∀ now op, a ≠ .other now op) → ∀ r ∈ (reach cfg t begin as).tables.jobs,
      r ∉ (step cfg (reach cfg t begin as) a).tables.jobs →
      ∃ start, (reach cfg t begin as).phase.sweeping = some start ∧
        age ≤ (start - r.updatedAt) * 1000

variable {cfg : RetentionConfig} {t : Tables} {begin : Except String Time} {as : List Action}

/-- A row that the call deletes is outdated. -/
theorem deleted_outdated (hwf : t.Wf) {a : Action} (hown : ∀ now op, a ≠ .other now op)
    {r : JobRow} (hr : r ∈ (reach cfg t begin as).tables.jobs)
    (hgone : r ∉ (step cfg (reach cfg t begin as) a).tables.jobs) :
    ∃ start, (reach cfg t begin as).phase.sweeping = some start ∧
      outdated start (seconds cfg) r = true := by
  have hinv : Inv cfg (reach cfg t begin as) := reach_inv hwf begin as
  rcases tables_step hown with heq | ⟨-, start, gone, n, hph, hwithout⟩
  · rw [heq] at hgone
    exact absurd hr hgone
  · have hloop := hinv.phase
    rw [hph] at hloop
    refine ⟨start, by rw [hph]; rfl, Loop.outdated hloop hinv.wf hr ?_⟩
    rw [hwithout] at hgone
    by_contra hid
    exact hgone (List.mem_filter.mpr ⟨hr, by simpa using hid⟩)

/-- A disabled call is returned from the start. -/
theorem sweeping_disabled (h : cfg.window ≤ 0) : (reach cfg t begin as).phase.sweeping = none := by
  have hstart : (beginTx cfg t begin).phase = .returned 0 none := by
    unfold beginTx
    rw [if_pos h]
  have hend : (reach cfg t begin as).phase = .returned 0 none :=
    foldl_invariant (fun s : Server => s.phase = .returned 0 none)
      (fun _ a h => returned_step h a) hstart as
  rw [hend]
  rfl

theorem keeps_of_disabled (h : cfg.window ≤ 0) (age : Duration) : Keeps cfg age := by
  intro t begin as a hwf hown r hr hgone
  obtain ⟨start, hsweeping, -⟩ := deleted_outdated hwf hown hr hgone
  rw [sweeping_disabled h] at hsweeping
  cases hsweeping

/-- The interval of the statement is the window in whole seconds. -/
theorem keeps_of_le {age : Duration} (h : age ≤ seconds cfg * 1000000000) : Keeps cfg age := by
  intro t begin as a hwf hown r hr hgone
  obtain ⟨start, hsweeping, hout⟩ := deleted_outdated hwf hown hr hgone
  refine ⟨start, hsweeping, ?_⟩
  rw [outdated, Bool.and_eq_true, decide_eq_true_eq] at hout
  have hold : (r.updatedAt : Int) < start - seconds cfg * 1000000 := hout.2
  refine h.trans (show (seconds cfg * 1000000000 : Int) ≤ (start - r.updatedAt) * 1000 from ?_)
  linarith

/-- A positive window deletes every outdated row. -/
theorem Keeps.age_le {age : Duration} (h : Keeps cfg age) (hwindow : 0 < cfg.window)
    (hwf : t.Wf) {start : Time} {r : JobRow} (hr : r ∈ t.jobs)
    (hout : outdated start (seconds cfg) r = true) : age ≤ (start - r.updatedAt) * 1000 := by
  obtain ⟨gone, n, hat, hfin⟩ := reach_drained hwf ⟨id, fun _ => .refl _⟩ hwindow
    (Nat.lt_succ_self (eligible cfg t start).length)
  generalize Action.lock _ :: _ = as at hat
  have hinv : Inv cfg ⟨t, .drained start gone n⟩ := hat ▸ reach_inv hwf (.ok start) as
  have hgone : r ∉ (step cfg ⟨t, .drained start gone n⟩ (.commit none)).tables.jobs := by
    rw [(commit_eq hinv hfin rfl rfl).1]
    intro hstays
    have hyoung := (List.mem_filter.mp hstays).2
    rw [hout] at hyoung
    cases hyoung
  have hkeeps := h t (.ok start) as (.commit none) hwf (by simp) r
  rw [hat] at hkeeps
  obtain ⟨start', hstart, hle⟩ := hkeeps hr hgone
  obtain rfl : start = start' := Option.some.inj hstart
  exact hle

/-- A job that ended at the given time. -/
def finishedRow (time : Time) : JobRow :=
  let spec : JobSpec := ⟨"images-1", "a.png", "b.png", "localfs", "localfs"⟩
  Worker.setSuccess time (spec.newJob.row time 1)

theorem finishedRow_wf (time : Time) : Tables.Wf ⟨[finishedRow time], [], 2, 1⟩ where
  ids := List.nodup_singleton _
  keys := List.nodup_singleton _
  seq := by
    intro r hr
    obtain rfl := List.mem_singleton.mp hr
    show 1 < 2
    omega
  fk := by
    intro e he
    cases he

/-- The seconds of the statement are rounded down. -/
theorem seconds_le (h : 0 < cfg.window) : seconds cfg * 1000000000 ≤ cfg.window := by
  have hpos : (0 : Int) ≤ cfg.window := le_of_lt h
  rw [seconds, Duration.seconds, Int.tdiv_eq_ediv_of_nonneg hpos]
  exact Int.ediv_mul_le _ (by decide)

/-- The row that is a microsecond older than the window is lost. -/
theorem not_keeps {age : Duration} (hwindow : 0 < cfg.window)
    (hage : seconds cfg * 1000000000 + 1000 < age) : ¬Keeps cfg age := by
  intro hkeeps
  have hout : outdated 0 (seconds cfg) (finishedRow (-(seconds cfg * 1000000) - 1)) = true := by
    show (true && decide (-(seconds cfg * 1000000) - 1 < 0 - seconds cfg * 1000000)) = true
    rw [Bool.true_and, decide_eq_true_eq]
    omega
  have hle := hkeeps.age_le hwindow (finishedRow_wf _) (List.mem_singleton_self _) hout
  have hsame : (0 - (-(seconds cfg * 1000000) - 1)) * 1000 =
      seconds cfg * 1000000000 + 1000 := by omega
  exact absurd (hage.trans_le (hle.trans_eq hsame)) (lt_irrefl _)

theorem keeps_days_iff {d : Int} (hd : 0 < d) (hwindow : cfg.window = daysWindow d) :
    Keeps cfg (days d) ↔ d ≤ 106751 ∨ daysWindow d ≤ 0 := by
  constructor
  · intro hkeeps
    by_contra hwraps
    obtain ⟨hlarge, hpos⟩ := not_or.mp hwraps
    have hpositive : 0 < cfg.window := hwindow ▸ not_le.mp hpos
    refine not_keeps hpositive ?_ hkeeps
    have hle := seconds_le hpositive
    have hlt := daysWindow_lt (not_le.mp hlarge)
    rw [hwindow] at hle
    linarith
  · rintro (hfits | hdisabled)
    · have hexact : cfg.window = d * 86400 * 1000000000 := by
        rw [hwindow, (daysWindow_eq_iff hd).mpr hfits, days_eq]
      refine keeps_of_le (le_of_eq ?_)
      rw [seconds_eq hexact, days_eq]
    · exact keeps_of_disabled (hwindow ▸ hdisabled) (days d)

/-- The worker with a period of `d` days.  Its window is the period or disabled, and
its sweeps keep every row that is younger than the period, exactly when the
period fits 64 bits or wraps to a window that is not positive. -/
theorem retention_days (env : Environ) {d : Int} (hd : 0 < d)
    (henv : atoi (env "IMGSYNC_RETENTION_DAYS") = some d) :
    ∃ cfg, retentionConfig env = some cfg ∧
      ((cfg.window = days d ∨ cfg.window ≤ 0) ↔ (d ≤ 106751 ∨ daysWindow d ≤ 0)) ∧
      (Keeps cfg (days d) ↔ (d ≤ 106751 ∨ daysWindow d ≤ 0)) := by
  refine ⟨⟨daysWindow d, env.int "IMGSYNC_RETENTION_BATCH" 1000⟩, ?_, ?_, ?_⟩
  · rw [retentionConfig, int_of_atoi henv]
    exact if_pos hd
  · rw [daysWindow_eq_iff hd]
  · exact keeps_days_iff hd rfl

theorem retention_days_thirty :
    atoi "30" = some 30 ∧ ∃ cfg, retentionConfig (fun _ => "30") = some cfg ∧
      Keeps cfg (days 30) := by
  have henv : atoi "30" = some 30 := by decide +kernel
  obtain ⟨cfg, hcfg, -, hkeeps⟩ := retention_days (fun _ => "30") (by decide : (0 : Int) < 30) henv
  exact ⟨henv, cfg, hcfg, hkeeps.mpr (Or.inl (by decide))⟩

/-- A job is enqueued, leased and finished at time zero, and then swept. -/
def agedRun : List Action :=
  endFirst.map (fun o => .other o.1 o.2) ++
    [.lock (.ok true), .delete (.ok agedScan), .delete (.ok agedScan), .commit none]

/-- A period of 213504 days, and a job that ended half an hour before the sweep. -/
theorem retention_days_wraps :
    atoi "213504" = some 213504 ∧
      (retentionConfig fun key => if key = "IMGSYNC_RETENTION_DAYS" then "213504" else "").map
        (fun cfg => (cfg.window, cfg.batchSize)) = some (1526290448384, 1000) ∧
      (1800000000 - (finishedRow 0).updatedAt) * 1000 < days 213504 ∧
      (reach ⟨1526290448384, 1000⟩ Tables.empty (.ok 1800000000) (agedRun.take 5)).tables.jobs =
        [finishedRow 0] ∧
      (reach ⟨1526290448384, 1000⟩ Tables.empty (.ok 1800000000) agedRun).tables.jobs = [] := by
  decide +kernel

end ImgSync.Retention
