import ImgSync.Worker.Fencing

/-!
# One worker at a time

A lease is a promise with an end: a sweep takes it away once it is older than
the threshold, whether or not its worker is still at work.  `lease_fencing` says
that the worker then cannot write any more.  It does not keep two workers from
transferring the same file at the same time.

What does is a bound on the transfers.  A run is `Punctual` when no sweep meets
a worker that is inside of `ProcessJob` with a lease older than the threshold of
the sweep.  In such a run the snapshot that a worker has leased stays the row of
the table for as long as the worker is at work (`Owns`), so no two workers
process the same job, and every outcome write finds its row
(`exclusive_processing`).
-/

namespace ImgSync.Worker

open ImgSync.Lib ImgSync.Queue

/-- No sweep comes while a worker has been at work for longer than the
threshold. -/
def Punctual (s : System) (a : Time × Action) : Prop :=
  ∀ cfg, a.2 = .external (.sweep cfg true) → ∀ w job n, s.workers w = .working job n .running →
    expired a.1 cfg.thresholdSeconds job = false

/-- The snapshot of the worker is the row, and the lease is the last one. -/
structure Owns (s : System) (w : String) (job : Job) (n : Nat) : Prop where
  row : job ∈ s.tables.jobs
  leased : job.status = .leased
  owner : job.lockedBy = some w
  number : s.lastLease job.id = n

/-- Every worker inside of `ProcessJob` owns its job. -/
def Owned (s : System) : Prop :=
  ∀ w job n, s.workers w = .working job n .running → Owns s w job n

/-! ## What takes a lease away -/

/-- Whether the operation can end the lease that `w` has on the row: an outcome
write or a drain under its name, or a sweep. -/
def Ends (now : Time) (w : String) (r : JobRow) : Op → Prop
  | .outcome v _ | .drainLease v => v = w
  | .sweep cfg locked => locked = true ∧ expired now cfg.thresholdSeconds r = true
  | _ => False

/-- A leased row stays as it is until an operation ends its lease. -/
theorem exec_keeps_leased {t : Tables} (hwf : t.Wf) {r : JobRow} {w : String} (hr : r ∈ t.jobs)
    (hl : r.status = .leased) (hw : r.lockedBy = some w) {now : Time} {op : Op}
    (hop : ¬Ends now w r op) : r ∈ (Queue.exec t now op).jobs := by
  have hname : ∀ {v}, r.lockedBy = some v → v = w :=
    fun hv => Option.some.inj (hv.symm.trans hw)
  by_cases hret : op.IsRetention
  · obtain ⟨keep, hpruned⟩ := exec_retention hwf now hret
    rw [hpruned.jobs, List.mem_filter]
    refine ⟨hr, ?_⟩
    by_contra hgone
    have hterm := hpruned.terminal r hr (Bool.not_eq_true _ ▸ hgone)
    rw [hl] at hterm
    exact absurd hterm (by decide)
  · obtain ⟨d⟩ := exec_delta hwf now hret
    have hsame : d.f r = r := by
      have hstep := d.rows r hr
      generalize d.f r = r', kindsOf d.evs r.id = kinds at hstep
      cases hstep with
      | keep => rfl
      | lease v rowLocked hp => exact absurd (hl.symm.trans hp) (by decide)
      | drain v hh =>
        rw [heldBy, Bool.and_eq_true, beq_iff_eq, beq_iff_eq] at hh
        exact absurd (hname hh.2) hop
      | expire cfg he => exact absurd ⟨rfl, he⟩ hop
      | succeed v job det hg => exact absurd (hname (leaseGuard_iff.mp hg).2.2) hop
      | finish v job kind attempts det hg => exact absurd (hname (leaseGuard_iff.mp hg).2.2) hop
      | retry v job attempts backoffMs det hg =>
        exact absurd (hname (leaseGuard_iff.mp hg).2.2) hop
    rw [d.mem_jobs]
    exact Or.inl ⟨r, hr, hsame⟩

section Step

variable {s : System} {w : String}

theorem Owned.exec (h : Owned s) (hwf : s.tables.Wf) (now : Time) {op : Op}
    (hop : ∀ v job n, s.workers v = .working job n .running → ¬Ends now v job op) :
    Owned (s.exec now op) := by
  intro v job n hv
  have hown := h v job n hv
  exact { hown with
    row := exec_keeps_leased hwf hown.row hown.leased hown.owner (hop v job n hv) }

/-- A worker that is not inside of `ProcessJob` any more. -/
theorem Owned.setWorker (h : Owned s) {ws : WorkerState}
    (hws : ∀ job n, ws ≠ .working job n .running) : Owned (s.setWorker w ws) := by
  intro v job n hv
  by_cases hvw : v = w
  · subst hvw
    simp only [System.setWorker, Function.update_self] at hv
    exact absurd hv (hws job n)
  · simp only [System.setWorker, Function.update_of_ne hvw] at hv
    exact { h v job n hv with }

/-- The outcome write of a worker leaves the jobs of the others alone. -/
theorem Owned.outcome (h : Owned s) (hwf : s.tables.Wf) (now : Time) (st : Statement)
    {ws : WorkerState} (hws : ∀ job n, ws ≠ .working job n .running) :
    Owned ((s.exec now (.outcome w st)).setWorker w ws) := by
  intro v job n hv
  have hvw : v ≠ w := by
    rintro rfl
    simp only [System.setWorker, Function.update_self] at hv
    exact absurd hv (hws job n)
  simp only [System.setWorker, Function.update_of_ne hvw] at hv
  have hown := h v job n hv
  exact { hown with
    row := exec_keeps_leased hwf hown.row hown.leased hown.owner fun hends => hvw hends.symm }

theorem Owned.lease (h : Owned s) (hwf : s.tables.Wf) (now : Time) (rowLocked : List Nat)
    (lost : Bool) (hidle : s.workers w = .idle) :
    Owned (step s (now, .lease w rowLocked lost)) := by
  have hkept : Owned (s.exec now (.leaseJob w rowLocked)) :=
    h.exec hwf now fun _ _ _ _ => id
  simp only [step, hidle]
  rcases leaseJob_cases s.tables now w rowLocked with hnone | ⟨r, hr, hp, hsome⟩
  · rw [hnone]
    exact hkept
  · have hrows : (s.exec now (.leaseJob w rowLocked)).tables.jobs =
        updateWhere (fun x => x.id == r.id) (Worker.lease now w) s.tables.jobs := by
      rw [System.exec, Queue.exec, hsome]
    -- A job that another worker owns is leased, so it is not the row `r`.
    have hothers : Owned ((s.exec now (.leaseJob w rowLocked)).grant (Worker.lease now w r)) := by
      intro v job n hv
      have hown := h v job n hv
      have hne : job.id ≠ r.id := by
        intro hid
        have hleased := hown.leased
        rw [eq_of_key_eq hwf.ids hown.row hr hid, hp] at hleased
        exact absurd hleased (by decide)
      refine { hkept v job n hv with number := ?_ }
      show Function.update s.lastLease r.id s.nextLease job.id = n
      rw [Function.update_of_ne hne]
      exact hown.number
    rw [hsome]
    cases lost with
    | true => exact hothers
    | false =>
      intro v job n hv
      by_cases hvw : v = w
      · subst hvw
        simp only [System.setWorker, Function.update_self, Bool.false_eq_true, if_false,
          WorkerState.working.injEq, and_true] at hv
        obtain ⟨rfl, rfl⟩ := hv
        refine ⟨?_, rfl, rfl, ?_⟩
        · show Worker.lease now v r ∈ (s.exec now (.leaseJob v rowLocked)).tables.jobs
          rw [hrows, updateWhere]
          exact List.mem_map.mpr ⟨r, hr, by simp⟩
        · show Function.update s.lastLease r.id s.nextLease r.id = s.nextLease
          rw [Function.update_self]
      · simp only [System.setWorker, Bool.false_eq_true, if_false, Function.update_of_ne hvw] at hv
        exact { hothers v job n hv with }

/-- A punctual step keeps every worker the owner of its job. -/
theorem step_owned {a : Time × Action} (hinv : SystemInv s) (h : Owned s) (hp : Punctual s a) :
    Owned (step s a) := by
  obtain ⟨now, act⟩ := a
  cases act with
  | external op =>
    rw [step]
    split
    · rename_i hext
      refine h.exec hinv.wf now fun v job n hv hends => ?_
      cases op with
      | sweep cfg locked =>
        obtain ⟨rfl, he⟩ := hends
        rw [hp cfg rfl v job n hv] at he
        exact absurd he (by decide)
      | outcome | drainLease | leaseJob => simp [External] at hext
      | enqueue | snifferEnqueue | enqueueBatch | retention | rolledBack => exact hends
    · exact h
  | lease w rowLocked lost =>
    cases hw : s.workers w with
    | idle => exact h.lease hinv.wf now rowLocked lost hw
    | working job n stage =>
      simp only [step, hw]
      exact h
  | write w run =>
    rw [step]
    split
    · exact h.outcome hinv.wf now _ (by simp)
    · exact h
  | writeFails w =>
    rw [step]
    split
    · exact h.setWorker (by simp)
    · exact h
  | recover w rec_ backoffMs =>
    rw [step]
    split
    · exact h.outcome hinv.wf now _ (by simp)
    · exact h
  | recoverFails w => exact h.setWorker (by simp)
  | finish w =>
    rw [step]
    split
    · exact h.setWorker (by simp)
    · exact h
  | drain w =>
    rw [step]
    split
    · rename_i hw
      refine h.exec hinv.wf now fun v job n hv hends => ?_
      obtain rfl : w = v := hends
      rw [hw] at hv
      exact absurd hv (by simp)
    · exact h
  | crash w => exact h.setWorker (by simp)

end Step

theorem reach_owned {acts : List (Time × Action)}
    (hp : AllSteps step Punctual System.init acts) : Owned (reach acts) := by
  have hinit : SystemInv System.init ∧ Owned System.init :=
    ⟨systemInv_init, fun w job n hw => absurd hw (by simp [System.init])⟩
  exact (foldl_all (fun s => SystemInv s ∧ Owned s)
    (fun s a h hok => ⟨step_inv s a h.1, step_owned h.1 h.2 hok⟩) hinit hp).2

/-- Jobs are processed by one worker at a time, in every run in which no sweep
meets a transfer that is older than the threshold.  No two workers are inside of
`ProcessJob` for the same job, a worker keeps its lease until it writes the
outcome, and the outcome write finds its row. -/
theorem exclusive_processing (acts : List (Time × Action))
    (hp : AllSteps step Punctual System.init acts) :
    (∀ w w' job job' n n', (reach acts).workers w = .working job n .running →
      (reach acts).workers w' = .working job' n' .running → job.id = job'.id → w = w') ∧
    ∀ w job n, (reach acts).workers w = .working job n .running →
      job ∈ (reach acts).tables.jobs ∧ LeasedUnder (reach acts) job.id n ∧
        ∀ (now : Time) (run : JobRun),
          ((processOne job run).exec (reach acts).tables now w).2 = 1 := by
  have hinv := reach_inv acts
  have howned := reach_owned hp
  generalize reach acts = s at hinv howned ⊢
  refine ⟨fun w w' job job' n n' hw hw' hid => ?_, fun w job n hw => ?_⟩
  · have hown := howned w job n hw
    have hown' := howned w' job' n' hw'
    have hrow := eq_of_key_eq hinv.wf.ids hown.row hown'.row hid
    exact Option.some.inj (hown.owner.symm.trans (hrow ▸ hown'.owner))
  · have hown := howned w job n hw
    have hleased : LeasedUnder s job.id n := ⟨job, hown.row, rfl, hown.leased, hown.number⟩
    refine ⟨hown.row, hleased, fun now run => ?_⟩
    have hjob : (processOne job run).job = job := (processOne_sound job run).2
    obtain ⟨-, r, -, -, -, hexec⟩ :=
      hinv.exec_held (Issues.main run hw) now (by rw [hjob]; exact hleased)
    rw [hexec]

/-- A sweep after four minutes, while the first of two jobs is under way. -/
def punctualRun : List (Time × Action) :=
  [(0, .external (.snifferEnqueue ⟨"images-1", "a.png", "b.png", "localfs", "localfs"⟩)),
    (0, .external (.snifferEnqueue ⟨"images-2", "c.png", "d.png", "localfs", "localfs"⟩)),
    (0, .lease "pod-w0" [] false), (240000000, .external (.sweep ⟨0⟩ true)),
    (240000001, .lease "pod-w1" [] false)]

/-- Two workers are at work, each on its own job. -/
theorem exclusive_processing_punctual :
    AllSteps step Punctual System.init punctualRun ∧
    ∃ job job' n n', (reach punctualRun).workers "pod-w0" = .working job n .running ∧
      (reach punctualRun).workers "pod-w1" = .working job' n' .running ∧ job.id ≠ job'.id := by
  have hsweep : ∀ s : System, ∀ a : Time × Action, (∀ cfg, a.2 ≠ .external (.sweep cfg true)) →
      Punctual s a := fun s a hne cfg heq => absurd heq (hne cfg)
  have hp : AllSteps step Punctual System.init punctualRun := by
    refine ⟨hsweep _ _ (by simp), hsweep _ _ (by simp), hsweep _ _ (by simp), ?_,
      hsweep _ _ (by simp), trivial⟩
    intro cfg hcfg w job n hw
    obtain rfl : ⟨0⟩ = cfg := by simpa using hcfg
    by_cases hname : w = "pod-w0"
    · subst hname
      cases hw
      decide
    · have hidle : (reach (punctualRun.take 3)).workers w = .idle := Function.update_of_ne hname _ _
      exact absurd (hidle.symm.trans hw) (by simp)
  refine ⟨hp, _, _, _, _, rfl, rfl, fun hid => ?_⟩
  have heq := (exclusive_processing punctualRun hp).1 "pod-w0" "pod-w1" _ _ _ _ rfl rfl hid
  exact absurd heq (by decide)

end ImgSync.Worker
