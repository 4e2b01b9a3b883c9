import ImgSync.Queue.Audit
import ImgSync.Worker.Runner

/-!
# Lease fencing and the retry budget

The guard of an outcome write compares the id, the status and `locked_by` of
the row.  It does not compare a lease number.  This module proves that the
guard is as good as a comparison of lease numbers, and that the attempts of a
row therefore count its failures.

Two invariants carry the proofs.

* `Fenced` is about the workers: as long as a worker is inside `processOne`,
  the row of its snapshot is leased under the worker's name exactly when it
  is leased under the worker's lease number, and then the snapshot still
  shows the attempts of the row.
* `Budget` is about one row and its trail: the lock columns, the attempts and
  the bounds on them.

A row step that ends in a leased row changes nothing, unless it is the lease
itself.  `leased_of_rowStep` says so, and it is what keeps `Fenced` across
sweeps, drains and the writes of other workers.
-/

namespace ImgSync.Worker

open ImgSync.Lib ImgSync.Queue

/-! ## The lease of a row -/

/-- The two answers of `LeaseJob`. -/
theorem leaseJob_cases (t : Tables) (now : Time) (w : String) (rowLocked : List Nat) :
    leaseJob t now w rowLocked = (t, none) ∨
      ∃ r ∈ t.jobs, r.status = .pending ∧
        leaseJob t now w rowLocked =
          ({ t with jobs := updateWhere (fun x => x.id == r.id) (lease now w) t.jobs },
            some (lease now w r)) := by
  rw [leaseJob]
  cases hnext : nextDue t now rowLocked with
  | none => exact Or.inl rfl
  | some r =>
    obtain ⟨hr, hp, _⟩ := nextDue_mem hnext
    exact Or.inr ⟨r, hr, hp, rfl⟩

/-- The guard of an outcome write, column by column. -/
theorem leaseGuard_iff {id : Nat} {w : String} {r : JobRow} :
    leaseGuard id w r = true ↔ r.id = id ∧ r.status = .leased ∧ r.lockedBy = some w := by
  simp only [leaseGuard, heldBy, Bool.and_eq_true, beq_iff_eq]

/-- Outside of a lease, a row that is leased after an operation is the row
that was there before. -/
theorem leased_of_rowStep {now : Time} {op : Op} {r r' : JobRow} {kinds : List EventStatus}
    (h : RowStep now op r r' kinds) (hop : ∀ w rl, op ≠ .leaseJob w rl)
    (hl : r'.status = .leased) : r' = r := by
  cases h with
  | keep => rfl
  | lease w rl => exact absurd rfl (hop w rl)
  | drain => simp [JobRow.requeue] at hl
  | expire => simp [JobRow.requeue] at hl
  | succeed => simp [setSuccess] at hl
  | finish _ _ kind => cases kind <;> simp [setTerminal, TerminalKind.jobStatus] at hl
  | retry => simp [setRetry] at hl

/-- The same for the whole table: every leased row was there before. -/
theorem exec_leased {t : Tables} (hwf : t.Wf) (now : Time) {op : Op}
    (hop : ∀ w rl, op ≠ .leaseJob w rl) {r : JobRow} (hr : r ∈ (Queue.exec t now op).jobs)
    (hl : r.status = .leased) : r ∈ t.jobs := by
  by_cases hret : op.IsRetention
  · obtain ⟨keep, h⟩ := exec_retention hwf now hret
    exact (h.trail hr).1
  · obtain ⟨d⟩ := exec_delta hwf now hret
    rcases d.mem_jobs.mp hr with ⟨x, hx, rfl⟩ | hnew
    · have hsame := leased_of_rowStep (d.rows x hx) hop hl
      rw [hsame]
      exact hx
    · have hp := (d.created r hnew).pending
      rw [hp] at hl
      exact absurd hl (by decide)

/-! ## The fencing invariant -/

/-- The snapshot `job` of lease `n` against the row that it was taken from. -/
structure Snapshot (t : Tables) (lastLease : Nat → Nat) (w : String) (job : Job) (n : Nat) :
    Prop where
  fence : ∀ r ∈ t.jobs, r.id = job.id → r.status = .leased →
    (r.lockedBy = some w ↔ lastLease job.id = n)
  fresh : ∀ r ∈ t.jobs, r.id = job.id → r.status = .leased → lastLease job.id = n →
    r.attempts = job.attempts ∧ r.maxAttempts = job.maxAttempts

/-- Every worker at work holds a snapshot of a numbered lease. -/
structure Fenced (s : System) : Prop where
  number : ∀ w job n stage, s.workers w = .working job n stage → n < s.nextLease
  snapshot : ∀ w job n stage, s.workers w = .working job n stage →
    Snapshot s.tables s.lastLease w job n

/-- A snapshot stays good when no lease happens. -/
theorem Snapshot.exec {t : Tables} {lastLease : Nat → Nat} {w : String} {job : Job} {n : Nat}
    (h : Snapshot t lastLease w job n) (hwf : t.Wf) (now : Time) {op : Op}
    (hop : ∀ w rl, op ≠ .leaseJob w rl) :
    Snapshot (Queue.exec t now op) lastLease w job n where
  fence := fun r hr hid hl => h.fence r (exec_leased hwf now hop hr hl) hid hl
  fresh := fun r hr hid hl => h.fresh r (exec_leased hwf now hop hr hl) hid hl

/-- An operation that is not a lease keeps the fencing invariant. -/
theorem Fenced.exec {s : System} (h : Fenced s) (hwf : s.tables.Wf) (now : Time) {op : Op}
    (hop : ∀ w rl, op ≠ .leaseJob w rl) : Fenced (s.exec now op) where
  number := h.number
  snapshot := fun w job n stage hw => (h.snapshot w job n stage hw).exec hwf now hop

/-- A worker that leaves `processOne`, or moves on inside it, keeps the
fencing invariant. -/
theorem Fenced.setWorker {s : System} (h : Fenced s) {w : String} {ws : WorkerState}
    (hws : ∀ job n stage, ws = .working job n stage →
      n < s.nextLease ∧ Snapshot s.tables s.lastLease w job n) : Fenced (s.setWorker w ws) where
  number := by
    intro v job n stage hv
    by_cases hvw : v = w
    · subst hvw
      exact (hws job n stage (by simpa [System.setWorker] using hv)).1
    · exact h.number v job n stage (by simpa [System.setWorker, hvw] using hv)
  snapshot := by
    intro v job n stage hv
    by_cases hvw : v = w
    · subst hvw
      exact (hws job n stage (by simpa [System.setWorker] using hv)).2
    · exact h.snapshot v job n stage (by simpa [System.setWorker, hvw] using hv)

/-- The rows after a lease: the leased row, and the other rows as they
were. -/
theorem mem_leased_jobs {t : Tables} {now : Time} {w : String} {r x : JobRow}
    (hx : x ∈ updateWhere (fun y => y.id == r.id) (lease now w) t.jobs) :
    (∃ y ∈ t.jobs, y.id = r.id ∧ x = lease now w y) ∨ x ∈ t.jobs ∧ x.id ≠ r.id := by
  rw [updateWhere, List.mem_map] at hx
  obtain ⟨y, hy, rfl⟩ := hx
  by_cases hid : y.id = r.id
  · exact Or.inl ⟨y, hy, hid, by simp [hid]⟩
  · exact Or.inr ⟨by simpa [hid] using hy, by simp [hid]⟩

/-- A granted lease.  The snapshots of the other workers for the same row are
behind the new lease number, and the guard tells them apart by name. -/
theorem Fenced.grant {s : System} (h : Fenced s) (hwf : s.tables.Wf) {now : Time} {w : String}
    {r : JobRow} (hr : r ∈ s.tables.jobs) (hidle : s.workers w = .idle) :
    let s' := ({ s with tables := { s.tables with
      jobs := updateWhere (fun x => x.id == r.id) (lease now w) s.tables.jobs } } : System).grant
        (lease now w r)
    Fenced s' ∧ Snapshot s'.tables s'.lastLease w (lease now w r) s.nextLease := by
  intro s'
  have hown : ∀ x ∈ s'.tables.jobs, x.id = r.id → x = lease now w r := by
    intro x hx hid
    rcases mem_leased_jobs hx with ⟨y, hy, hyid, rfl⟩ | ⟨_, hne⟩
    · rw [eq_of_key_eq hwf.ids hy hr hyid]
    · exact absurd hid hne
  have hlast : s'.lastLease r.id = s.nextLease := by
    simp [s', System.grant, lease]
  refine ⟨⟨?_, ?_⟩, ?_⟩
  · intro v job n stage hv
    exact Nat.lt_succ_of_lt (h.number v job n stage hv)
  · intro v job n stage hv
    have hn := h.number v job n stage hv
    have hvw : v ≠ w := by
      rintro rfl
      have hv' : s.workers v = .working job n stage := hv
      rw [hidle] at hv'
      exact absurd hv' (by simp)
    by_cases hid : job.id = r.id
    · have hne : s'.lastLease job.id ≠ n := by
        rw [hid, hlast]
        omega
      refine ⟨fun x hx hxid _ => ?_, fun x _ _ _ heq => absurd heq hne⟩
      rw [hown x hx (hxid.trans hid)]
      refine ⟨fun hw => absurd (Option.some.inj hw).symm hvw, fun heq => absurd heq hne⟩
    · have hkeep : s'.lastLease job.id = s.lastLease job.id := by
        simp [s', System.grant, lease, hid]
      have hsnap := h.snapshot v job n stage hv
      have hback : ∀ x ∈ s'.tables.jobs, x.id = job.id → x ∈ s.tables.jobs := by
        intro x hx hxid
        rcases mem_leased_jobs hx with ⟨y, _, hyid, rfl⟩ | ⟨hmem, _⟩
        · exact absurd (hxid.symm.trans hyid) hid
        · exact hmem
      refine ⟨fun x hx hxid hl => ?_, fun x hx hxid hl heq => ?_⟩
      · rw [hkeep]
        exact hsnap.fence x (hback x hx hxid) hxid hl
      · rw [hkeep] at heq
        exact hsnap.fresh x (hback x hx hxid) hxid hl heq
  · refine ⟨fun x hx hxid _ => ?_, fun x hx hxid _ _ => ?_⟩
    · rw [hown x hx hxid]
      exact ⟨fun _ => hlast, fun _ => rfl⟩
    · rw [hown x hx hxid]
      exact ⟨rfl, rfl⟩

/-! ## The retry budget of a row -/

/-- One row and its trail: the lock columns, the attempts and their bounds. -/
structure Budget (r : JobRow) (trail : List EventStatus) : Prop where
  leased : r.status = .leased → r.lockedBy.isSome ∧ r.lockedAt.isSome
  unlocked : r.status ≠ .leased → r.lockedBy = none ∧ r.lockedAt = none
  attempts : r.attempts = trail.count .fail + trail.count .dead
  spare : r.status ≠ .dead → r.attempts < r.maxAttempts
  spent : r.status = .dead → 1 ≤ r.attempts ∧ r.attempts ≤ r.maxAttempts
  fits : r.maxAttempts ≤ 2147483647

/-- A statement that was computed from the row as it is now. -/
structure Statement.Fits (st : Statement) (r : JobRow) : Prop where
  sound : st.Sound
  attempts : r.attempts = st.job.attempts
  maxAttempts : r.maxAttempts = st.job.maxAttempts

theorem Created.budget {r : JobRow} {kinds : List EventStatus} (h : Created r kinds) :
    Budget r kinds where
  leased := by simp [h.pending]
  unlocked := fun _ => ⟨h.lockedBy, h.lockedAt⟩
  attempts := by
    rw [h.attempts]
    rcases h.kinds with rfl | rfl <;> simp
  spare := fun _ => by
    rw [h.attempts]
    exact h.budget
  spent := by simp [h.pending]
  fits := h.fits

/-- A row that no lease holds and that has attempts to spare. -/
theorem Budget.of_spare {r : JobRow} {trail : List EventStatus}
    (hfree : r.lockedBy = none ∧ r.lockedAt = none)
    (hlive : r.status = .pending ∨ r.status = .succeeded ∨ r.status = .skipped)
    (hcount : r.attempts = trail.count .fail + trail.count .dead)
    (hspare : r.attempts < r.maxAttempts) (hfits : r.maxAttempts ≤ 2147483647) :
    Budget r trail where
  leased := by
    intro hl
    simp [hl] at hlive
  unlocked := fun _ => hfree
  attempts := hcount
  spare := fun _ => hspare
  spent := by
    intro hd
    simp [hd] at hlive
  fits := hfits

/-- What one operation does to one row keeps its budget, as soon as an
outcome statement was computed from the row as it is now. -/
theorem RowStep.budget {now : Time} {op : Op} {r r' : JobRow} {kinds trail : List EventStatus}
    (hstep : RowStep now op r r' kinds) (h : Budget r trail)
    (hfits : ∀ w st, op = .outcome w st → leaseGuard st.job.id w r = true → st.Fits r) :
    Budget r' (trail ++ kinds) := by
  have hcount := h.attempts
  cases hstep with
  | keep => simpa using h
  | lease w rl hp hd =>
    have hspare := h.spare (by simp [hp])
    exact
      { leased := fun _ => ⟨rfl, rfl⟩
        unlocked := fun hn => absurd rfl hn
        attempts := by simpa [lease] using hcount
        spare := fun _ => hspare
        spent := by simp [lease]
        fits := h.fits }
  | drain w hh =>
    simp only [heldBy, Bool.and_eq_true, beq_iff_eq] at hh
    have hspare := h.spare (by simp [hh.1])
    refine .of_spare ⟨rfl, rfl⟩ (.inl rfl) ?_ hspare h.fits
    simpa [JobRow.requeue] using hcount
  | expire cfg he =>
    simp only [expired, Bool.and_eq_true, beq_iff_eq] at he
    have hspare := h.spare (by simp [he.1])
    refine .of_spare ⟨rfl, rfl⟩ (.inl rfl) ?_ hspare h.fits
    simpa [JobRow.requeue] using hcount
  | succeed w job d hg =>
    have hspare := h.spare (by simp [leased_of_guard hg])
    refine .of_spare ⟨rfl, rfl⟩ (.inr (.inl rfl)) ?_ hspare h.fits
    simpa [setSuccess] using hcount
  | finish w job kind attempts d hg =>
    have hspare := h.spare (by simp [leased_of_guard hg])
    have hst := hfits w _ rfl hg
    have hatt := hst.attempts
    have hsound := hst.sound
    simp only [Statement.job] at hatt
    simp only [Statement.Sound] at hsound
    cases kind with
    | skipped =>
      refine .of_spare ⟨rfl, rfl⟩ (.inr (.inr rfl)) ?_ ?_ h.fits
      · simp [setTerminal, TerminalKind.eventStatus]
        omega
      · show attempts < r.maxAttempts
        omega
    | dead =>
      exact
        { leased := by simp [setTerminal, TerminalKind.jobStatus]
          unlocked := fun _ => ⟨rfl, rfl⟩
          attempts := by
            simp [setTerminal, TerminalKind.eventStatus]
            omega
          spare := by simp [setTerminal, TerminalKind.jobStatus]
          spent := fun _ => by
            simp only [setTerminal]
            omega
          fits := h.fits }
  | retry w job attempts backoffMs d hg =>
    have hst := hfits w _ rfl hg
    have hatt := hst.attempts
    have hmax := hst.maxAttempts
    have hsound := hst.sound
    simp only [Statement.job] at hatt hmax
    simp only [Statement.Sound] at hsound
    refine .of_spare ⟨rfl, rfl⟩ (.inl rfl) ?_ ?_ h.fits
    · simp [setRetry]
      omega
    · show attempts < r.maxAttempts
      omega

/-! ## The invariant of a run -/

structure SystemInv (s : System) : Prop where
  wf : s.tables.Wf
  rows : ∀ r ∈ s.tables.jobs, Budget r (s.tables.trail r.id)
  fenced : Fenced s

theorem systemInv_init : SystemInv System.init where
  wf := Tables.wf_empty
  rows := by simp [System.init, Tables.empty]
  fenced := ⟨by simp [System.init], by simp [System.init]⟩

/-- The guard of a statement passes exactly on the row that is leased under
the statement's lease. -/
theorem SystemInv.guard_iff {s : System} (h : SystemInv s) {w : String} {n : Nat}
    {st : Statement} (hst : Issues s w n st) {r : JobRow} (hr : r ∈ s.tables.jobs) :
    leaseGuard st.job.id w r = true ↔
      r.id = st.job.id ∧ r.status = .leased ∧ s.lastLease st.job.id = n := by
  obtain ⟨_, stage, hw⟩ := hst.sound
  have hsnap := h.fenced.snapshot w st.job n stage hw
  rw [leaseGuard_iff]
  constructor
  · rintro ⟨hid, hl, hby⟩
    exact ⟨hid, hl, (hsnap.fence r hr hid hl).mp hby⟩
  · rintro ⟨hid, hl, hlast⟩
    exact ⟨hid, hl, (hsnap.fence r hr hid hl).mpr hlast⟩

/-- A statement that passes its guard was computed from the row as it is. -/
theorem SystemInv.fits {s : System} (h : SystemInv s) {w : String} {n : Nat} {st : Statement}
    (hst : Issues s w n st) {r : JobRow} (hr : r ∈ s.tables.jobs)
    (hg : leaseGuard st.job.id w r = true) : st.Fits r := by
  obtain ⟨hsound, stage, hw⟩ := hst.sound
  obtain ⟨hid, hl, hlast⟩ := (h.guard_iff hst hr).mp hg
  obtain ⟨hatt, hmax⟩ := (h.fenced.snapshot w st.job n stage hw).fresh r hr hid hl hlast
  exact ⟨hsound, hatt, hmax⟩

/-- An operation other than a lease keeps the invariant, as soon as an
outcome statement fits the row that it picks. -/
theorem SystemInv.exec {s : System} (h : SystemInv s) (now : Time) {op : Op}
    (hop : ∀ w rl, op ≠ .leaseJob w rl)
    (hfits : ∀ w st, op = .outcome w st → ∀ r ∈ s.tables.jobs,
      leaseGuard st.job.id w r = true → st.Fits r) : SystemInv (s.exec now op) where
  wf := exec_wf h.wf now op
  rows := exec_rows (P := Budget) h.wf now op (fun _ _ hc => Created.budget hc)
    (fun r hr _ _ hstep hb => RowStep.budget hstep hb fun w st heq => hfits w st heq r hr) h.rows
  fenced := h.fenced.exec h.wf now hop

theorem SystemInv.outcome {s : System} (h : SystemInv s) (now : Time) {w : String} {n : Nat}
    {st : Statement} (hst : Issues s w n st) : SystemInv (s.exec now (.outcome w st)) := by
  refine h.exec now (by simp) ?_
  rintro v st' heq r hr hg
  obtain ⟨rfl, rfl⟩ := Op.outcome.inj heq
  exact h.fits hst hr hg

theorem SystemInv.setWorker {s : System} (h : SystemInv s) {w : String} {ws : WorkerState}
    (hws : ∀ job n stage, ws = .working job n stage →
      n < s.nextLease ∧ Snapshot s.tables s.lastLease w job n) :
    SystemInv (s.setWorker w ws) where
  wf := h.wf
  rows := h.rows
  fenced := h.fenced.setWorker hws

theorem SystemInv.idle {s : System} (h : SystemInv s) (w : String) :
    SystemInv (s.setWorker w .idle) :=
  h.setWorker (by simp)

/-- A worker that has issued its statement keeps its snapshot. -/
theorem SystemInv.written {s s' : System} (h : SystemInv s') {w : String} {job : Job} {n : Nat}
    {stage stage' : Stage} (hw : s.workers w = .working job n stage)
    (hsame : s'.workers = s.workers) : SystemInv (s'.setWorker w (.working job n stage')) := by
  refine h.setWorker ?_
  intro job' n' stage'' heq
  cases heq
  rw [← hsame] at hw
  exact ⟨h.fenced.number w job n stage hw, h.fenced.snapshot w job n stage hw⟩

theorem SystemInv.lease {s : System} (h : SystemInv s) (now : Time) {w : String}
    (rowLocked : List Nat) (lost : Bool) (hidle : s.workers w = .idle) :
    SystemInv (step s (now, .lease w rowLocked lost)) := by
  have hwf := exec_wf h.wf now (.leaseJob w rowLocked)
  have hrows := exec_rows (P := Budget) h.wf now (.leaseJob w rowLocked)
    (fun _ _ hc => Created.budget hc)
    (fun r hr _ _ hstep hb => RowStep.budget hstep hb (by simp)) h.rows
  simp only [step, hidle, System.exec]
  simp only [Queue.exec] at hwf hrows ⊢
  rcases leaseJob_cases s.tables now w rowLocked with hnone | ⟨r, hr, _, hsome⟩
  · rw [hnone]
    exact h
  · rw [hsome] at hwf hrows ⊢
    obtain ⟨hfenced, hsnap⟩ := h.fenced.grant h.wf hr hidle
    have hgrant : SystemInv (({ s with tables := { s.tables with
        jobs := updateWhere (fun x => x.id == r.id) (Worker.lease now w) s.tables.jobs } } :
        System).grant (Worker.lease now w r)) := ⟨hwf, hrows, hfenced⟩
    cases lost with
    | true => exact hgrant
    | false =>
      refine hgrant.setWorker ?_
      intro job n stage heq
      cases heq
      exact ⟨Nat.lt_succ_self _, hsnap⟩

/-- Every step keeps the invariant. -/
theorem step_inv (s : System) (a : Time × Action) (h : SystemInv s) : SystemInv (step s a) := by
  obtain ⟨now, act⟩ := a
  cases act with
  | external op =>
    rw [step]
    split
    · rename_i hext
      refine h.exec now ?_ ?_
      · rintro w rl rfl
        simp [External] at hext
      · rintro w st rfl
        simp [External] at hext
    · exact h
  | lease w rowLocked lost =>
    cases hw : s.workers w with
    | idle => exact h.lease now rowLocked lost hw
    | working job n stage =>
      simp only [step, hw]
      exact h
  | write w run =>
    rw [step]
    split
    · rename_i job n hw
      exact (h.outcome now (Issues.main run hw)).written hw rfl
    · exact h
  | writeFails w =>
    rw [step]
    split
    · rename_i job n hw
      exact h.written hw rfl
    · exact h
  | recover w rec_ backoffMs =>
    rw [step]
    split
    · rename_i job n stage hw
      exact (h.outcome now (Issues.recovery rec_ backoffMs hw)).idle w
    · exact h
  | recoverFails w => exact h.idle w
  | finish w =>
    rw [step]
    split
    · exact h.idle w
    · exact h
  | drain w =>
    rw [step]
    split
    · exact h.exec now (by simp) (by simp)
    · exact h
  | crash w => exact h.idle w

theorem reach_inv (acts : List (Time × Action)) : SystemInv (reach acts) := by
  rw [reach]
  exact foldl_invariant SystemInv step_inv systemInv_init acts

/-! ## Lease fencing -/

/-- The attempts of a statement that fits a row are in the range of the
column. -/
theorem Statement.Fits.inRange {st : Statement} {r : JobRow} (h : st.Fits r)
    {trail : List EventStatus} (hb : Budget r trail) (hl : r.status = .leased) :
    st.inRange = true := by
  have hspare := hb.spare (by simp [hl])
  have hmax := hb.fits
  have hatt := hb.attempts
  obtain ⟨hsound, hjob, _⟩ := h
  cases st with
  | success job d => rfl
  | terminal job kind attempts d =>
    cases kind <;>
      simp only [Statement.Sound, Statement.job] at hsound hjob <;>
      simp only [Statement.inRange, int4, Bool.and_eq_true, decide_eq_true_eq] <;>
      omega
  | retry job attempts backoffMs d =>
    simp only [Statement.Sound, Statement.job] at hsound hjob
    simp only [Statement.inRange, int4, Bool.and_eq_true, decide_eq_true_eq]
    omega

/-- An outcome statement never leaves a row leased. -/
theorem Statement.set_status (st : Statement) (now : Time) (r : JobRow) :
    (st.set now r).status ≠ .leased := by
  cases st with
  | success => simp [Statement.set, setSuccess]
  | terminal _ kind => cases kind <;> simp [Statement.set, setTerminal, TerminalKind.jobStatus]
  | retry => simp [Statement.set, setRetry]

/-- A statement of a worker that holds its lease rewrites the row and inserts
one event. -/
theorem SystemInv.exec_held {s : System} (h : SystemInv s) {w : String} {n : Nat} {st : Statement}
    (hst : Issues s w n st) (now : Time) (hl : LeasedUnder s st.job.id n) :
    st.inRange = true ∧ ∃ r ∈ s.tables.jobs, r.id = st.job.id ∧ r.status = .leased ∧
      st.exec s.tables now w =
        (({ s.tables with
            jobs := updateWhere (fun x => x.id == r.id) (st.set now) s.tables.jobs } :
          Tables).insertEvent now r.traceId r.id st.event st.detail, 1) := by
  obtain ⟨r, hr, hid, hstatus, hlast⟩ := hl
  have hg : leaseGuard st.job.id w r = true := (h.guard_iff hst hr).mpr ⟨hid, hstatus, hlast⟩
  have hrange := (h.fits hst hr hg).inRange (h.rows r hr) hstatus
  refine ⟨hrange, r, hr, hid, hstatus, ?_⟩
  rw [← hid] at hg
  rw [st.exec_eq, if_pos hrange, ← hid, guardedWrite_eq h.wf hr hg]

/-- A statement of a worker that has lost its lease does nothing. -/
theorem SystemInv.exec_lost {s : System} (h : SystemInv s) {w : String} {n : Nat} {st : Statement}
    (hst : Issues s w n st) (now : Time) (hl : ¬LeasedUnder s st.job.id n) :
    st.exec s.tables now w = (s.tables, 0) := by
  rw [st.exec_eq]
  split
  · refine guardedWrite_eq_self fun r hr => ?_
    rw [Bool.eq_false_iff]
    intro hg
    obtain ⟨hid, hstatus, hlast⟩ := (h.guard_iff hst hr).mp hg
    exact hl ⟨r, hr, hid, hstatus, hlast⟩
  · rfl

/-- Lease fencing.  In every state that a run reaches, an outcome statement
that a worker issues for the snapshot of lease `n` rewrites the row and
inserts its event if the row is leased under lease `n`, and changes nothing
in either table if it is not. -/
theorem lease_fencing (acts : List (Time × Action)) (w : String) (n : Nat) (st : Statement)
    (hst : Issues (reach acts) w n st) (now : Time) :
    (LeasedUnder (reach acts) st.job.id n →
      ∃ r ∈ (reach acts).tables.jobs, r.id = st.job.id ∧ st.set now r ≠ r ∧
        (st.exec (reach acts).tables now w).1.jobs =
          updateWhere (fun x => x.id == r.id) (st.set now) (reach acts).tables.jobs ∧
        ∃ e, (st.exec (reach acts).tables now w).1.events = (reach acts).tables.events ++ [e] ∧
          e.jobId = r.id ∧ e.status = st.event ∧ e.detail = st.detail) ∧
      (¬LeasedUnder (reach acts) st.job.id n →
        (st.exec (reach acts).tables now w).1 = (reach acts).tables) := by
  have hinv := reach_inv acts
  generalize reach acts = s at hst hinv ⊢
  constructor
  · intro hheld
    obtain ⟨-, r, hr, hid, hl, hexec⟩ := hinv.exec_held hst now hheld
    have hne : st.set now r ≠ r := by
      intro heq
      have hstatus := st.set_status now r
      rw [heq] at hstatus
      exact hstatus hl
    rw [hexec]
    exact ⟨r, hr, hid, hne, rfl, _, rfl, rfl, rfl, rfl⟩
  · intro hnot
    rw [hinv.exec_lost hst now hnot]

/-- A job that is leased by `pod-w0`, swept after six minutes, and leased again
by `pod-w1`. -/
def releaseRun : List (Time × Action) :=
  [(0, .external (.snifferEnqueue ⟨"images-1", "a.png", "b.png", "localfs", "localfs"⟩)),
    (0, .lease "pod-w0" [] false), (360000000, .external (.sweep ⟨0⟩ true)),
    (360000000, .lease "pod-w1" [] false)]

/-- The row of `releaseRun` under its first lease. -/
def firstLease : Job :=
  ⟨1, "images-1", "a.png", "b.png", "localfs", "localfs", "{}", .leased, 0, 5, some 0,
    some "pod-w0", 0, 0, 0⟩

/-- The first worker of `releaseRun` still holds its snapshot, and its late
write changes nothing. -/
theorem lease_fencing_released :
    Issues (reach releaseRun) "pod-w0" 1 (recoveryWrite firstLease [] 2000) ∧
      ¬LeasedUnder (reach releaseRun) 1 1 ∧
      ((recoveryWrite firstLease [] 2000).exec (reach releaseRun).tables 370000000 "pod-w0").1 =
        (reach releaseRun).tables := by
  have hw : (reach releaseRun).workers "pod-w0" = .working firstLease 1 .running := by decide
  have hst : Issues (reach releaseRun) "pod-w0" 1 (recoveryWrite firstLease [] 2000) :=
    Issues.recovery [] 2000 hw
  have hlast : (reach releaseRun).lastLease 1 ≠ 1 := by decide
  have hnot : ¬LeasedUnder (reach releaseRun) 1 1 := fun ⟨_, _, _, _, hn⟩ => hlast hn
  exact ⟨hst, hnot, (lease_fencing releaseRun "pod-w0" 1 _ hst 370000000).2 hnot⟩

/-! ## The retry budget -/

/-- A row that is in the queue can be taken up again: a pending row is due at
some time, and the sweeper finds a leased one at some time. -/
def Recoverable (r : JobRow) : Prop :=
  (∃ t, ∀ now, t ≤ now → leasable now [] r = true) ∨
    ∀ cfg : SweeperConfig, ∃ t, ∀ now, t ≤ now → expired now cfg.thresholdSeconds r = true

theorem Budget.recoverable {r : JobRow} {trail : List EventStatus} (h : Budget r trail)
    (hq : r.status.Terminal = false) : Recoverable r := by
  cases hs : r.status with
  | pending =>
    refine Or.inl ⟨r.nextRunAt, fun now hnow => ?_⟩
    simp [leasable, hs, hnow]
  | leased =>
    obtain ⟨at_, hat⟩ := Option.isSome_iff_exists.mp (h.leased hs).2
    refine Or.inr fun cfg => ⟨at_ + secondsInterval cfg.thresholdSeconds + 1, fun now hnow => ?_⟩
    have hlt : at_ < now - secondsInterval cfg.thresholdSeconds :=
      Int.lt_sub_right_of_add_lt (Int.lt_of_add_one_le hnow)
    simp [expired, hs, hat, hlt]
  | succeeded => simp [hs, JobStatus.Terminal] at hq
  | skipped => simp [hs, JobStatus.Terminal] at hq
  | dead => simp [hs, JobStatus.Terminal] at hq

/-- The retry budget.  In every state that a run reaches, a row is leased
exactly when both lock columns are set, and a row in the queue can be taken up
again; the attempts of a row are the number of its fail and dead events; and
they stay below `max_attempts` until the row is dead. -/
theorem retry_budget (acts : List (Time × Action)) :
    ∀ r ∈ (reach acts).tables.jobs,
      ((r.status = .leased ↔ r.lockedBy ≠ none ∧ r.lockedAt ≠ none) ∧
        (r.status.Terminal = false → Recoverable r)) ∧
      r.attempts = ((reach acts).tables.trail r.id).count .fail +
        ((reach acts).tables.trail r.id).count .dead ∧
      (r.status ≠ .dead → 0 ≤ r.attempts ∧ r.attempts < r.maxAttempts) ∧
      (r.status = .dead → 1 ≤ r.attempts ∧ r.attempts ≤ r.maxAttempts) := by
  intro r hr
  have h := (reach_inv acts).rows r hr
  have hatt := h.attempts
  refine ⟨⟨⟨fun hl => ?_, fun hlock => ?_⟩, h.recoverable⟩, hatt, fun hs => ?_, h.spent⟩
  · obtain ⟨hby, hat⟩ := h.leased hl
    exact ⟨Option.isSome_iff_ne_none.mp hby, Option.isSome_iff_ne_none.mp hat⟩
  · by_contra hs
    exact hlock.1 (h.unlocked hs).1
  · exact ⟨by omega, h.spare hs⟩

/-- The row of `releaseRun` under its second lease. -/
def secondLease : Job :=
  { firstLease with
    lockedAt := some 360000000, lockedBy := some "pod-w1", updatedAt := 360000000 }

/-- The lost first lease of `releaseRun` is an expire event and costs no
attempt. -/
theorem retry_budget_released :
    secondLease ∈ (reach releaseRun).tables.jobs ∧
      (reach releaseRun).tables.trail 1 = [.expire] ∧
      secondLease.lockedBy ≠ none ∧ secondLease.attempts < secondLease.maxAttempts := by
  have hmem : secondLease ∈ (reach releaseRun).tables.jobs := by decide
  obtain ⟨⟨hleased, _⟩, _, hspare, _⟩ := retry_budget releaseRun secondLease hmem
  exact ⟨hmem, by decide, (hleased.mp rfl).1, (hspare (by decide)).2⟩

end ImgSync.Worker
