import ImgSync.Worker.Fencing

/-!
# Reported outcomes

`processOne` ends with `OnFinish(job, result)`.  The result is the label that
the outcome write returns (`internal/worker/process.go`), or the empty string,
which reports nothing.

The writes differ in what they look at.

* A retry reads `RowsAffected` and reports nothing for a lost lease.
* A success, a skip and a dead write look at the error of `Exec` only, so they
  report their result for a lost lease as well.
* The dead write of a failed factory lookup drops the error too and reports
  `dead` in any case.

`fires` is the report of a step, `Matched` says that the step has inserted the
event of the report, and `Backed` is the condition on the step under which it
has.  `OnFinish` changes nothing that another worker can see, so it is part of
the step of its write.  A process that dies in between makes a `quiet` step.
-/

namespace ImgSync.Worker

open ImgSync.Lib ImgSync.Queue

/-! ## The results -/

/-- The results of `OnFinish` that name an outcome. -/
inductive Result where
  | succeeded
  | skipped
  | dead
  | fail
  deriving DecidableEq, Repr

/-- The event that belongs to a result. -/
def Result.event : Result → EventStatus
  | .succeeded => .success
  | .skipped => .skip
  | .dead => .dead
  | .fail => .fail

def TerminalKind.result : TerminalKind → Result
  | .skipped => .skipped
  | .dead => .dead

/-- The result that a statement stands for. -/
def Statement.result : Statement → Result
  | .success _ _ => .succeeded
  | .terminal _ kind _ _ => kind.result
  | .retry _ _ _ _ => .fail

def Statement.isRetry : Statement → Bool
  | .retry _ _ _ _ => true
  | _ => false

theorem Statement.event_result (st : Statement) : st.result.event = st.event := by
  cases st with
  | success => rfl
  | terminal _ kind => cases kind <;> rfl
  | retry => rfl

/-- What becomes of a statement.  A statement whose answer is `lost` took
effect, but `Exec` returns an error. -/
inductive Reply where
  | done
  | lost
  | failed
  deriving DecidableEq, Repr

/-- `RowsAffected`, or `none` for an error of `Exec`. -/
def Statement.rowsAffected (st : Statement) (t : Tables) (now : Time) (w : String) :
    Reply → Option Nat
  | .done => if st.inRange then some (st.exec t now w).2 else none
  | .lost | .failed => none

/-- The label that `writeSuccess`, `writeTerminal` and `writeRetryOrDead` lead
to. -/
def Statement.label (st : Statement) : Option Nat → Option Result
  | none => none
  | some rows => if st.isRetry && rows == 0 then none else some st.result

def JobRun.factoryFails (run : JobRun) : Bool := run.sourceFor.isSome || run.transportFor.isSome

/-- The result that `processOne` reports when nothing panics. -/
def processOneLabel (job : Job) (run : JobRun) (rows : Option Nat) : Option Result :=
  if run.factoryFails then some .dead else (processOne job run).label rows

/-! ## The reports of a run -/

/-- A call of `OnFinish` for the snapshot of lease `lease`. -/
structure Report where
  worker : String
  job : Nat
  lease : Nat
  result : Result
  deriving DecidableEq, Repr

/-- A step, with what becomes of its outcome statement. -/
inductive Act where
  /-- A step that does not reach `OnFinish`. -/
  | quiet (a : Action)
  | write (w : String) (run : JobRun) (reply : Reply)
  | recover (w : String) (rec_ : GoString) (backoffMs : Int) (reply : Reply)

/-- The step of the system below. -/
def Act.action : Act → Action
  | .quiet a => a
  | .write w run reply => if reply = .failed then .writeFails w else .write w run
  | .recover w rec_ backoffMs reply =>
    if reply = .failed then .recoverFails w else .recover w rec_ backoffMs

/-- The call of `OnFinish` in a step. -/
def fires (s : System) : Time × Act → Option Report
  | (_, .quiet _) => none
  | (now, .write w run reply) =>
    match s.workers w with
    | .working job n .running =>
      (processOneLabel job run ((processOne job run).rowsAffected s.tables now w reply)).map
        (Report.mk w job.id n)
    | _ => none
  | (now, .recover w rec_ backoffMs reply) =>
    match s.workers w with
    | .working job n _ =>
      let st := recoveryWrite job rec_ backoffMs
      (st.label (st.rowsAffected s.tables now w reply)).map (Report.mk w job.id n)
    | .idle => none

/-- The system and the reports so far. -/
structure Observed where
  system : System
  reports : List Report

def observe (o : Observed) (a : Time × Act) : Observed where
  system := step o.system (a.1, a.2.action)
  reports := o.reports ++ (fires o.system a).toList

def observed (acts : List (Time × Act)) : Observed := acts.foldl observe ⟨System.init, []⟩

/-- Every report of the step has its event: the lease is held, and the step
inserts exactly the event of the result for the job. -/
def Matched (s : System) (a : Time × Act) : Prop :=
  ∀ r, fires s a = some r → LeasedUnder s r.job r.lease ∧
    ∃ e, (step s (a.1, a.2.action)).tables.events = s.tables.events ++ [e] ∧
      e.jobId = r.job ∧ e.status = r.result.event

/-- The condition on a step.  A success, skip or dead write that is answered
without an error comes from a worker that still holds its lease.  The write of
a failed factory lookup takes effect and comes from such a worker as well. -/
def Backed (s : System) : Time × Act → Prop
  | (_, .quiet _) => True
  | (_, .write w run reply) => ∀ job n, s.workers w = .working job n .running →
    if run.factoryFails then reply ≠ .failed ∧ LeasedUnder s job.id n
    else reply = .done → (processOne job run).inRange = true →
      (processOne job run).isRetry = false → LeasedUnder s job.id n
  | (_, .recover w rec_ backoffMs reply) => ∀ job n stage, s.workers w = .working job n stage →
    reply = .done → (recoveryWrite job rec_ backoffMs).inRange = true →
      (recoveryWrite job rec_ backoffMs).isRetry = false → LeasedUnder s job.id n

/-! ## Reports and events -/

/-- The event of a statement that was sent: it is there exactly when the
statement took effect under its lease. -/
theorem SystemInv.inserts_iff {s : System} (h : SystemInv s) {w : String} {n : Nat}
    {st : Statement} (hst : Issues s w n st) (now : Time) {reply : Reply} {t : Tables}
    (ht : t.events = if reply = .failed then s.tables.events
      else (st.exec s.tables now w).1.events) :
    (LeasedUnder s st.job.id n ∧ ∃ e, t.events = s.tables.events ++ [e] ∧ e.jobId = st.job.id ∧
      e.status = st.event) ↔ reply ≠ .failed ∧ LeasedUnder s st.job.id n := by
  constructor
  · rintro ⟨hl, e, he, -⟩
    refine ⟨?_, hl⟩
    rintro rfl
    rw [ht, if_pos rfl] at he
    exact absurd he.symm (by simp)
  · rintro ⟨hne, hl⟩
    obtain ⟨-, r, -, hid, -, hexec⟩ := h.exec_held hst now hl
    rw [if_neg hne, hexec] at ht
    exact ⟨hl, _, ht, hid, rfl⟩

/-- The label of a statement is right exactly when a success, skip or dead
write without an error is under its lease.  A retry is always right. -/
theorem SystemInv.label_iff {s : System} (h : SystemInv s) {w : String} {n : Nat}
    {st : Statement} (hst : Issues s w n st) (now : Time) {reply : Reply} {t : Tables}
    (ht : t.events = if reply = .failed then s.tables.events
      else (st.exec s.tables now w).1.events) :
    (∀ res, st.label (st.rowsAffected s.tables now w reply) = some res →
      LeasedUnder s st.job.id n ∧ ∃ e, t.events = s.tables.events ++ [e] ∧
        e.jobId = st.job.id ∧ e.status = res.event) ↔
      (reply = .done → st.inRange = true → st.isRetry = false → LeasedUnder s st.job.id n) := by
  constructor
  · rintro hall rfl hrange hretry
    refine (hall st.result ?_).1
    simp [Statement.rowsAffected, Statement.label, hrange, hretry]
  · intro hbacked res hlabel
    cases reply with
    | lost | failed => cases hlabel
    | done =>
      simp only [Statement.rowsAffected] at hlabel
      split at hlabel
      · rename_i hrange
        simp only [Statement.label] at hlabel
        split at hlabel
        · cases hlabel
        · rename_i hrows
          obtain rfl := Option.some.inj hlabel
          -- A retry that has changed a row was under its lease.
          have hl : LeasedUnder s st.job.id n := by
            cases hretry : st.isRetry with
            | false => exact hbacked rfl hrange hretry
            | true =>
              by_contra hlost
              rw [hretry, h.exec_lost hst now hlost] at hrows
              exact hrows rfl
          rw [st.event_result]
          exact (h.inserts_iff hst now ht).mpr ⟨by decide, hl⟩
      · cases hlabel

/-- The statement of a failed factory lookup. -/
theorem processOne_factoryFails (job : Job) {run : JobRun} (hf : run.factoryFails = true) :
    (processOne job run).event = .dead := by
  unfold processOne
  cases hsrc : run.sourceFor with
  | some e => rfl
  | none =>
    cases htr : run.transportFor with
    | some e => rfl
    | none => simp [JobRun.factoryFails, hsrc, htr] at hf

/-- A step whose report is a label for the snapshot of a lease. -/
theorem matched_iff_label {s : System} {a : Time × Act} {w : String} {job : Job} {n : Nat}
    {label : Option Result} (hfires : fires s a = label.map (Report.mk w job.id n)) :
    Matched s a ↔ ∀ res, label = some res → LeasedUnder s job.id n ∧
      ∃ e, (step s (a.1, a.2.action)).tables.events = s.tables.events ++ [e] ∧
        e.jobId = job.id ∧ e.status = res.event := by
  unfold Matched
  rw [hfires]
  constructor
  · rintro hall res rfl
    exact hall _ rfl
  · intro hall r hr
    obtain ⟨res, hres, rfl⟩ := Option.map_eq_some_iff.mp hr
    exact hall res hres

theorem SystemInv.matched_write_iff {s : System} (h : SystemInv s) {now : Time} {w : String}
    {run : JobRun} {reply : Reply} {job : Job} {n : Nat}
    (hw : s.workers w = .working job n .running) :
    Matched s (now, .write w run reply) ↔ Backed s (now, .write w run reply) := by
  have hst : Issues s w n (processOne job run) := .main run hw
  have hjob : (processOne job run).job = job := (processOne_sound job run).2
  have ht : (step s (now, (Act.write w run reply).action)).tables.events =
      if reply = .failed then s.tables.events
      else ((processOne job run).exec s.tables now w).1.events := by
    simp only [Act.action]
    split <;> simp [step, hw, System.setWorker, System.exec, Queue.exec]
  have hfires : fires s (now, .write w run reply) =
      (processOneLabel job run ((processOne job run).rowsAffected s.tables now w reply)).map
        (Report.mk w job.id n) := by
    simp only [fires, hw]
  have hbacked : Backed s (now, .write w run reply) ↔
      if run.factoryFails then reply ≠ .failed ∧ LeasedUnder s job.id n
      else reply = .done → (processOne job run).inRange = true →
        (processOne job run).isRetry = false → LeasedUnder s job.id n := by
    simp only [Backed, hw, WorkerState.working.injEq, and_true]
    exact ⟨fun hall => hall job n ⟨rfl, rfl⟩, fun hb _ _ heq => heq.1 ▸ heq.2 ▸ hb⟩
  rw [matched_iff_label hfires, hbacked]
  cases hf : run.factoryFails with
  | true =>
    have hdead := processOne_factoryFails job hf
    have hins := h.inserts_iff hst now ht
    rw [hjob, hdead] at hins
    simp only [processOneLabel, hf, if_true]
    rw [← hins]
    exact ⟨fun hall => hall _ rfl, fun hx res hres => Option.some.inj hres ▸ hx⟩
  | false =>
    have hlabel := h.label_iff hst now ht
    rw [hjob] at hlabel
    simpa only [processOneLabel, hf, Bool.false_eq_true, if_false] using hlabel

theorem SystemInv.matched_recover_iff {s : System} (h : SystemInv s) {now : Time} {w : String}
    {rec_ : GoString} {backoffMs : Int} {reply : Reply} {job : Job} {n : Nat} {stage : Stage}
    (hw : s.workers w = .working job n stage) :
    Matched s (now, .recover w rec_ backoffMs reply) ↔
      Backed s (now, .recover w rec_ backoffMs reply) := by
  have hst : Issues s w n (recoveryWrite job rec_ backoffMs) := .recovery rec_ backoffMs hw
  have hjob : (recoveryWrite job rec_ backoffMs).job = job := (writeRetryOrDead_sound job _ _).2
  have ht : (step s (now, (Act.recover w rec_ backoffMs reply).action)).tables.events =
      if reply = .failed then s.tables.events
      else ((recoveryWrite job rec_ backoffMs).exec s.tables now w).1.events := by
    simp only [Act.action]
    split <;> simp [step, hw, System.setWorker, System.exec, Queue.exec]
  have hfires : fires s (now, .recover w rec_ backoffMs reply) =
      ((recoveryWrite job rec_ backoffMs).label
        ((recoveryWrite job rec_ backoffMs).rowsAffected s.tables now w reply)).map
          (Report.mk w job.id n) := by
    simp only [fires, hw]
  have hbacked : Backed s (now, .recover w rec_ backoffMs reply) ↔
      (reply = .done → (recoveryWrite job rec_ backoffMs).inRange = true →
        (recoveryWrite job rec_ backoffMs).isRetry = false → LeasedUnder s job.id n) := by
    simp only [Backed, hw, WorkerState.working.injEq]
    exact ⟨fun hall => hall job n stage ⟨rfl, rfl, rfl⟩,
      fun hb _ _ _ heq => heq.1 ▸ heq.2.1 ▸ hb⟩
  have hlabel := h.label_iff hst now ht
  rw [hjob] at hlabel
  rw [matched_iff_label hfires, hbacked]
  exact hlabel

/-- In a state of a run, the report of a step has its event exactly under the
condition. -/
theorem SystemInv.matched_iff {s : System} (h : SystemInv s) (a : Time × Act) :
    Matched s a ↔ Backed s a := by
  obtain ⟨now, act⟩ := a
  cases act with
  | quiet a =>
    refine ⟨fun _ => trivial, fun _ r hr => ?_⟩
    cases hr
  | write w run reply =>
    cases hw : s.workers w with
    | idle => simp [Matched, Backed, fires, hw]
    | working job n stage =>
      cases stage with
      | written => simp [Matched, Backed, fires, hw]
      | running => exact h.matched_write_iff hw
  | recover w rec_ backoffMs reply =>
    cases hw : s.workers w with
    | idle => simp [Matched, Backed, fires, hw]
    | working job n stage => exact h.matched_recover_iff hw

/-! ## Whole runs -/

/-- Whether the step is the `DELETE` of the retention job. -/
def Act.deletes : Act → Prop
  | .quiet (.external op) => op.IsRetention
  | _ => False

theorem observed_system (acts : List (Time × Act)) :
    (observed acts).system = reach (acts.map fun a => (a.1, a.2.action)) := by
  unfold observed reach
  generalize System.init = s
  generalize ([] : List Report) = reports
  induction acts generalizing s reports with
  | nil => rfl
  | cons a acts ih => exact ih _ _

theorem observed_inv (acts : List (Time × Act)) : SystemInv (observed acts).system := by
  rw [observed_system]
  exact reach_inv _

/-- Without a delete, a step only appends events. -/
theorem SystemInv.events_grow {s : System} (h : SystemInv s) {a : Time × Action}
    (hdel : ∀ op, a.2 = .external op → ¬op.IsRetention) :
    ∃ evs, (step s a).tables.events = s.tables.events ++ evs := by
  obtain ⟨now, act⟩ := a
  rw [step_tables_eq]
  cases hop : operation s act with
  | none => exact ⟨[], (List.append_nil _).symm⟩
  | some op =>
    obtain ⟨d⟩ := exec_delta h.wf now (operation_kept hdel hop)
    exact ⟨d.evs, d.events⟩

/-- The reports with one result, against the events of its kind. -/
def Counted (o : Observed) : Prop :=
  ∀ res, (o.reports.map Report.result).count res ≤
    (o.system.tables.events.map EventRow.status).count res.event

theorem Counted.observe {o : Observed} (h : Counted o) (hinv : SystemInv o.system)
    {a : Time × Act} (hdel : ¬a.2.deletes) (hmatched : Matched o.system a) :
    Counted (observe o a) := by
  intro res
  have hres := h res
  show ((o.reports ++ (fires o.system a).toList).map Report.result).count res ≤
    ((step o.system (a.1, a.2.action)).tables.events.map EventRow.status).count res.event
  cases hf : fires o.system a with
  | none =>
    have hgrow : ∃ evs, (step o.system (a.1, a.2.action)).tables.events =
        o.system.tables.events ++ evs := by
      refine hinv.events_grow fun op hop => ?_
      obtain ⟨now, act⟩ := a
      cases act with
      | quiet b =>
        change b = .external op at hop
        subst hop
        exact hdel
      | write w run reply =>
        simp only [Act.action] at hop
        split at hop <;> cases hop
      | recover w rec_ backoffMs reply =>
        simp only [Act.action] at hop
        split at hop <;> cases hop
    obtain ⟨evs, hevs⟩ := hgrow
    rw [hevs, Option.toList_none, List.append_nil, List.map_append, List.count_append]
    exact hres.trans (Nat.le_add_right _ _)
  | some r =>
    obtain ⟨-, e, hevs, -, hstatus⟩ := hmatched r hf
    rw [hevs, Option.toList_some, List.map_append, List.map_append, List.count_append,
      List.count_append]
    refine Nat.add_le_add hres ?_
    simp only [List.map_singleton, hstatus, List.count_singleton]
    by_cases heq : r.result = res
    · rw [heq]
      simp
    · simp [heq]

/-- Every step of the run meets the condition. -/
def BackedRun (acts : List (Time × Act)) : Prop :=
  ∀ before a after, acts = before ++ a :: after → Backed (observed before).system a

/-- Every report of the run has its event. -/
def MatchedRun (acts : List (Time × Act)) : Prop :=
  ∀ before a after, acts = before ++ a :: after → Matched (observed before).system a

theorem matchedRun_iff (acts : List (Time × Act)) : MatchedRun acts ↔ BackedRun acts := by
  have hstep : ∀ before a, Matched (observed before).system a ↔ Backed (observed before).system a :=
    fun before a => (observed_inv before).matched_iff a
  exact ⟨fun h before a after heq => (hstep before a).mp (h before a after heq),
    fun h before a after heq => (hstep before a).mpr (h before a after heq)⟩

theorem counted_observed {acts : List (Time × Act)} (hmatched : MatchedRun acts)
    (hdel : ∀ a ∈ acts, ¬a.2.deletes) : Counted (observed acts) := by
  have hsteps : AllSteps Worker.observe (fun o a => Matched o.system a ∧ ¬a.2.deletes)
      ⟨System.init, []⟩ acts := by
    refine allSteps_iff.mpr fun before a after heq => ⟨hmatched before a after heq, hdel a ?_⟩
    rw [heq]
    exact List.mem_append_right _ List.mem_cons_self
  refine (foldl_all (fun o => SystemInv o.system ∧ Counted o) ?_ ⟨systemInv_init, ?_⟩ hsteps).2
  · rintro o a ⟨hinv, hcount⟩ ⟨hmatch, hnodel⟩
    exact ⟨step_inv _ _ hinv, hcount.observe hinv hnodel hmatch⟩
  · exact fun res => Nat.le_refl _

/-- Reports and events.  Every report of a run has its event exactly when no
success, skip or dead write is answered without an error after the lease was
lost, and no write of a failed factory lookup fails or comes after the lease
was lost.  Then, as long as nothing is deleted, no result is reported more
often than its event is in the table. -/
theorem reports_backed (acts : List (Time × Act)) :
    (MatchedRun acts ↔ BackedRun acts) ∧
      (BackedRun acts → (∀ a ∈ acts, ¬a.2.deletes) → ∀ res,
        ((observed acts).reports.map Report.result).count res ≤
          ((observed acts).system.tables.events.map EventRow.status).count res.event) :=
  ⟨matchedRun_iff acts, fun hbacked hdel =>
    counted_observed ((matchedRun_iff acts).mpr hbacked) hdel⟩

/-- A transfer of seven bytes that goes well. -/
def goodRun : JobRun :=
  ⟨none, none, ⟨.ok 7, .ok (7, goString "ab"), 7, none, 12, 0⟩⟩

/-- `pod-w0` takes the job of `releaseRun`. -/
def leased : List (Time × Act) := (releaseRun.take 2).map fun a => (a.1, .quiet a.2)

/-- A success in time is reported once, and it has its event. -/
theorem reports_backed_in_time :
    BackedRun (leased ++ [(1000, .write "pod-w0" goodRun .done)]) ∧
    ((observed (leased ++ [(1000, .write "pod-w0" goodRun .done)])).reports.map
      Report.result).count .succeeded = 1 ∧
    1 ≤ ((observed (leased ++ [(1000, .write "pod-w0" goodRun .done)])).system.tables.events.map
      EventRow.status).count .success := by
  have hw : (observed leased).system.workers "pod-w0" = .working firstLease 1 .running := by decide
  have hheld : LeasedUnder (observed leased).system 1 1 :=
    ⟨firstLease, by decide, rfl, rfl, by decide⟩
  have hlast : Backed (observed leased).system (1000, .write "pod-w0" goodRun .done) := by
    intro job n hjob
    obtain ⟨rfl, rfl, -⟩ := WorkerState.working.inj (hw.symm.trans hjob)
    exact fun _ _ _ => hheld
  have hsteps : AllSteps observe (fun o a => Backed o.system a) ⟨System.init, []⟩
      (leased ++ [(1000, .write "pod-w0" goodRun .done)]) := ⟨trivial, trivial, hlast, trivial⟩
  have hbacked : BackedRun (leased ++ [(1000, .write "pod-w0" goodRun .done)]) :=
    allSteps_iff.mp hsteps
  refine ⟨hbacked, by decide, (reports_backed _).2 hbacked ?_ .succeeded⟩
  intro a ha
  simp only [leased, releaseRun, List.take, List.map_cons, List.map_nil, List.cons_append,
    List.nil_append, List.mem_cons, List.not_mem_nil, or_false] at ha
  rcases ha with rfl | rfl | rfl <;> exact id

/-- No transport for the protocol of the job. -/
def noTransport : JobRun :=
  { goodRun with transportFor := some ⟨goString "no transport", false, false⟩ }

/-- The first worker of `releaseRun` finishes after its lease was lost. -/
def lateSuccess : List (Time × Act) :=
  releaseRun.map (fun a => (a.1, .quiet a.2)) ++ [(370000000, .write "pod-w0" goodRun .done)]

/-- The write of a failed factory lookup fails. -/
def failedWrite : List (Time × Act) := leased ++ [(1000, .write "pod-w0" noTransport .failed)]

/-- Both are reported, and neither has an event. -/
theorem reports_without_event :
    (observed lateSuccess).reports = [⟨"pod-w0", 1, 1, .succeeded⟩] ∧
    (observed lateSuccess).system.tables.trail 1 = [.expire] ∧ ¬MatchedRun lateSuccess ∧
    (observed failedWrite).reports = [⟨"pod-w0", 1, 1, .dead⟩] ∧
    (observed failedWrite).system.tables.events = [] ∧ ¬MatchedRun failedWrite := by
  refine ⟨by decide, by decide, ?_, by decide, by decide, ?_⟩
  · intro hmatched
    obtain ⟨⟨_, _, _, _, hlast⟩, -⟩ := hmatched (releaseRun.map fun a => (a.1, .quiet a.2)) _ [] rfl
      ⟨"pod-w0", 1, 1, .succeeded⟩ (by decide)
    exact absurd hlast (by decide)
  · intro hmatched
    obtain ⟨-, e, hevents, -⟩ := hmatched leased _ [] rfl ⟨"pod-w0", 1, 1, .dead⟩ (by decide)
    have hlen := congrArg List.length hevents
    rw [List.length_append, List.length_singleton] at hlen
    exact absurd hlen (by decide)

end ImgSync.Worker
