import ImgSync.Worker.Loop
import ImgSync.Worker.Report

/-!
# The retry callback

`Runner.OnRetry` is meant to fire once for every retry that the runner
schedules.  It is a field of the `Deps` that `processOne` builds for
`ProcessJob`, and `writeRetryOrDead` calls it when its statement has changed a
row.  The recovery of a panic calls `writeRetryOrDead` with `Deps` of its own,
which have no callback.

`issued` is the outcome statement of a step with the callback of its `Deps`.
`onRetry` is the call that follows, and `newFails` are the `fail` events that
the step inserts.  `silent` names the steps without a call by their path: a panic
is recovered with attempts left, or the answer of a retry of `ProcessJob` does not
arrive, while the row is still under the lease of the job (`silent_eq`).  `fails_eq`
counts all of them over a run.
-/

namespace ImgSync.Worker

open ImgSync.Lib ImgSync.Queue

/-- A step of the system.  Without `answered`, the worker does not learn what
its outcome statement has done: `Exec` returns an error, or the process dies. -/
structure Move where
  now : Time
  act : Action
  answered : Bool

/-- A call of `Runner.OnRetry`. -/
structure Retry where
  worker : String
  job : Nat
  stage : GoString
  deriving DecidableEq, Repr

/-- `detail["stage"].(string)`, the empty string for anything else. -/
def stageText : Detail → GoString
  | .payload _ => []
  | .fields kv =>
    match kv.lookup "stage" with
    | some (.str s) => s
    | some (.int _) | none => []

/-- The worker and the outcome statement of a step, and whether the `Deps` of
the statement have `OnRetry`.  The writes of a failed factory lookup have no
callback either, but they are never retries. -/
def issued (s : System) : Action → Option (String × Statement × Bool)
  | .write w run =>
    match s.workers w with
    | .working job _ .running => some (w, processOne job run, true)
    | _ => none
  | .recover w rec_ backoffMs =>
    match s.workers w with
    | .working job _ _ => some (w, recoveryWrite job rec_ backoffMs, false)
    | .idle => none
  | _ => none

/-- The statement is a retry that changes a row. -/
def Statement.reschedules (st : Statement) (t : Tables) (now : Time) (w : String) : Bool :=
  st.isRetry && st.inRange && decide (0 < (st.exec t now w).2)

/-- The call of `OnRetry` in a step, at the end of `writeRetryOrDead`. -/
def onRetry (s : System) (m : Move) : Option Retry :=
  match issued s m.act with
  | some (w, st, callback) =>
    if (m.answered && callback) && st.reschedules s.tables m.now w then
      some ⟨w, st.job.id, stageText st.detail⟩
    else none
  | none => none

/-- The `fail` events that a step inserts. -/
def newFails (s : System) (m : Move) : List EventRow :=
  ((step s (m.now, m.act)).tables.events.drop s.tables.events.length).filter
    fun e => e.status == .fail

/-- The worker and the job of the `fail` events that a worker inserts in a
step. -/
def stepFails (s : System) (m : Move) : List (String × Nat) :=
  match m.act.worker with
  | some w => (newFails s m).map fun e => (w, e.jobId)
  | none => []

/-- The system, the calls of `OnRetry` so far, and the worker and the job of
every `fail` event that a worker has inserted. -/
structure RetryLog where
  system : System
  calls : List Retry
  fails : List (String × Nat)

def logMove (o : RetryLog) (m : Move) : RetryLog where
  system := step o.system (m.now, m.act)
  calls := o.calls ++ (onRetry o.system m).toList
  fails := o.fails ++ stepFails o.system m

def logged (ms : List Move) : RetryLog := ms.foldl logMove ⟨System.init, [], []⟩

/-- The calls of one runner for one job.  `mine` are the names of its
workers. -/
def RetryLog.callsOf (o : RetryLog) (mine : String → Bool) (id : Nat) : Nat :=
  o.calls.countP fun c => mine c.worker && c.job == id

/-- The `fail` events that one runner has inserted for one job. -/
def RetryLog.failsOf (o : RetryLog) (mine : String → Bool) (id : Nat) : Nat :=
  o.fails.countP fun f => mine f.1 && f.2 == id

instance (s : System) (id n : Nat) : Decidable (LeasedUnder s id n) :=
  inferInstanceAs (Decidable (∃ r ∈ s.tables.jobs, _))

/-- The steps of the runner that reschedule the job without a call of `OnRetry`.  The
row has to be under the lease of the worker. -/
def silent (mine : String → Bool) (id : Nat) (s : System) (m : Move) : Bool :=
  match m.act with
  -- A panic is recovered, and the job has attempts left.
  | .recover w _ _ =>
    match s.workers w with
    | .working job n _ =>
      mine w && job.id == id && decide (LeasedUnder s id n) &&
        decide (job.attempts + 1 < job.maxAttempts)
    | .idle => false
  -- `ProcessJob` writes a retry, and the answer does not arrive.
  | .write w run =>
    match s.workers w with
    | .working job n .running =>
      mine w && job.id == id && decide (LeasedUnder s id n) && (processOne job run).isRetry &&
        !m.answered
    | _ => false
  | _ => false

/-! ## One step -/

section Step

variable {s : System} {m : Move}

/-- The statement of a step is one that its worker may issue, and it is all
that the step does to the tables. -/
theorem issued_spec {w : String} {st : Statement} {callback : Bool}
    (h : issued s m.act = some (w, st, callback)) :
    m.act.worker = some w ∧ (∃ n, Issues s w n st) ∧
      (step s (m.now, m.act)).tables = (st.exec s.tables m.now w).1 := by
  obtain ⟨now, act, answered⟩ := m
  cases act with
  | write w' run =>
    simp only [issued] at h
    split at h
    · rename_i job n hw
      obtain ⟨rfl, rfl, rfl⟩ : w' = w ∧ processOne job run = st ∧ true = callback := by
        simpa using h
      refine ⟨rfl, ⟨n, .main run hw⟩, ?_⟩
      simp only [step, hw]
      rfl
    · cases h
  | recover w' rec_ backoffMs =>
    simp only [issued] at h
    split at h
    · rename_i job n stage hw
      obtain ⟨rfl, rfl, rfl⟩ :
          w' = w ∧ recoveryWrite job rec_ backoffMs = st ∧ false = callback := by
        simpa using h
      refine ⟨rfl, ⟨n, .recovery rec_ backoffMs hw⟩, ?_⟩
      simp only [step, hw]
      rfl
    · cases h
  | _ => cases h

/-- A worker inserts events by its outcome statements only. -/
theorem events_of_not_issued {w : String} (hw : m.act.worker = some w)
    (h : issued s m.act = none) :
    (step s (m.now, m.act)).tables.events = s.tables.events := by
  obtain ⟨now, act, answered⟩ := m
  rw [step_tables_eq]
  cases act with
  | external op => cases hw
  | lease w' rowLocked lost =>
    simp only [operation]
    split
    · rfl
    · show (leaseJob s.tables now w' rowLocked).1.events = _
      unfold leaseJob
      split <;> rfl
  | write w' run | recover w' rec_ backoffMs =>
    simp only [operation]
    split
    · rename_i hw'
      simp only [issued, hw'] at h
      cases h
    · rfl
  | drain w' =>
    simp only [operation]
    split <;> rfl
  | writeFails w' | recoverFails w' | finish w' | crash w' => rfl

theorem Statement.event_eq_fail (st : Statement) : (st.event == .fail) = st.isRetry := by
  cases st with
  | terminal job kind attempts detail => cases kind <;> rfl
  | _ => rfl

/-- The `fail` event of a statement is there exactly when it is a retry that
changes a row. -/
theorem newFails_issued (hinv : SystemInv s) {w : String} {st : Statement} {callback : Bool}
    (h : issued s m.act = some (w, st, callback)) :
    (newFails s m).map EventRow.jobId =
      if st.reschedules s.tables m.now w then [st.job.id] else [] := by
  obtain ⟨-, ⟨n, hst⟩, htables⟩ := issued_spec h
  rw [newFails, htables]
  by_cases hl : LeasedUnder s st.job.id n
  · obtain ⟨hrange, r, -, hid, -, hexec⟩ := hinv.exec_held hst m.now hl
    have hres : st.reschedules s.tables m.now w = st.isRetry := by
      simp [Statement.reschedules, hrange, hexec]
    rw [hexec, hres, ← st.event_eq_fail, ← hid]
    simp only [Tables.insertEvent, List.drop_left, List.filter_singleton]
    cases st.event == EventStatus.fail <;> rfl
  · have hexec := hinv.exec_lost hst m.now hl
    have hres : st.reschedules s.tables m.now w = false := by
      simp [Statement.reschedules, hexec]
    rw [hexec, hres, List.drop_length]
    rfl

theorem newFails_not_issued {w : String} (hw : m.act.worker = some w)
    (h : issued s m.act = none) : newFails s m = [] := by
  rw [newFails, events_of_not_issued hw h, List.drop_length]
  rfl

/-- A statement of a worker changes a row exactly when the row is under its lease. -/
theorem reschedules_eq (hinv : SystemInv s) {w : String} {n : Nat} {st : Statement}
    (hst : Issues s w n st) (now : Time) :
    st.reschedules s.tables now w = (decide (LeasedUnder s st.job.id n) && st.isRetry) := by
  by_cases hl : LeasedUnder s st.job.id n
  · obtain ⟨hrange, r, -, -, -, hexec⟩ := hinv.exec_held hst now hl
    simp [Statement.reschedules, hrange, hexec, hl]
  · simp [Statement.reschedules, hinv.exec_lost hst now hl, hl]

theorem isRetry_recoveryWrite (job : Job) (rec_ : GoString) (backoffMs : Int) :
    (recoveryWrite job rec_ backoffMs).isRetry = decide (job.attempts + 1 < job.maxAttempts) := by
  rw [recoveryWrite, writeRetryOrDead]
  split
  · rename_i hle
    rw [decide_eq_false (not_lt.mpr hle)]
    rfl
  · rename_i hlt
    rw [decide_eq_true (not_le.mp hlt)]
    rfl

/-- The silent steps are those that schedule a retry of the job and do not call
`OnRetry`. -/
theorem silent_eq (hinv : SystemInv s) (mine : String → Bool) (id : Nat) :
    silent mine id s m =
      match issued s m.act with
      | some (w, st, callback) =>
        !(m.answered && callback) && st.reschedules s.tables m.now w && (mine w && st.job.id == id)
      | none => false := by
  obtain ⟨now, act, answered⟩ := m
  cases act with
  | write w run =>
    cases hw : s.workers w with
    | idle => simp only [silent, issued, hw]
    | working job n stage =>
      cases stage with
      | written => simp only [silent, issued, hw]
      | running =>
        have hres := reschedules_eq hinv (.main run hw) now
        rw [(processOne_sound job run).2] at hres
        simp only [silent, issued, hw, hres, (processOne_sound job run).2, Bool.and_true]
        by_cases hid : job.id = id
        · subst hid
          grind
        · rw [beq_false_of_ne hid]
          simp only [Bool.and_false, Bool.false_and]
  | recover w rec_ backoffMs =>
    cases hw : s.workers w with
    | idle => simp only [silent, issued, hw]
    | working job n stage =>
      have hjob : (recoveryWrite job rec_ backoffMs).job = job := (writeRetryOrDead_sound job _ _).2
      have hres := reschedules_eq hinv (.recovery rec_ backoffMs hw) now
      rw [hjob, isRetry_recoveryWrite] at hres
      simp only [silent, issued, hw, hres, hjob, Bool.and_false, Bool.not_false, Bool.true_and]
      by_cases hid : job.id = id
      · subst hid
        grind
      · rw [beq_false_of_ne hid]
        simp only [Bool.and_false, Bool.false_and]
  | _ => rfl

/-- A call of `OnRetry` has its event: the step inserts exactly one `fail`
event, for the job of the call. -/
theorem newFails_of_onRetry (hinv : SystemInv s) {r : Retry} (h : onRetry s m = some r) :
    m.act.worker = some r.worker ∧ (newFails s m).map EventRow.jobId = [r.job] := by
  simp only [onRetry] at h
  split at h
  · rename_i w st callback hissued
    obtain ⟨hfires, hr⟩ := Option.ite_none_right_eq_some.mp h
    obtain rfl := Option.some.inj hr
    simp only [Bool.and_eq_true] at hfires
    exact ⟨(issued_spec hissued).1, by rw [newFails_issued hinv hissued, if_pos hfires.2]⟩
  · cases h

end Step

/-! ## Whole runs -/

section Runs

variable {mine : String → Bool} {id : Nat}

theorem logged_inv (ms : List Move) : SystemInv (logged ms).system :=
  foldl_invariant (fun o : RetryLog => SystemInv o.system) (fun _ _ h => step_inv _ _ h)
    systemInv_init ms

theorem stepFails_eq {s : System} (hinv : SystemInv s) (m : Move) :
    stepFails s m =
      match issued s m.act with
      | some (w, st, _) => if st.reschedules s.tables m.now w then [(w, st.job.id)] else []
      | none => [] := by
  cases hissued : issued s m.act with
  | none =>
    unfold stepFails
    split
    · rename_i w hw
      rw [newFails_not_issued hw hissued]
      rfl
    · rfl
  | some entry =>
    obtain ⟨w, st, callback⟩ := entry
    have hids := congrArg (List.map (w, ·)) (newFails_issued hinv hissued)
    rw [List.map_map] at hids
    simp only [stepFails, (issued_spec hissued).1]
    refine hids.trans ?_
    split <;> rfl

/-- Every `fail` event of a step has its call, or the step is silent. -/
theorem countP_stepFails {s : System} (hinv : SystemInv s) (m : Move) :
    (stepFails s m).countP (fun f => mine f.1 && f.2 == id) =
      (onRetry s m).toList.countP (fun c => mine c.worker && c.job == id) +
        if silent mine id s m then 1 else 0 := by
  have hsilent : silent mine id s m = _ := silent_eq hinv mine id
  rw [stepFails_eq hinv]
  cases hissued : issued s m.act with
  | none => simp [onRetry, hissued, hsilent]
  | some entry =>
    obtain ⟨w, st, callback⟩ := entry
    simp only [onRetry, hissued] at hsilent ⊢
    rw [hsilent]
    cases st.reschedules s.tables m.now w with
    | false => simp
    | true =>
      cases m.answered && callback with
      | true => simp [List.countP_singleton]
      | false => simp [List.countP_singleton]

/-- The silent steps of a run. -/
def silentSteps (mine : String → Bool) (id : Nat) : RetryLog → List Move → Nat
  | _, [] => 0
  | o, m :: ms =>
    (if silent mine id o.system m then 1 else 0) + silentSteps mine id (logMove o m) ms

theorem silentSteps_eq_zero_iff {o : RetryLog} {ms : List Move} :
    silentSteps mine id o ms = 0 ↔
      AllSteps logMove (fun o m => silent mine id o.system m = false) o ms := by
  induction ms generalizing o with
  | nil => exact iff_of_true rfl trivial
  | cons m ms ih =>
    rw [silentSteps, Nat.add_eq_zero_iff, ih]
    show _ ↔ silent mine id o.system m = false ∧ _
    cases silent mine id o.system m <;> simp

/-- The `fail` events of a run are the calls and the silent steps. -/
theorem fails_eq {o : RetryLog} (hinv : SystemInv o.system) (ms : List Move) :
    (ms.foldl logMove o).failsOf mine id + o.callsOf mine id =
      o.failsOf mine id + (ms.foldl logMove o).callsOf mine id + silentSteps mine id o ms := by
  induction ms generalizing o with
  | nil => rfl
  | cons m ms ih =>
    have hrest := ih (o := logMove o m) (step_inv _ _ hinv)
    have hfails : (logMove o m).failsOf mine id = o.failsOf mine id +
        (stepFails o.system m).countP fun f => mine f.1 && f.2 == id :=
      List.countP_append
    have hcalls : (logMove o m).callsOf mine id = o.callsOf mine id +
        (onRetry o.system m).toList.countP fun c => mine c.worker && c.job == id :=
      List.countP_append
    have hstep : (stepFails o.system m).countP (fun f => mine f.1 && f.2 == id) = _ :=
      countP_stepFails hinv m
    rw [List.foldl_cons, silentSteps]
    omega

end Runs

/-- Calls of `OnRetry` against `fail` events, for any runner and job.  The
events that the runner has inserted are its calls and its silent steps: recovered
panics and unanswered retries of `ProcessJob`.  So the two numbers are the same
exactly when no step is silent.  Every call comes with the one event of its job. -/
theorem retries_counted (mine : String → Bool) (id : Nat) (ms : List Move) :
    (logged ms).failsOf mine id =
      (logged ms).callsOf mine id + silentSteps mine id ⟨System.init, [], []⟩ ms ∧
    ((logged ms).callsOf mine id = (logged ms).failsOf mine id ↔
      ∀ before m after, ms = before ++ m :: after →
        silent mine id (logged before).system m = false) ∧
    (∀ before m after, ms = before ++ m :: after → ∀ r, onRetry (logged before).system m = some r →
      m.act.worker = some r.worker ∧
        (newFails (logged before).system m).map EventRow.jobId = [r.job]) := by
  have hfails : (logged ms).failsOf mine id + 0 = 0 + (logged ms).callsOf mine id + _ :=
    fails_eq systemInv_init ms
  refine ⟨by omega, Iff.trans ?_ (silentSteps_eq_zero_iff.trans allSteps_iff),
    fun before m after _ r hr => newFails_of_onRetry (logged_inv before) hr⟩
  omega

/-- `pod-w0` takes the job of `releaseRun`. -/
def leasedMoves : List Move := (releaseRun.take 2).map fun a => ⟨a.1, a.2, true⟩

/-- The source cannot be opened for the moment. -/
def busyRun : JobRun := { goodRun with calls :=
  { goodRun.calls with opened := .error ⟨goString "connection refused", false, false⟩ } }

/-- A retry of `ProcessJob` is reported.  The retry that the recovery of a panic
schedules is not, and neither is one whose answer gets lost. -/
theorem retries_missed :
    (logged (leasedMoves ++ [⟨1000, .write "pod-w0" busyRun, true⟩])).calls =
      [⟨"pod-w0", 1, goString "open"⟩] ∧
    (logged (leasedMoves ++ [⟨1000, .write "pod-w0" busyRun, true⟩])).fails = [("pod-w0", 1)] ∧
    (logged (leasedMoves ++ [⟨1000, .recover "pod-w0" (goString "nil map") 2000, true⟩])).calls =
      [] ∧
    (logged (leasedMoves ++ [⟨1000, .recover "pod-w0" (goString "nil map") 2000, true⟩])).fails =
      [("pod-w0", 1)] ∧
    (logged (leasedMoves ++ [⟨1000, .write "pod-w0" busyRun, false⟩])).calls = [] ∧
    (logged (leasedMoves ++ [⟨1000, .write "pod-w0" busyRun, false⟩])).fails = [("pod-w0", 1)] := by
  decide

end ImgSync.Worker
