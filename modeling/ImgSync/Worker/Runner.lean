import ImgSync.Lib.Run
import ImgSync.Queue.Ops

/-!
# Workers and the queue

The worker loop of `internal/worker/runner.go` around the two tables.  A
worker goroutine is known to the database by its `locked_by` string, and no
two goroutines share one, so the state of the workers is a function of that
string.  A worker is sequential: it leases, runs `processOne` for the
snapshot that it got, and comes back to the top of its loop.

`processOne` issues one outcome statement, and a second one when it recovers
a panic.  A panic can come after the first statement too, from a callback or
from the deferred close of the source, so the recovery write is possible in
both stages of a job.

A statement takes effect within its call or not at all.  A call can still
report an error for a statement that took effect.  For a lease this loses the
snapshot, which is the `lost` flag below; an outcome write is not repeated,
so there the report makes no difference.

The ghost part numbers the leases.  Every lease that the database grants gets
a fresh number, and `lastLease` is the number of the last lease of a row.  A
row becomes leased by a lease only, so a leased row is held under its last
lease.
-/

namespace ImgSync.Worker

open ImgSync.Lib ImgSync.Queue

/-- Whether `processOne` has issued its first outcome statement. -/
inductive Stage where
  | running
  | written
  deriving DecidableEq, Repr

/-- A worker goroutine: at the top of its loop, or inside `processOne` with
the snapshot of the lease `lease`. -/
inductive WorkerState where
  | idle
  | working (job : Job) (lease : Nat) (stage : Stage)
  deriving DecidableEq

/-- The database, the workers by their `locked_by` string, and the ghost
numbers of the leases. -/
structure System where
  tables : Tables
  workers : String → WorkerState
  lastLease : Nat → Nat
  nextLease : Nat

/-- No job and no worker at work. -/
def System.init : System where
  tables := Tables.empty
  workers := fun _ => .idle
  lastLease := fun _ => 0
  nextLease := 1

/-- The operations that are not issued by a worker loop. -/
def External : Op → Bool
  | .enqueue _ | .snifferEnqueue _ | .enqueueBatch _ | .sweep _ _ | .retention _ _ _
  | .rolledBack _ _ => true
  | .leaseJob _ _ | .outcome _ _ | .drainLease _ => false

/-- One step of a worker or of its surroundings. -/
inductive Action where
  /-- An enqueue, a sweep or a retention run. -/
  | external (op : Op)
  /-- `LeaseJob`.  When the answer is `lost`, the worker sees an error. -/
  | lease (w : String) (rowLocked : List Nat) (lost : Bool)
  /-- The outcome statement of `processOne`. -/
  | write (w : String) (run : JobRun)
  /-- The outcome statement of `processOne` fails. -/
  | writeFails (w : String)
  /-- The recovery write after a panic. -/
  | recover (w : String) (rec_ : GoString) (backoffMs : Int)
  /-- The recovery write fails. -/
  | recoverFails (w : String)
  /-- `processOne` returns. -/
  | finish (w : String)
  /-- The loop ends, and `drainLease` runs. -/
  | drain (w : String)
  /-- The process of the worker dies, and a new one takes its name. -/
  | crash (w : String)

/-- The tables after an operation of a worker. -/
def System.exec (s : System) (now : Time) (op : Op) : System :=
  { s with tables := Queue.exec s.tables now op }

def System.setWorker (s : System) (w : String) (ws : WorkerState) : System :=
  { s with workers := Function.update s.workers w ws }

/-- A lease that the database grants: the row gets a fresh lease number. -/
def System.grant (s : System) (job : Job) : System :=
  { s with
    lastLease := Function.update s.lastLease job.id s.nextLease
    nextLease := s.nextLease + 1 }

/-- One step at database time `now`.  A step that its worker cannot take
leaves the state alone. -/
def step (s : System) : Time × Action → System
  | (now, .external op) => if External op then s.exec now op else s
  | (now, .lease w rowLocked lost) =>
    match s.workers w with
    | .working _ _ _ => s
    | .idle =>
      let s' := s.exec now (.leaseJob w rowLocked)
      match (leaseJob s.tables now w rowLocked).2 with
      | none => s'
      | some job =>
        let s'' := s'.grant job
        if lost then s'' else s''.setWorker w (.working job s.nextLease .running)
  | (now, .write w run) =>
    match s.workers w with
    | .working job n .running =>
      (s.exec now (.outcome w (processOne job run))).setWorker w (.working job n .written)
    | _ => s
  | (_, .writeFails w) =>
    match s.workers w with
    | .working job n .running => s.setWorker w (.working job n .written)
    | _ => s
  | (now, .recover w rec_ backoffMs) =>
    match s.workers w with
    | .working job _ _ =>
      (s.exec now (.outcome w (recoveryWrite job rec_ backoffMs))).setWorker w .idle
    | .idle => s
  | (_, .recoverFails w) => s.setWorker w .idle
  | (_, .finish w) =>
    match s.workers w with
    | .working _ _ .written => s.setWorker w .idle
    | _ => s
  | (now, .drain w) =>
    match s.workers w with
    | .idle => s.exec now (.drainLease w)
    | .working _ _ _ => s
  | (_, .crash w) => s.setWorker w .idle

/-- The state that a run reaches. -/
def reach (acts : List (Time × Action)) : System := acts.foldl step System.init

/-- The operation that a step runs on the tables. -/
def operation (s : System) : Action → Option Op
  | .external op => if External op then some op else none
  | .lease w rowLocked _ =>
    match s.workers w with
    | .working _ _ _ => none
    | .idle => some (.leaseJob w rowLocked)
  | .write w run =>
    match s.workers w with
    | .working job _ .running => some (.outcome w (processOne job run))
    | _ => none
  | .recover w rec_ backoffMs =>
    match s.workers w with
    | .working job _ _ => some (.outcome w (recoveryWrite job rec_ backoffMs))
    | .idle => none
  | .drain w =>
    match s.workers w with
    | .idle => some (.drainLease w)
    | .working _ _ _ => none
  | .writeFails _ | .recoverFails _ | .finish _ | .crash _ => none

/-- A step touches the tables by its operation only. -/
theorem step_tables_eq (s : System) (now : Time) (a : Action) :
    (step s (now, a)).tables =
      ((operation s a).map (Queue.exec s.tables now)).getD s.tables := by
  cases a with
  | external op =>
    simp only [step, operation]
    split <;> rfl
  | lease w rowLocked lost =>
    cases hw : s.workers w with
    | working job n stage => simp only [step, operation, hw, Option.map_none, Option.getD_none]
    | idle =>
      simp only [step, operation, hw, Option.map_some, Option.getD_some]
      split
      · rfl
      · split <;> rfl
  | write w run | recover w rec_ backoffMs | drain w | finish w | writeFails w =>
    simp only [step, operation]
    split <;> rfl
  | recoverFails w | crash w => rfl

/-- A worker deletes nothing. -/
theorem operation_kept {s : System} {a : Action}
    (hdel : ∀ op, a = .external op → ¬op.IsRetention) {op : Op} (hop : operation s a = some op) :
    ¬op.IsRetention := by
  cases a with
  | external o =>
    simp only [operation, Option.ite_none_right_eq_some, Option.some.injEq] at hop
    exact hop.2 ▸ hdel o rfl
  | lease w rowLocked lost | write w run | recover w rec_ backoffMs | drain w =>
    simp only [operation] at hop
    split at hop <;> cases hop
    exact id
  | writeFails w | recoverFails w | finish w | crash w => cases hop

/-- The outcome statements that worker `w` may issue in its present stage for
the snapshot of lease `n`. -/
inductive Issues (s : System) (w : String) (n : Nat) : Statement → Prop where
  | main {job : Job} (run : JobRun) (h : s.workers w = .working job n .running) :
      Issues s w n (processOne job run)
  | recovery {job : Job} {stage : Stage} (rec_ : GoString) (backoffMs : Int)
      (h : s.workers w = .working job n stage) : Issues s w n (recoveryWrite job rec_ backoffMs)

/-- The row is leased, and under the lease `n`. -/
def LeasedUnder (s : System) (id n : Nat) : Prop :=
  ∃ r ∈ s.tables.jobs, r.id = id ∧ r.status = .leased ∧ s.lastLease id = n

/-! ## What the outcome statements carry -/

/-- The attempts that a statement writes, as the snapshot gives them. -/
def Statement.Sound : Statement → Prop
  | .success _ _ => True
  | .terminal job .skipped attempts _ => attempts = job.attempts
  | .terminal job .dead attempts _ => attempts = job.attempts + 1
  | .retry job attempts _ _ => attempts = job.attempts + 1 ∧ attempts < job.maxAttempts

theorem writeTerminal_sound (job : Job) (d : Detail) :
    (writeTerminal job .skipped d false).Sound ∧ (writeTerminal job .dead d true).Sound :=
  ⟨rfl, rfl⟩

theorem writeRetryOrDead_sound (job : Job) (d : Detail) (b : Int) :
    (writeRetryOrDead job d b).Sound ∧ (writeRetryOrDead job d b).job = job := by
  rw [writeRetryOrDead]
  split
  · exact ⟨rfl, rfl⟩
  · rename_i hlt
    exact ⟨⟨rfl, not_le.mp hlt⟩, rfl⟩

theorem classifyAndWrite_sound (job : Job) (e : GoError) (d : Detail) (b : Int) :
    (classifyAndWrite job e d b).Sound ∧ (classifyAndWrite job e d b).job = job := by
  rw [classifyAndWrite]
  split
  · exact ⟨(writeTerminal_sound job d).1, rfl⟩
  split
  · exact ⟨(writeTerminal_sound job d).2, rfl⟩
  · exact writeRetryOrDead_sound job d b

theorem verifyAndClose_sound (job : Job) (srcSize written : Int) (sha : GoString) (c : Calls) :
    (verifyAndClose job srcSize written sha c).Sound ∧
      (verifyAndClose job srcSize written sha c).job = job := by
  rw [verifyAndClose]
  split
  · exact classifyAndWrite_sound ..
  split
  · exact classifyAndWrite_sound ..
  split
  · exact classifyAndWrite_sound ..
  · exact ⟨trivial, rfl⟩

theorem processJob_sound (job : Job) (c : Calls) :
    (processJob job c).Sound ∧ (processJob job c).job = job := by
  rw [processJob]
  split
  · exact classifyAndWrite_sound ..
  split
  · exact classifyAndWrite_sound ..
  · exact verifyAndClose_sound ..

theorem processOne_sound (job : Job) (run : JobRun) :
    (processOne job run).Sound ∧ (processOne job run).job = job := by
  rw [processOne]
  split
  · exact ⟨(writeTerminal_sound job _).2, rfl⟩
  split
  · exact ⟨(writeTerminal_sound job _).2, rfl⟩
  · exact processJob_sound job run.calls

/-- Every statement that a worker issues is sound, and it is for the snapshot
of the lease. -/
theorem Issues.sound {s : System} {w : String} {n : Nat} {st : Statement}
    (h : Issues s w n st) :
    st.Sound ∧ ∃ stage, s.workers w = .working st.job n stage := by
  cases h with
  | main run h =>
    obtain ⟨hsound, hjob⟩ := processOne_sound _ run
    exact ⟨hsound, .running, by rw [hjob]; exact h⟩
  | recovery rec_ b h =>
    obtain ⟨hsound, hjob⟩ := writeRetryOrDead_sound _ _ b
    exact ⟨hsound, _, by rw [recoveryWrite, hjob]; exact h⟩

end ImgSync.Worker
