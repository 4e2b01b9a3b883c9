import ImgSync.Queue.Ops
import ImgSync.Lib.AdvisoryLock
import ImgSync.Lib.Run

/-!
# Concurrent sweeps, statement by statement

`Queue.sweep` is the transaction of `sweeper.Sweep` as one step.  Here every
statement of the transaction is a step of its own, any number of calls run at
the same time, and the other writers of the tables commit in between.

* A call begins its transaction, which fixes `NOW()`, tries the advisory lock,
  runs the `UPDATE` and reads its rows, inserts one event for each row, and
  commits.  Every statement may fail; the transaction is then rolled back, and
  the id sequence keeps the values that it has handed out.  If the connection
  breaks during the `COMMIT`, it may have taken effect.
* The `UPDATE` locks its rows until the end of the transaction.  A statement
  of another writer that would change one of them waits, so the step does
  nothing.
* The statements of the other writers are those of `Queue.Op`.  Each of them
  is one transaction.

Next to the tables the model keeps a ledger of the leases, which is not in the
source.  A job's leases are numbered, and the end of a lease is logged with
what ended it.  A logged expiry carries the event that was inserted.
-/

namespace ImgSync.Sweeper

open ImgSync.Lib ImgSync.Queue

/-! ## The calls -/

/-- Which call of the row loop reports the error of the `UPDATE`. -/
inductive RowsFault where
  | query
  | scan
  | iteration
  deriving DecidableEq, Repr

/-- What the database answers to the next statement of a call. -/
inductive Answer where
  | ok
  | error (fault : RowsFault) (text : GoString)
  /-- The statement is executed and its answer does not arrive.  An open transaction
  ends with the connection. -/
  | lost (text : GoString)
  deriving DecidableEq, Repr

/-- Where a call of `Sweep` is.  `now` is the time at which its transaction
began, `rows` are the rows that the `UPDATE` returned, and `evs` the events
that are inserted so far. -/
inductive Phase where
  | idle
  | begun (now : Time)
  | locked (now : Time)
  | updated (now : Time) (rows : List JobRow) (evs : List EventRow)
  | returned (count : Nat) (err : Option GoString)
  deriving DecidableEq, Repr

/-- The rows that the transaction of the call has locked. -/
def Phase.rowLocks : Phase → List JobRow
  | .updated _ rows _ => rows
  | _ => []

/-- `sweeperLockKey`. -/
def sweeperLockKey : String := "imgsync_sweeper"

/-- `INSERT INTO transfer_events ... 'expire'` for one recovered row. -/
def expireEvent (id : Nat) (now : Time) (r : JobRow) : EventRow :=
  ⟨id, r.traceId, r.id, now, .expire, expireDetail⟩

/-- The error of the `UPDATE` and of the loop over its rows. -/
def RowsFault.context : RowsFault → String
  | .query => "sweeper: update: "
  | .scan => "sweeper: scan: "
  | .iteration => "sweeper: rows iteration: "

def wrapErr (context : String) (text : GoString) : GoString := goString context ++ text

/-! ## The ledger of leases -/

/-- What ends a lease. -/
inductive Ending where
  | finished
  | drained
  | expired (e : EventRow)
  deriving DecidableEq, Repr

/-- The end of one lease: the `number`-th lease of the job. -/
structure Entry where
  job : Nat
  number : Nat
  ending : Ending
  deriving DecidableEq, Repr

def Entry.lease (e : Entry) : Nat × Nat := (e.job, e.number)

/-- The number of leases that each job has had, and the leases that have
ended. -/
structure Ledger where
  leases : Nat → Nat
  log : List Entry

/-- The jobs that are leased. -/
def leasedIds (t : Tables) : List Nat :=
  (t.jobs.filter fun r => r.status == .leased).map JobRow.id

/-- How the statement ends a lease, if it ends one. -/
def endingOf : Op → Ending
  | .drainLease _ => .drained
  | _ => .finished

/-- A statement has taken the tables from `t` to `t'`.  Jobs that became
leased start a lease, and jobs that are leased no more have ended theirs. -/
def Ledger.note (g : Ledger) (t t' : Tables) (ending : Ending) : Ledger where
  leases := fun id =>
    if id ∈ leasedIds t' ∧ id ∉ leasedIds t then g.leases id + 1 else g.leases id
  log := g.log ++ ((leasedIds t).filter fun id => id ∉ leasedIds t').map fun id =>
    ⟨id, g.leases id, ending⟩

/-- The events of a committed sweep. -/
def Ledger.expire (g : Ledger) (evs : List EventRow) : Ledger :=
  { g with log := g.log ++ evs.map fun e => ⟨e.jobId, g.leases e.jobId, .expired e⟩ }

/-! ## The server -/

structure Server where
  tables : Tables
  clock : Time
  locks : Locks Nat String
  sweeps : List Phase
  ledger : Ledger

def Server.setPhase (s : Server) (i : Nat) (ph : Phase) : Server :=
  { s with sweeps := s.sweeps.set i ph }

/-- The end of the transaction of a call, which frees its locks, and the
return of the call. -/
def Server.finish (s : Server) (i : Nat) (count : Nat) (err : Option GoString) : Server :=
  { s.setPhase i (.returned count err) with locks := endSession s.locks i }

def Server.fail (s : Server) (i : Nat) (context : String) (text : GoString) : Server :=
  s.finish i 0 (some (wrapErr context text))

/-- `COMMIT`: the updated rows and the events become visible. -/
def Server.commit (s : Server) (now : Time) (rows : List JobRow) (evs : List EventRow) : Server :=
  { s with
    tables :=
      { s.tables with
        jobs := updateWhere (fun x => rows.any fun r => r.id == x.id) (JobRow.requeue now)
          s.tables.jobs
        events := s.tables.events ++ evs }
    ledger := s.ledger.expire evs }

/-- The next statement of the call `i`. -/
def sweepStep (cfg : SweeperConfig) (s : Server) (i : Nat) : Phase → Answer → Server
  | .idle, .ok => s.setPhase i (.begun s.clock)
  | .idle, .error _ text | .idle, .lost text => s.fail i "sweeper: begin: " text
  | .begun now, .ok =>
    let (locks, locked) := tryLock s.locks i sweeperLockKey
    if locked then { s.setPhase i (.locked now) with locks := locks } else s.finish i 0 none
  | .begun _, .error _ text | .begun _, .lost text =>
    s.fail i "sweeper: try advisory lock: " text
  | .locked now, .ok =>
    s.setPhase i (.updated now (s.tables.jobs.filter (expired now cfg.thresholdSeconds)) [])
  | .locked _, .error fault text => s.fail i fault.context text
  | .locked _, .lost text => s.fail i RowsFault.query.context text
  | .updated now rows evs, answer =>
    match rows[evs.length]?, answer with
    | some r, .ok =>
      { s.setPhase i (.updated now rows (evs ++ [expireEvent s.tables.eventSeq now r])) with
        tables := { s.tables with eventSeq := s.tables.eventSeq + 1 } }
    | some r, .error _ text | some r, .lost text =>
      s.fail i s!"sweeper: insert event for {r.id}: " text
    | none, .ok => (s.commit now rows evs).finish i rows.length none
    | none, .error _ text => s.fail i "sweeper: commit: " text
    | none, .lost text => (s.commit now rows evs).fail i "sweeper: commit: " text
  | .returned _ _, _ => s

/-- Whether the statement is the one-step transaction of a sweep. -/
def isSweep : Op → Bool
  | .sweep _ _ => true
  | _ => false

/-- A statement waits while it would change a row that a sweep has locked. -/
def Server.admits (s : Server) (op : Op) : Bool :=
  s.sweeps.all fun ph => ph.rowLocks.all fun r => (exec s.tables s.clock op).jobs.contains r

inductive Action where
  | tick (d : Nat)
  | other (op : Op)
  | call
  | sweep (i : Nat) (answer : Answer)

def step (cfg : SweeperConfig) (s : Server) : Action → Server
  | .tick d => { s with clock := s.clock + d }
  | .other op =>
    if !isSweep op && s.admits op then
      { s with
        tables := exec s.tables s.clock op
        ledger := s.ledger.note s.tables (exec s.tables s.clock op) (endingOf op) }
    else s
  | .call => { s with sweeps := s.sweeps ++ [.idle] }
  | .sweep i answer =>
    match s.sweeps[i]? with
    | none => s
    | some ph => sweepStep cfg s i ph answer

def initial (clock : Time) : Server where
  tables := Tables.empty
  clock := clock
  locks := fun _ => none
  sweeps := []
  ledger := ⟨fun _ => 0, []⟩

/-- The server that a run reaches from the empty database. -/
def reach (cfg : SweeperConfig) (clock : Time) (as : List Action) : Server :=
  as.foldl (step cfg) (initial clock)

end ImgSync.Sweeper
