import Mathlib.Tactic
import ImgSync.Lib.Table

/-!
# The two queue tables

`transfer_jobs` and `transfer_events` of `migrations/0001_initial.up.sql`.  A
table is the list of its rows in insertion order, so the last event of a job
is the last one that was inserted for it.  The two `BIGSERIAL` columns draw
from a sequence each.  A sequence only moves forward: a conflicting or rolled
back insert still consumes a value.

Timestamps are counted in microseconds, the resolution of `TIMESTAMPTZ`, and
every statement takes the value of `NOW()` as an argument.

`Tables.Wf` collects the constraints that the schema declares: the primary
keys, the unique key `(trace_id, dst)`, and the foreign key of the events.
-/

namespace ImgSync.Queue

open ImgSync.Lib

/-- A `TIMESTAMPTZ` value, in microseconds. -/
abbrev Time := Int

/-- A Go string: a sequence of bytes. -/
abbrev GoString := List UInt8

/-- The bytes of a string literal of the source. -/
def goString (s : String) : GoString := s.toUTF8.data.toList

/-- An error of a writing statement or of a `COMMIT`, as its client sees it. -/
inductive Fault where
  /-- It has no effect. -/
  | refused (e : String)
  /-- It has taken effect, and the answer does not arrive. -/
  | lost (e : String)
  deriving DecidableEq, Repr

/-- `job_status`. -/
inductive JobStatus where
  | pending
  | leased
  | succeeded
  | skipped
  | dead
  deriving DecidableEq, Repr

/-- The event kinds that `transfer_events_status_check` admits. -/
inductive EventStatus where
  | enqueue
  | lease
  | success
  | skip
  | fail
  | expire
  | dead
  deriving DecidableEq, Repr

/-- The three statuses that the queue never leaves. -/
def JobStatus.Terminal : JobStatus → Bool
  | .pending | .leased => false
  | .succeeded | .skipped | .dead => true

/-- The three event kinds that close a job. -/
def EventStatus.Terminal : EventStatus → Bool
  | .success | .skip | .dead => true
  | .enqueue | .lease | .fail | .expire => false

/-- The event kind that belongs to a terminal status. -/
def JobStatus.closedBy : JobStatus → Option EventStatus
  | .pending | .leased => none
  | .succeeded => some .success
  | .skipped => some .skip
  | .dead => some .dead

/-- One value of a `map[string]any` detail. -/
inductive DetailValue where
  | str (s : GoString)
  | int (n : Int)
  deriving DecidableEq, Repr

/-- The `detail` column: the raw payload of an enqueue event, or the map that
the writer marshals. -/
inductive Detail where
  | payload (json : String)
  | fields (kv : List (String × DetailValue))
  deriving DecidableEq, Repr

/-- A row of `transfer_jobs`. -/
structure JobRow where
  id : Nat
  traceId : String
  src : String
  dst : String
  srcProtocol : String
  dstProtocol : String
  payload : String
  status : JobStatus
  attempts : Int
  maxAttempts : Int
  lockedAt : Option Time
  lockedBy : Option String
  nextRunAt : Time
  createdAt : Time
  updatedAt : Time
  deriving DecidableEq, Repr

/-- A row of `transfer_events`. -/
structure EventRow where
  id : Nat
  traceId : String
  jobId : Nat
  ts : Time
  status : EventStatus
  detail : Detail
  deriving DecidableEq, Repr

/-- The two tables and their id sequences. -/
structure Tables where
  jobs : List JobRow
  events : List EventRow
  jobSeq : Nat
  eventSeq : Nat
  deriving DecidableEq, Repr

/-- The tables right after the migration. -/
def Tables.empty : Tables where
  jobs := []
  events := []
  jobSeq := 1
  eventSeq := 1

/-- The key of the unique constraint `transfer_jobs_trace_id_dst_key`. -/
def JobRow.key (r : JobRow) : String × String := (r.traceId, r.dst)

/-- Whether a Go `int` fits a column of type `INT`. -/
def int4 (n : Int) : Bool := decide (-2147483648 ≤ n) && decide (n ≤ 2147483647)

/-! ## Statements on the tables -/

/-- The columns that an `INSERT INTO transfer_jobs` supplies. -/
structure NewJob where
  traceId : String
  src : String
  dst : String
  srcProtocol : String
  dstProtocol : String
  payload : String
  maxAttempts : Int

/-- The inserted row, with the column defaults of the schema. -/
def NewJob.row (n : NewJob) (now : Time) (id : Nat) : JobRow where
  id := id
  traceId := n.traceId
  src := n.src
  dst := n.dst
  srcProtocol := n.srcProtocol
  dstProtocol := n.dstProtocol
  payload := n.payload
  status := .pending
  attempts := 0
  maxAttempts := n.maxAttempts
  lockedAt := none
  lockedBy := none
  nextRunAt := now
  createdAt := now
  updatedAt := now

/-- `INSERT INTO transfer_jobs ... ON CONFLICT (trace_id, dst) DO NOTHING
RETURNING id`.  The id is drawn before the conflict check, so a conflicting
insert leaves a gap in the sequence. -/
def Tables.insertJob (t : Tables) (now : Time) (n : NewJob) : Tables × Option Nat :=
  if t.jobs.any fun r => r.key == (n.traceId, n.dst) then
    ({ t with jobSeq := t.jobSeq + 1 }, none)
  else
    ({ t with jobs := t.jobs ++ [n.row now t.jobSeq], jobSeq := t.jobSeq + 1 },
      some t.jobSeq)

/-- `INSERT INTO transfer_events (trace_id, job_id, status, detail)`. -/
def Tables.insertEvent (t : Tables) (now : Time) (traceId : String) (jobId : Nat)
    (status : EventStatus) (detail : Detail) : Tables :=
  { t with
    events := t.events ++ [⟨t.eventSeq, traceId, jobId, now, status, detail⟩]
    eventSeq := t.eventSeq + 1 }

/-- `DELETE FROM transfer_jobs WHERE p`.  The foreign key of the events has
`ON DELETE CASCADE`. -/
def Tables.deleteJobs (t : Tables) (p : JobRow → Bool) : Tables :=
  { t with
    jobs := t.jobs.filter fun r => !p r
    events := t.events.filter fun e => !t.jobs.any fun r => p r && r.id == e.jobId }

/-! ## What the schema promises -/

/-- The constraints of the schema, together with the freshness of the id
sequence. -/
structure Tables.Wf (t : Tables) : Prop where
  ids : (t.jobs.map JobRow.id).Nodup
  keys : (t.jobs.map JobRow.key).Nodup
  seq : ∀ r ∈ t.jobs, r.id < t.jobSeq
  fk : ∀ e ∈ t.events, ∃ r ∈ t.jobs, r.id = e.jobId

theorem Tables.wf_empty : Tables.empty.Wf where
  ids := List.nodup_nil
  keys := List.nodup_nil
  seq := by simp [Tables.empty]
  fk := by simp [Tables.empty]

/-- The kinds of the events of one job, in insertion order. -/
def kindsOf (events : List EventRow) (id : Nat) : List EventStatus :=
  (events.filter fun e => e.jobId == id).map EventRow.status

/-- The audit trail of a job. -/
def Tables.trail (t : Tables) (id : Nat) : List EventStatus := kindsOf t.events id

@[simp] theorem kindsOf_nil (id : Nat) : kindsOf [] id = [] := rfl

@[simp] theorem kindsOf_append (es fs : List EventRow) (id : Nat) :
    kindsOf (es ++ fs) id = kindsOf es id ++ kindsOf fs id := by
  simp [kindsOf]

/-- A job without events has an empty trail. -/
theorem kindsOf_eq_nil {events : List EventRow} {id : Nat}
    (h : ∀ e ∈ events, e.jobId ≠ id) : kindsOf events id = [] := by
  rw [kindsOf, List.filter_eq_nil_iff.mpr, List.map_nil]
  intro e he
  simpa using h e he

/-- An id that the sequence has not handed out has an empty trail. -/
theorem Tables.Wf.trail_fresh {t : Tables} (hwf : t.Wf) {id : Nat} (hid : t.jobSeq ≤ id) :
    t.trail id = [] := by
  refine kindsOf_eq_nil fun e he heq => ?_
  obtain ⟨r, hr, hre⟩ := hwf.fk e he
  have := hwf.seq r hr
  omega

end ImgSync.Queue
