import ImgSync.Queue.Schema

/-!
# The sweeper and the retention job

`sweeper.Sweep` (`internal/sweeper/sweeper.go`) puts expired leases back into
the queue, and `retention.Sweep` (`internal/retention/retention.go`) deletes
old terminal rows.  Both run in one transaction under an advisory lock.  The
functions are the committed transaction, and `locked` is the answer of
`pg_try_advisory_xact_lock`.

Durations are `time.Duration` values, in nanoseconds.
-/

namespace ImgSync.Queue

open ImgSync.Lib

/-- A `time.Duration`, in nanoseconds. -/
abbrev Duration := Int

/-- `int(d.Seconds())`, the whole seconds of a duration.  The source goes through a
`float64`, which rounds a duration of more than 194 days up to the next second when it
is a few nanoseconds short of it; the truncation is exact here. -/
def Duration.seconds (d : Duration) : Int := d.tdiv 1000000000

/-- An interval of `n` seconds, in the microseconds of a timestamp. -/
def secondsInterval (n : Int) : Time := n * 1000000

/-! ## Lease recovery -/

/-- `sweeper.Config`.  The interval only times the loop. -/
structure SweeperConfig where
  threshold : Duration

/-- The threshold after the default, in seconds. -/
def SweeperConfig.thresholdSeconds (cfg : SweeperConfig) : Int :=
  Duration.seconds (if cfg.threshold ≤ 0 then 300000000000 else cfg.threshold)

/-- `status='leased' AND locked_at < NOW() - $1::INTERVAL`.  A NULL
`locked_at` never compares. -/
def expired (now : Time) (seconds : Int) (r : JobRow) : Bool :=
  r.status == .leased &&
    match r.lockedAt with
    | none => false
    | some at_ => decide (at_ < now - secondsInterval seconds)

/-- The columns that a lease release sets. -/
def JobRow.requeue (now : Time) (r : JobRow) : JobRow :=
  { r with status := .pending, lockedAt := none, lockedBy := none, updatedAt := now }

/-- The detail of an expire event. -/
def expireDetail : Detail := .fields [("reason", .str (goString "lease_expired"))]

/-- One `expire` event for each recovered row. -/
def insertExpires (now : Time) (t : Tables) (rows : List JobRow) : Tables :=
  rows.foldl (fun t r => t.insertEvent now r.traceId r.id .expire expireDetail) t

/-- `sweeper.Sweep`: the number of recovered rows. -/
def sweep (t : Tables) (now : Time) (cfg : SweeperConfig) (locked : Bool) : Tables × Nat :=
  if !locked then (t, 0)
  else
    let p := expired now cfg.thresholdSeconds
    let recovered := t.jobs.filter p
    (insertExpires now { t with jobs := updateWhere p (JobRow.requeue now) t.jobs } recovered,
      recovered.length)

/-! ## Retention -/

/-- `retention.Config`. -/
structure RetentionConfig where
  window : Duration
  batchSize : Int

/-- The batch size after the default. -/
def RetentionConfig.batch (cfg : RetentionConfig) : Nat :=
  (if cfg.batchSize ≤ 0 then 1000 else cfg.batchSize).toNat

/-- `status IN ('succeeded','skipped','dead') AND updated_at < NOW() -
$1::INTERVAL`. -/
def outdated (now : Time) (seconds : Int) (r : JobRow) : Bool :=
  r.status.Terminal && decide (r.updatedAt < now - secondsInterval seconds)

/-- The ids that the subquery of one batch answers.  It has a `LIMIT` and no
order, so `pick` stands for the order in which the scan meets the rows. -/
def victims (pick : List JobRow → List JobRow) (now : Time) (seconds : Int) (batch : Nat)
    (t : Tables) : List Nat :=
  let rows := t.jobs.filter (outdated now seconds)
  (((pick rows).filter fun r => rows.contains r).take batch).map JobRow.id

/-- One `DELETE` of the batch loop, with the number of deleted rows. -/
def deleteBatch (pick : List JobRow → List JobRow) (now : Time) (seconds : Int) (batch : Nat)
    (t : Tables) : Tables × Nat :=
  let ids := victims pick now seconds batch t
  let t' := t.deleteJobs fun r => ids.contains r.id
  (t', t.jobs.length - t'.jobs.length)

/-- The batch loop.  It runs until a batch is short; every full batch deletes
a row, so the number of rows is fuel enough. -/
def retentionLoop (pick : List JobRow → List JobRow) (now : Time) (seconds : Int)
    (batch : Nat) : Nat → Tables → Nat → Tables × Nat
  | 0, t, deleted => (t, deleted)
  | fuel + 1, t, deleted =>
    let (t', n) := deleteBatch pick now seconds batch t
    if n < batch then (t', deleted + n)
    else retentionLoop pick now seconds batch fuel t' (deleted + n)

/-- `retention.Sweep`: the number of deleted rows. -/
def retentionSweep (pick : List JobRow → List JobRow) (t : Tables) (now : Time)
    (cfg : RetentionConfig) (locked : Bool) : Tables × Nat :=
  if cfg.window ≤ 0 then (t, 0)
  else if !locked then (t, 0)
  else
    retentionLoop pick now (Duration.seconds cfg.window) cfg.batch (t.jobs.length + 1) t 0

end ImgSync.Queue
