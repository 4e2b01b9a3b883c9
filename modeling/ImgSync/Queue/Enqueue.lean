import ImgSync.Queue.Schema

/-!
# The two enqueue paths

`jobs.Enqueue` (`internal/jobs/enqueue.go`) inserts a job row and its
`enqueue` event in one transaction.  The sniffer's `Enqueuer`
(`internal/sniffer/enqueue.go`) inserts job rows only, one at a time or a
whole poll's worth in a single statement.

Each function is the committed transaction or statement.  An attempt that
fails on the way and is rolled back is `Op.rolledBack` of
`ImgSync.Queue.Ops`.
-/

namespace ImgSync.Queue

/-- `jobs.EnqueueArgs`.  A nil payload is the empty string. -/
structure EnqueueArgs where
  traceId : String
  src : String
  dst : String
  srcProtocol : String
  dstProtocol : String
  payload : String
  maxAttempts : Int

/-- The columns that `jobs.Enqueue` inserts, after its two defaults. -/
def EnqueueArgs.newJob (a : EnqueueArgs) : NewJob where
  traceId := a.traceId
  src := a.src
  dst := a.dst
  srcProtocol := a.srcProtocol
  dstProtocol := a.dstProtocol
  payload := if a.payload == "" then "{}" else a.payload
  maxAttempts := if a.maxAttempts ≤ 0 then 5 else a.maxAttempts

/-- `jobs.Enqueue`.  The answer is the id and whether the row is new.  A
`MaxAttempts` that does not fit the column is refused by the insert. -/
def enqueue (t : Tables) (now : Time) (a : EnqueueArgs) :
    Tables × Except String (Nat × Bool) :=
  if a.traceId == "" || a.src == "" || a.dst == "" then
    (t, .error "enqueue: trace_id, src, dst are required")
  else if a.srcProtocol == "" || a.dstProtocol == "" then
    (t, .error "enqueue: src_protocol and dst_protocol are required")
  else if !int4 a.newJob.maxAttempts then
    (t, .error "insert: max_attempts is out of range for type integer")
  else
    match t.insertJob now a.newJob with
    | (t', some id) =>
      (t'.insertEvent now a.traceId id .enqueue (.payload a.newJob.payload), .ok (id, true))
    | (t', none) =>
      match t'.jobs.find? fun r => r.key == (a.traceId, a.dst) with
      | some r => (t', .ok (r.id, false))
      | none => (t, .error "lookup existing: no rows in result set")

/-- `sniffer.JobSpec`. -/
structure JobSpec where
  traceId : String
  src : String
  dst : String
  srcProtocol : String
  dstProtocol : String
  deriving DecidableEq, Repr

/-- The columns that the sniffer inserts.  `payload` and `max_attempts` keep
the defaults of the schema. -/
def JobSpec.newJob (j : JobSpec) : NewJob where
  traceId := j.traceId
  src := j.src
  dst := j.dst
  srcProtocol := j.srcProtocol
  dstProtocol := j.dstProtocol
  payload := "{}"
  maxAttempts := 5

/-- `Enqueuer.Enqueue`: whether the row is new. -/
def snifferEnqueue (t : Tables) (now : Time) (j : JobSpec) : Tables × Bool :=
  let (t', id) := t.insertJob now j.newJob
  (t', id.isSome)

/-- The multi-row `INSERT ... ON CONFLICT DO NOTHING`, tuple by tuple: a
tuple conflicts with the table and with the tuples before it. -/
def insertAll (now : Time) : Tables → List JobSpec → Tables × Nat
  | t, [] => (t, 0)
  | t, j :: rest =>
    let (t', inserted) := snifferEnqueue t now j
    let (t'', n) := insertAll now t' rest
    (t'', if inserted then n + 1 else n)

/-- `Enqueuer.EnqueueBatch`: the number of new rows.  An empty batch issues
no query. -/
def enqueueBatch (t : Tables) (now : Time) (specs : List JobSpec) : Tables × Nat :=
  if specs.isEmpty then (t, 0) else insertAll now t specs

end ImgSync.Queue
