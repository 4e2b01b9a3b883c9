import ImgSync.Worker.ErrDetail
import ImgSync.Worker.Job

/-!
# The outcome of a job

`ProcessJob` (`internal/worker/process.go`) runs one leased job and ends with
exactly one SQL statement.  The model splits the function where the database
comes in:

* `processJob` maps what the calls of `Source` and `Transport` answered to
  the statement that is issued;
* `Statement.exec` runs the statement on the tables.

All four outcome writes share one shape, a guarded `UPDATE` in a CTE and an
event insert that selects from it.  `guardedWrite` is that shape.

`processOne` (`internal/worker/runner.go`) adds the two factory lookups in
front and the recovery write behind.
-/

namespace ImgSync.Worker

open ImgSync.Lib ImgSync.Queue

/-- A Go error, as far as the worker looks at it: its text, and whether
`errors.Is` finds one of the two sentinels of `internal/transfer/errors.go`
in its chain. -/
structure GoError where
  text : GoString
  isSkippable : Bool
  isPermanent : Bool
  deriving DecidableEq, Repr

/-- `fmt.Errorf("<pre>%w", e)`. -/
def GoError.wrap (pre : String) (e : GoError) : GoError :=
  { e with text := goString pre ++ e.text }

/-- The two terminal writes that go through `writeTerminalWithAttempts`. -/
inductive TerminalKind where
  | skipped
  | dead
  deriving DecidableEq, Repr

def TerminalKind.jobStatus : TerminalKind → JobStatus
  | .skipped => .skipped
  | .dead => .dead

def TerminalKind.eventStatus : TerminalKind → EventStatus
  | .skipped => .skip
  | .dead => .dead

/-- The SQL statement that ends a job. -/
inductive Statement where
  | success (job : Job) (detail : Detail)
  | terminal (job : Job) (kind : TerminalKind) (attempts : Int) (detail : Detail)
  | retry (job : Job) (attempts : Int) (backoffMs : Int) (detail : Detail)
  deriving DecidableEq, Repr

/-! ## Which statement a job ends with -/

/-- `writeTerminal`. -/
def writeTerminal (job : Job) (kind : TerminalKind) (detail : Detail)
    (bumpAttempts : Bool) : Statement :=
  .terminal job kind (if bumpAttempts then job.attempts + 1 else job.attempts) detail

/-- `writeRetryOrDead`: a retry, or a dead row when the attempts run out. -/
def writeRetryOrDead (job : Job) (detail : Detail) (backoffMs : Int) : Statement :=
  let nextAttempts := job.attempts + 1
  if nextAttempts ≥ job.maxAttempts then .terminal job .dead nextAttempts detail
  else .retry job nextAttempts backoffMs detail

/-- `classifyAndWrite`. -/
def classifyAndWrite (job : Job) (jobErr : GoError) (detail : Detail)
    (backoffMs : Int) : Statement :=
  if jobErr.isSkippable then writeTerminal job .skipped detail false
  else if jobErr.isPermanent then writeTerminal job .dead detail true
  else writeRetryOrDead job detail backoffMs

/-- A failed job is skipped, dead, or scheduled again. -/
theorem classifyAndWrite_cases (job : Job) (jobErr : GoError) (detail : Detail)
    (backoffMs : Int) :
    jobErr.isSkippable = true ∧
        classifyAndWrite job jobErr detail backoffMs = .terminal job .skipped job.attempts detail ∨
      jobErr.isSkippable = false ∧
        classifyAndWrite job jobErr detail backoffMs =
          .terminal job .dead (job.attempts + 1) detail ∨
      jobErr.isSkippable = false ∧ jobErr.isPermanent = false ∧
        classifyAndWrite job jobErr detail backoffMs =
          .retry job (job.attempts + 1) backoffMs detail := by
  unfold classifyAndWrite
  cases jobErr.isSkippable with
  | true => exact Or.inl ⟨rfl, rfl⟩
  | false =>
    cases jobErr.isPermanent with
    | true => exact Or.inr (Or.inl ⟨rfl, rfl⟩)
    | false =>
      by_cases hmax : job.attempts + 1 ≥ job.maxAttempts
      · refine Or.inr (Or.inl ⟨rfl, ?_⟩)
        simp [writeRetryOrDead, hmax]
      · refine Or.inr (Or.inr ⟨rfl, rfl, ?_⟩)
        simp [writeRetryOrDead, hmax]

/-- `openErrDetails`. -/
def openErrDetails (e : GoError) : Detail :=
  .fields ([("error", .str (sanitizeErrMsg e.text)), ("stage", .str (goString "open"))] ++
    if e.isSkippable then [("reason", .str (goString "source_not_found"))] else [])

/-- `transportErrDetails`. -/
def transportErrDetails (e : GoError) : Detail :=
  .fields [("error", .str (sanitizeErrMsg e.text)), ("stage", .str (goString "transport"))]

/-- The error of a failed size verification, `"size mismatch: <label>=%d
written=%d: %w"` with `transfer.ErrPermanent`. -/
def sizeMismatchErr (label : String) (expected written : Int) : GoError where
  text := goString ("size mismatch: " ++ label ++ "=" ++ toString expected ++ " written=" ++
    toString written ++ ": permanent: do not retry, mark dead")
  isSkippable := false
  isPermanent := true

/-- What the calls of one `ProcessJob` answered: the size that `Source.Open`
reports, what `Transport.Send` wrote, the bytes that the counting reader saw,
and the error of the final close. -/
structure Calls where
  opened : Except GoError Int
  sent : Except GoError (Int × GoString)
  read : Int
  closed : Option GoError
  durationMs : Int
  backoffMs : Int

/-- The detail of a success event. -/
def successDetail (written : Int) (shaHex : GoString) (durationMs : Int) : Detail :=
  .fields [("size", .int written), ("sha256", .str shaHex), ("duration_ms", .int durationMs)]

/-- The part of `ProcessJob` behind a successful `Send`: size verification,
the close of the source, and the success write. -/
def verifyAndClose (job : Job) (srcSize written : Int) (shaHex : GoString)
    (c : Calls) : Statement :=
  if 0 ≤ srcSize ∧ written ≠ srcSize then
    classifyAndWrite job (sizeMismatchErr "src" srcSize written)
      (.fields [("reason", .str (goString "size_mismatch")), ("stage", .str (goString "verify")),
        ("src_size", .int srcSize), ("written", .int written)]) c.backoffMs
  else if srcSize < 0 ∧ c.read ≠ written then
    classifyAndWrite job (sizeMismatchErr "read" c.read written)
      (.fields [("reason", .str (goString "size_mismatch_unknown_src")),
        ("stage", .str (goString "verify")), ("read", .int c.read), ("written", .int written)])
      c.backoffMs
  else
    match c.closed with
    | some e =>
      classifyAndWrite job (e.wrap "source close after send: ")
        (.fields [("error", .str e.text), ("stage", .str (goString "source_close"))]) c.backoffMs
    | none => .success job (successDetail written shaHex c.durationMs)

/-- `ProcessJob`. -/
def processJob (job : Job) (c : Calls) : Statement :=
  match c.opened with
  | .error e => classifyAndWrite job e (openErrDetails e) c.backoffMs
  | .ok srcSize =>
    match c.sent with
    | .error e => classifyAndWrite job e (transportErrDetails e) c.backoffMs
    | .ok (written, shaHex) => verifyAndClose job srcSize written shaHex c

/-- What one `processOne` meets: the errors of the two factories, and the
calls of `ProcessJob`. -/
structure JobRun where
  sourceFor : Option GoError
  transportFor : Option GoError
  calls : Calls

/-- The detail of a failed factory lookup. -/
def factoryDetail (e : GoError) (stage : String) : Detail :=
  .fields [("error", .str e.text), ("stage", .str (goString stage))]

/-- `processOne`, when nothing panics. -/
def processOne (job : Job) (r : JobRun) : Statement :=
  match r.sourceFor with
  | some e => writeTerminal job .dead (factoryDetail e "source-factory") true
  | none =>
    match r.transportFor with
    | some e => writeTerminal job .dead (factoryDetail e "transport-factory") true
    | none => processJob job r.calls

/-- The recovery write of `processOne` after a panic with value `rec`. -/
def recoveryWrite (job : Job) (rec_ : GoString) (backoffMs : Int) : Statement :=
  writeRetryOrDead job
    (.fields [("error", .str rec_), ("stage", .str (goString "panic"))]) backoffMs

/-! ## What the statement does -/

/-- `id=$1 AND status='leased' AND locked_by=$2`. -/
def leaseGuard (id : Nat) (lockedBy : String) (r : JobRow) : Bool :=
  r.id == id && heldBy lockedBy r

/-- The CTE of the outcome writes: update the guarded row, and insert one
event for every updated row.  The answer is the number of inserted events. -/
def guardedWrite (t : Tables) (now : Time) (id : Nat) (lockedBy : String)
    (set : JobRow → JobRow) (ev : EventStatus) (detail : Detail) : Tables × Nat :=
  let u := t.jobs.filter (leaseGuard id lockedBy)
  (u.foldl (fun t r => t.insertEvent now r.traceId id ev detail)
    { t with jobs := updateWhere (leaseGuard id lockedBy) set t.jobs }, u.length)

/-- The columns that `writeSuccess` sets. -/
def setSuccess (now : Time) (r : JobRow) : JobRow :=
  { r with status := .succeeded, lockedAt := none, lockedBy := none, updatedAt := now }

/-- The columns that `writeTerminalWithAttempts` sets. -/
def setTerminal (now : Time) (kind : TerminalKind) (attempts : Int) (r : JobRow) : JobRow :=
  { r with
    status := kind.jobStatus, attempts := attempts, lockedAt := none, lockedBy := none
    updatedAt := now }

/-- The columns that a scheduled retry sets. -/
def setRetry (now : Time) (attempts backoffMs : Int) (r : JobRow) : JobRow :=
  { r with
    status := .pending, attempts := attempts, nextRunAt := now + backoffMs * 1000
    lockedAt := none, lockedBy := none, updatedAt := now }

/-- The outcome writes.  An attempts value that does not fit the column makes
the statement fail, which leaves the tables as they are. -/
def Statement.exec (t : Tables) (now : Time) (lockedBy : String) : Statement → Tables × Nat
  | .success job detail =>
    guardedWrite t now job.id lockedBy (setSuccess now) .success detail
  | .terminal job kind attempts detail =>
    if int4 attempts then
      guardedWrite t now job.id lockedBy (setTerminal now kind attempts) kind.eventStatus detail
    else (t, 0)
  | .retry job attempts backoffMs detail =>
    if int4 attempts then
      guardedWrite t now job.id lockedBy (setRetry now attempts backoffMs) .fail detail
    else (t, 0)

/-- The snapshot that a statement is issued for. -/
def Statement.job : Statement → Job
  | .success job _ => job
  | .terminal job _ _ _ => job
  | .retry job _ _ _ => job

/-- The columns that a statement sets. -/
def Statement.set (now : Time) : Statement → JobRow → JobRow
  | .success _ _ => setSuccess now
  | .terminal _ kind attempts _ => setTerminal now kind attempts
  | .retry _ attempts backoffMs _ => setRetry now attempts backoffMs

/-- The kind of the event that a statement inserts. -/
def Statement.event : Statement → EventStatus
  | .success _ _ => .success
  | .terminal _ kind _ _ => kind.eventStatus
  | .retry _ _ _ _ => .fail

/-- The detail of the event that a statement inserts. -/
def Statement.detail : Statement → Detail
  | .success _ detail => detail
  | .terminal _ _ _ detail => detail
  | .retry _ _ _ detail => detail

/-- Whether the attempts of a statement fit their column. -/
def Statement.inRange : Statement → Bool
  | .success _ _ => true
  | .terminal _ _ attempts _ => int4 attempts
  | .retry _ attempts _ _ => int4 attempts

theorem event_classifyAndWrite {job : Job} {jobErr : GoError} {detail : Detail}
    {backoffMs : Int} : (classifyAndWrite job jobErr detail backoffMs).event ≠ .success := by
  rcases classifyAndWrite_cases job jobErr detail backoffMs with ⟨_, h⟩ | ⟨_, h⟩ | ⟨_, _, h⟩ <;>
    simp [h, Statement.event, TerminalKind.eventStatus]

theorem detail_classifyAndWrite (job : Job) (jobErr : GoError) (detail : Detail)
    (backoffMs : Int) : (classifyAndWrite job jobErr detail backoffMs).detail = detail := by
  rcases classifyAndWrite_cases job jobErr detail backoffMs with ⟨_, h⟩ | ⟨_, h⟩ | ⟨_, _, h⟩ <;>
    simp [h, Statement.detail]

theorem detail_writeRetryOrDead (job : Job) (detail : Detail) (backoffMs : Int) :
    (writeRetryOrDead job detail backoffMs).detail = detail := by
  simp only [writeRetryOrDead]
  split <;> rfl

/-- The outcome writes have one shape. -/
theorem Statement.exec_eq (st : Statement) (t : Tables) (now : Time) (w : String) :
    st.exec t now w =
      if st.inRange then guardedWrite t now st.job.id w (st.set now) st.event st.detail
      else (t, 0) := by
  cases st <;> rfl

theorem mem_foldl_insertEvent {now : Time} {jobId : JobRow → Nat} {ev : EventStatus} {d : Detail}
    {rows : List JobRow} {t : Tables} {e : EventRow}
    (he : e ∈ (rows.foldl (fun t r => t.insertEvent now r.traceId (jobId r) ev d) t).events) :
    e ∈ t.events ∨ (∃ r ∈ rows, e.jobId = jobId r) ∧ e.status = ev ∧ e.detail = d := by
  induction rows generalizing t with
  | nil => exact Or.inl he
  | cons r rows ih =>
    rcases ih he with he | ⟨⟨x, hx, hid⟩, hrest⟩
    · rcases List.mem_append.mp he with he | he
      · exact Or.inl he
      · rw [List.mem_singleton.mp he]
        exact Or.inr ⟨⟨r, List.mem_cons_self, rfl⟩, rfl, rfl⟩
    · exact Or.inr ⟨⟨x, List.mem_cons_of_mem _ hx, hid⟩, hrest⟩

/-- The events that an outcome write inserts. -/
theorem Statement.mem_events {st : Statement} {t : Tables} {now : Time} {w : String} {e : EventRow}
    (he : e ∈ (st.exec t now w).1.events) :
    e ∈ t.events ∨ e.jobId = st.job.id ∧ e.status = st.event ∧ e.detail = st.detail := by
  rw [Statement.exec_eq] at he
  split at he
  · rcases mem_foldl_insertEvent he with hold | ⟨⟨_, _, hid⟩, hrest⟩
    · exact Or.inl hold
    · exact Or.inr ⟨hid, hrest⟩
  · exact Or.inl he

/-- A write whose guard picks no row does nothing. -/
theorem guardedWrite_eq_self {t : Tables} {now : Time} {id : Nat} {w : String}
    {set : JobRow → JobRow} {ev : EventStatus} {d : Detail}
    (h : ∀ r ∈ t.jobs, leaseGuard id w r = false) :
    guardedWrite t now id w set ev d = (t, 0) := by
  have hnone : t.jobs.filter (leaseGuard id w) = [] := by
    rw [List.filter_eq_nil_iff]
    intro r hr
    simp [h r hr]
  rw [guardedWrite, hnone, updateWhere_eq_self h]
  rfl

/-- A write whose guard picks the row `r` rewrites that row and inserts one
event for it. -/
theorem guardedWrite_eq {t : Tables} (hwf : t.Wf) {now : Time} {w : String} {r : JobRow}
    {set : JobRow → JobRow} {ev : EventStatus} {d : Detail} (hr : r ∈ t.jobs)
    (hg : leaseGuard r.id w r = true) :
    guardedWrite t now r.id w set ev d =
      (({ t with jobs := updateWhere (fun x => x.id == r.id) set t.jobs } : Tables).insertEvent
        now r.traceId r.id ev d, 1) := by
  have honly : ∀ x ∈ t.jobs, leaseGuard r.id w x = (x.id == r.id) := by
    intro x hx
    by_cases hid : x.id = r.id
    · rw [eq_of_key_eq hwf.ids hx hr hid, hg, beq_self_eq_true]
    · simp [leaseGuard, hid]
  have hone : t.jobs.filter (leaseGuard r.id w) = [r] := by
    rw [List.filter_congr honly]
    exact filter_key_eq_singleton hwf.ids hr
  have hset : updateWhere (leaseGuard r.id w) set t.jobs =
      updateWhere (fun x => x.id == r.id) set t.jobs := by
    rw [updateWhere, updateWhere]
    refine List.map_congr_left fun x hx => ?_
    rw [honly x hx]
  rw [guardedWrite, hone, hset]
  rfl

end ImgSync.Worker
