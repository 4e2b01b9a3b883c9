import ImgSync.Lib.Utf8
import ImgSync.Worker.Fencing

/-!
# Error texts in the audit log

The detail of an outcome event has the text of the error under `error`, unless
the job succeeded or failed the size verification.  What becomes of the text
depends on the stage (`internal/worker/process.go` and `runner.go`):

* an error of `Source.Open` or `Transport.Send` goes through `sanitizeErrMsg`;
* an error of the final close, of a factory, and the value of a panic are
  stored as they are.

Between the map and the column stands `json.Marshal`, which writes U+FFFD for
every byte that is not part of valid UTF-8.  `sanitizeErrMsg` cuts the text at
a byte, so it can leave the first bytes of a character at the end.

`ErrStage.Clean` is the condition on stage and text under which the log gets
the answer of `sanitizeErrMsg`.
-/

namespace ImgSync.Worker

open ImgSync.Lib ImgSync.Queue

/-! ## What the column keeps -/

/-- The string that a reader of the `JSONB` column gets back. -/
def jsonString (s : GoString) : GoString := Utf8.replaceInvalid s

/-- The string under `error`.  The payload of an enqueue event is the
caller's, and no outcome. -/
def storedError : Detail → Option GoString
  | .payload _ => none
  | .fields kv =>
    match kv.lookup "error" with
    | some (.str s) => some (jsonString s)
    | some (.int _) | none => none

/-! ## Where an error text comes from -/

/-- The stages that put an error text into the detail. -/
inductive ErrStage where
  | sourceFactory
  | transportFactory
  | opened
  | transport
  | sourceClose
  | panicked
  deriving DecidableEq, Repr

/-- The value of `stage` in the detail. -/
def ErrStage.name : ErrStage → String
  | .sourceFactory => "source-factory"
  | .transportFactory => "transport-factory"
  | .opened => "open"
  | .transport => "transport"
  | .sourceClose => "source_close"
  | .panicked => "panic"

/-- The stages whose detail is built with `sanitizeErrMsg`. -/
def ErrStage.sanitizes : ErrStage → Bool
  | .opened | .transport => true
  | .sourceFactory | .transportFactory | .sourceClose | .panicked => false

/-- What a stage puts under `error`. -/
def ErrStage.detailText (stage : ErrStage) (text : GoString) : GoString :=
  if stage.sanitizes then sanitizeErrMsg text else text

/-- The error of `ProcessJob` whose text is stored. -/
def Calls.error (c : Calls) : Option (ErrStage × GoString) :=
  match c.opened with
  | .error e => some (.opened, e.text)
  | .ok srcSize =>
    match c.sent with
    | .error e => some (.transport, e.text)
    | .ok (written, _) =>
      -- The detail of a size mismatch has the two sizes and no text.
      if 0 ≤ srcSize ∧ written ≠ srcSize then none
      else if srcSize < 0 ∧ c.read ≠ written then none
      else c.closed.map fun e => (.sourceClose, e.text)

/-- How `processOne` comes to an outcome. -/
inductive Ending where
  | returned (run : JobRun)
  | panicked (rec_ : GoString) (backoffMs : Int)

def Ending.statement (job : Job) : Ending → Statement
  | .returned run => processOne job run
  | .panicked rec_ backoffMs => recoveryWrite job rec_ backoffMs

theorem Ending.job_statement (job : Job) (o : Ending) : (o.statement job).job = job := by
  cases o with
  | returned run => exact (processOne_sound job run).2
  | panicked rec_ backoffMs => exact (writeRetryOrDead_sound job _ backoffMs).2

/-- The error whose text is stored, with its stage. -/
def Ending.error : Ending → Option (ErrStage × GoString)
  | .returned run =>
    match run.sourceFor with
    | some e => some (.sourceFactory, e.text)
    | none =>
      match run.transportFor with
      | some e => some (.transportFactory, e.text)
      | none => run.calls.error
  | .panicked rec_ _ => some (.panicked, rec_)

/-! ## The detail of an outcome -/

/-- A detail that names the error and its stage. -/
def Names (d : Detail) (stage : ErrStage) (text : GoString) : Prop :=
  ∃ rest, d = .fields
    (("error", .str (stage.detailText text)) :: ("stage", .str (goString stage.name)) :: rest)

/-- The detail of an outcome: the error and its stage, or no error. -/
def Reports (d : Detail) : Option (ErrStage × GoString) → Prop
  | some (stage, text) => Names d stage text
  | none => storedError d = none

theorem storedError_of_reports {d : Detail} {err : Option (ErrStage × GoString)}
    (h : Reports d err) : storedError d = err.map fun x => jsonString (x.1.detailText x.2) := by
  cases err with
  | none => exact h
  | some x =>
    obtain ⟨rest, rfl⟩ := h
    rfl

theorem reports_openErrDetails (e : GoError) :
    Reports (openErrDetails e) (some (.opened, e.text)) := ⟨_, rfl⟩

theorem reports_transportErrDetails (e : GoError) :
    Reports (transportErrDetails e) (some (.transport, e.text)) := ⟨_, rfl⟩

theorem reports_verifyAndClose (job : Job) (srcSize written : Int) (shaHex : GoString) (c : Calls) :
    Reports (verifyAndClose job srcSize written shaHex c).detail
      (if 0 ≤ srcSize ∧ written ≠ srcSize then none
        else if srcSize < 0 ∧ c.read ≠ written then none
        else c.closed.map fun e => (.sourceClose, e.text)) := by
  unfold verifyAndClose
  split
  · rw [detail_classifyAndWrite]
    rfl
  split
  · rw [detail_classifyAndWrite]
    rfl
  cases c.closed with
  | none => rfl
  | some e =>
    rw [detail_classifyAndWrite]
    exact ⟨_, rfl⟩

theorem reports_processJob (job : Job) (c : Calls) :
    Reports (processJob job c).detail c.error := by
  cases hopen : c.opened with
  | error e =>
    simp only [processJob, Calls.error, hopen, detail_classifyAndWrite]
    exact reports_openErrDetails e
  | ok srcSize =>
    cases hsent : c.sent with
    | error e =>
      simp only [processJob, Calls.error, hopen, hsent, detail_classifyAndWrite]
      exact reports_transportErrDetails e
    | ok sent =>
      simp only [processJob, Calls.error, hopen, hsent]
      exact reports_verifyAndClose job srcSize sent.1 sent.2 c

/-- Every outcome has its error and its stage in the detail, whatever the
attempts of the job. -/
theorem Ending.reports (job : Job) (o : Ending) : Reports (o.statement job).detail o.error := by
  cases o with
  | returned run =>
    cases hsrc : run.sourceFor with
    | some e =>
      simp only [Ending.statement, Ending.error, processOne, hsrc]
      exact ⟨_, rfl⟩
    | none =>
      cases htr : run.transportFor with
      | some e =>
        simp only [Ending.statement, Ending.error, processOne, hsrc, htr]
        exact ⟨_, rfl⟩
      | none =>
        simp only [Ending.statement, Ending.error, processOne, hsrc, htr]
        exact reports_processJob job run.calls
  | panicked rec_ backoffMs =>
    simp only [Ending.statement, Ending.error, recoveryWrite, detail_writeRetryOrDead]
    exact ⟨_, rfl⟩

/-! ## When the log has the sanitized text -/

/-- The stage and the text for which the log gets the answer of
`sanitizeErrMsg`.  A stage that sanitizes needs a cut that leaves no part of a
character.  A stage that does not needs a text with nothing to sanitize. -/
def ErrStage.Clean (stage : ErrStage) (text : GoString) : Prop :=
  if stage.sanitizes then Utf8.valid (sanitizeErrMsg text) = true
  else Utf8.valid text = true ∧ sanitizeErrMsg text = text

def Ending.Clean (o : Ending) : Prop :=
  ∀ stage text, o.error = some (stage, text) → stage.Clean text

theorem ErrStage.stored_iff (stage : ErrStage) (text : GoString) :
    jsonString (stage.detailText text) = sanitizeErrMsg text ↔ stage.Clean text := by
  unfold ErrStage.Clean ErrStage.detailText
  split
  · exact Utf8.replaceInvalid_eq_self_iff
  · constructor
    · intro heq
      -- `json.Marshal` never shortens a text and `sanitizeErrMsg` never
      -- lengthens one, so here both have left it alone.
      have hlen := Utf8.length_le_replaceInvalid text
      have hsame : sanitizeErrMsg text = text :=
        sanitizeErrMsg_eq_of_length_le (heq ▸ hlen)
      exact ⟨Utf8.replaceInvalid_eq_self_iff.mp (heq.trans hsame), hsame⟩
    · rintro ⟨hvalid, hsame⟩
      rw [hsame]
      exact Utf8.replaceInvalid_eq_self_iff.mpr hvalid

/-- The row of an outcome has the answer of `sanitizeErrMsg` under `error`,
which is no longer than the bound. -/
def Sanitized (o : Ending) (e : EventRow) : Prop :=
  (storedError e.detail = o.error.map fun x => sanitizeErrMsg x.2) ∧
    ∀ s, storedError e.detail = some s → s.length ≤ maxDetailLen

theorem Ending.sanitized_iff (job : Job) (o : Ending) {e : EventRow}
    (he : e.detail = (o.statement job).detail) : Sanitized o e ↔ o.Clean := by
  have hstored := storedError_of_reports (o.reports job)
  rw [← he] at hstored
  unfold Sanitized Ending.Clean
  rw [hstored]
  cases herr : o.error with
  | none => simp
  | some x =>
    obtain ⟨stage, text⟩ := x
    simp only [Option.map_some, Option.some.injEq, Prod.mk.injEq, and_imp]
    constructor
    · rintro ⟨heq, -⟩ stage' text' rfl rfl
      exact (stage.stored_iff text).mp heq
    · intro hclean
      have heq := (stage.stored_iff text).mpr (hclean stage text rfl rfl)
      refine ⟨heq, ?_⟩
      rintro s rfl
      rw [heq]
      exact length_sanitizeErrMsg_le text

/-! ## Runs -/

/-- The step writes no outcome, or a clean one. -/
def Action.Clean : Action → Prop
  | .write _ run => (Ending.returned run).Clean
  | .recover _ rec_ backoffMs => (Ending.panicked rec_ backoffMs).Clean
  | .external _ | .lease _ _ _ | .writeFails _ | .recoverFails _ | .finish _ | .drain _
  | .crash _ => True

/-- Every error text of the log is an answer of `sanitizeErrMsg`. -/
def LogSanitized (t : Tables) : Prop :=
  ∀ e ∈ t.events, ∀ s, storedError e.detail = some s → ∃ text, s = sanitizeErrMsg text

theorem Ending.Clean.stored {o : Ending} (h : o.Clean) (job : Job) {s : GoString}
    (hs : storedError (o.statement job).detail = some s) : ∃ text, s = sanitizeErrMsg text := by
  rw [storedError_of_reports (o.reports job)] at hs
  obtain ⟨⟨stage, text⟩, herr, rfl⟩ := Option.map_eq_some_iff.mp hs
  exact ⟨text, (stage.stored_iff text).mpr (h stage text herr)⟩

/-- The details of a clean step. -/
theorem operation_writes {s : System} {a : Action} (hclean : a.Clean) {op : Op}
    (hop : operation s a = some op) {d : Detail} (hd : op.Writes d) {x : GoString}
    (hx : storedError d = some x) : ∃ text, x = sanitizeErrMsg text := by
  cases a with
  | external o =>
    simp only [operation, Option.ite_none_right_eq_some, Option.some.injEq] at hop
    obtain ⟨hext, rfl⟩ := hop
    cases o with
    | enqueue args =>
      rw [show d = .payload args.newJob.payload from hd] at hx
      cases hx
    | sweep cfg locked =>
      rw [show d = expireDetail from hd] at hx
      cases hx
    | outcome w st => cases hext
    | snifferEnqueue | enqueueBatch | leaseJob | drainLease | retention | rolledBack => cases hd
  | write w run =>
    simp only [operation] at hop
    split at hop <;> cases hop
    rename_i job n _
    rw [show d = (processOne job run).detail from hd] at hx
    exact hclean.stored job hx
  | recover w rec_ backoffMs =>
    simp only [operation] at hop
    split at hop <;> cases hop
    rename_i job n stage _
    rw [show d = (recoveryWrite job rec_ backoffMs).detail from hd] at hx
    exact hclean.stored job hx
  | lease w rowLocked lost | drain w =>
    simp only [operation] at hop
    split at hop <;> cases hop
    cases hd
  | writeFails w | recoverFails w | finish w | crash w => cases hop

theorem LogSanitized.step {s : System} (hinv : SystemInv s) (h : LogSanitized s.tables)
    {a : Time × Action} (hclean : a.2.Clean) : LogSanitized (Worker.step s a).tables := by
  obtain ⟨now, act⟩ := a
  rw [step_tables_eq]
  cases hop : operation s act with
  | none => exact h
  | some op =>
    intro e he x hx
    rcases exec_mem_events hinv.wf he with hold | ⟨hwrites, -⟩
    · exact h e hold x hx
    · exact operation_writes hclean hop hwrites hx

theorem reach_logSanitized {acts : List (Time × Action)} (h : ∀ a ∈ acts, a.2.Clean) :
    LogSanitized (reach acts).tables := by
  refine (foldl_mem (fun s => SystemInv s ∧ LogSanitized s.tables) ?_ ?_ h).2
  · intro s a hs ha
    exact ⟨step_inv s a hs.1, hs.2.step hs.1 ha⟩
  · exact ⟨systemInv_init, fun e he => by cases he⟩

/-- For every way in which a job ends, the row that its statement writes has
the answer of `sanitizeErrMsg` under `error` exactly when stage and text are
clean, whatever the tables and the attempts of the job.  In a run of clean
steps, every error text of the log is such an answer and keeps the bound. -/
theorem audit_errors_sanitized (t : Tables) (acts : List (Time × Action)) :
    (∀ (now : Time) (w : String) (job : Job) (o : Ending),
      ∀ e ∈ ((o.statement job).exec t now w).1.events,
        e ∈ t.events ∨ e.jobId = job.id ∧ (Sanitized o e ↔ o.Clean)) ∧
    ((∀ a ∈ acts, a.2.Clean) →
      ∀ e ∈ (reach acts).tables.events, ∀ s, storedError e.detail = some s →
        (∃ text, s = sanitizeErrMsg text) ∧ s.length ≤ maxDetailLen) := by
  constructor
  · intro now w job o e he
    rcases Statement.mem_events he with hold | ⟨hid, -, hdetail⟩
    · exact Or.inl hold
    · exact Or.inr ⟨hid.trans (congrArg JobRow.id (o.job_statement job)),
        o.sanitized_iff job hdetail⟩
  · intro hclean e he s hs
    obtain ⟨text, rfl⟩ := reach_logSanitized hclean e he s hs
    exact ⟨⟨text, rfl⟩, length_sanitizeErrMsg_le text⟩

/-- An error text with credentials. -/
def leak : GoString := goString "dial ftp://bob:pw@host/x"

/-- The first lease of `releaseRun`. -/
def leaseRun : List (Time × Action) := releaseRun.take 2

/-- Nothing fails. -/
def quietCalls : Calls := ⟨.ok 7, .ok (7, goString "ab"), 7, none, 12, 2000⟩

/-- `Source.Open` fails with the text. -/
def openFails (text : GoString) : JobRun :=
  ⟨none, none, { quietCalls with opened := .error ⟨text, false, false⟩ }⟩

/-- The open of the leased job fails. -/
def openRun : List (Time × Action) := leaseRun ++ [(1000, .write "pod-w0" (openFails leak))]

/-- A failed open is logged without the credentials. -/
theorem audit_errors_sanitized_open :
    (∀ a ∈ openRun, a.2.Clean) ∧
    (reach openRun).tables.events.map (fun e => storedError e.detail) =
      [some (goString "dial ftp://host/x")] ∧
    ∀ e ∈ (reach openRun).tables.events, ∀ s, storedError e.detail = some s →
      (∃ text, s = sanitizeErrMsg text) ∧ s.length ≤ maxDetailLen := by
  have hclean : (Ending.returned (openFails leak)).Clean := by
    intro stage text herr
    obtain ⟨rfl, rfl⟩ := Prod.mk.inj (Option.some.inj herr)
    show Utf8.valid (sanitizeErrMsg leak) = true
    decide
  have hrun : ∀ a ∈ openRun, a.2.Clean := by
    intro a ha
    simp only [openRun, leaseRun, releaseRun, List.take, List.cons_append, List.nil_append,
      List.mem_cons, List.not_mem_nil, or_false] at ha
    rcases ha with rfl | rfl | rfl
    · trivial
    · trivial
    · exact hclean
  exact ⟨hrun, by decide, (audit_errors_sanitized .empty openRun).2 hrun⟩

/-- The text at the four stages that store it as it is. -/
def rawEndings (text : GoString) : List Ending :=
  [.returned ⟨some ⟨text, false, false⟩, none, quietCalls⟩,
    .returned ⟨none, some ⟨text, false, false⟩, quietCalls⟩,
    .returned ⟨none, none, { quietCalls with closed := some ⟨text, false, false⟩ }⟩,
    .panicked text 2000]

/-- A text of 1023 digits and a character of two bytes. -/
def longText : GoString := List.replicate 1023 48 ++ [0xC3, 0xA9]

/-- The four stages log the credentials.  A text that is cut inside of a
character is logged with two bytes more than the bound. -/
theorem audit_errors_raw :
    sanitizeErrMsg leak = goString "dial ftp://host/x" ∧
    (∀ o ∈ rawEndings leak,
      ((o.statement firstLease).exec (reach leaseRun).tables 1000 "pod-w0").1.events.map
        (fun e => storedError e.detail) = [some leak]) ∧
    ((processOne firstLease (openFails longText)).exec
      (reach leaseRun).tables 1000 "pod-w0").1.events.map
        (fun e => (storedError e.detail).map List.length) = [some 1026] := by
  refine ⟨by decide, ?_, by decide +kernel⟩
  intro o ho
  simp only [rawEndings, List.mem_cons, List.not_mem_nil, or_false] at ho
  rcases ho with rfl | rfl | rfl | rfl <;> decide

end ImgSync.Worker
