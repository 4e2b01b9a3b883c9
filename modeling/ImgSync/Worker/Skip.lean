import ImgSync.Queue.Audit
import ImgSync.Worker.StoredError

/-!
# Why a job was skipped

A job is skipped when an error of `Source.Open`, of `Transport.Send` or of the
final close wraps `ErrSkippable` (`internal/worker/process.go`).  Each of the
three stages builds its own detail, and only the one of `Open` has a `reason`.
So a skipped job has one skip event in every run, and the event has a reason as
long as the skips come from `Open`.
-/

namespace ImgSync.Worker

open ImgSync.Lib ImgSync.Queue

/-- The string under `reason`. -/
def storedReason : Detail → Option GoString
  | .payload _ => none
  | .fields kv =>
    match kv.lookup "reason" with
    | some (.str s) => some (jsonString s)
    | some (.int _) | none => none

/-- The detail has a reason that is not empty. -/
def Explained (d : Detail) : Prop := ∃ s, storedReason d = some s ∧ s ≠ []

/-- The skip events of a job. -/
def skipEvents (t : Tables) (id : Nat) : List EventRow :=
  t.events.filter fun e => e.jobId == id && e.status == .skip

/-! ## Where a skip comes from -/

/-- The stage whose error wraps `ErrSkippable` and ends the job. -/
def Calls.skippedAt (c : Calls) : Option ErrStage :=
  match c.opened with
  | .error e => if e.isSkippable then some .opened else none
  | .ok srcSize =>
    match c.sent with
    | .error e => if e.isSkippable then some .transport else none
    | .ok (written, _) =>
      if 0 ≤ srcSize ∧ written ≠ srcSize then none
      else if srcSize < 0 ∧ c.read ≠ written then none
      else
        match c.closed with
        | some e => if e.isSkippable then some .sourceClose else none
        | none => none

/-- A failed factory lookup and a panic never skip a job. -/
def Ending.skippedAt : Ending → Option ErrStage
  | .returned run =>
    if run.sourceFor.isSome || run.transportFor.isSome then none else run.calls.skippedAt
  | .panicked _ _ => none

/-- What a statement says about a skip at a stage. -/
structure Skips (st : Statement) (stage : Option ErrStage) : Prop where
  event : st.event = .skip ↔ stage.isSome
  reason : st.event = .skip → (Explained st.detail ↔ stage = some .opened)

theorem skips_none {st : Statement} (h : st.event ≠ .skip) : Skips st none :=
  ⟨⟨fun heq => absurd heq h, fun hn => by cases hn⟩, fun heq => absurd heq h⟩

theorem event_writeRetryOrDead (job : Job) (d : Detail) (b : Int) :
    (writeRetryOrDead job d b).event ≠ .skip := by
  rw [writeRetryOrDead]
  split <;> simp [Statement.event, TerminalKind.eventStatus]

/-- `classifyAndWrite` skips exactly the errors that wrap `ErrSkippable`. -/
theorem skips_classifyAndWrite (job : Job) (e : GoError) (d : Detail) (b : Int)
    (stage : ErrStage) (h : e.isSkippable = true → (Explained d ↔ stage = .opened)) :
    Skips (classifyAndWrite job e d b) (if e.isSkippable then some stage else none) := by
  rcases classifyAndWrite_cases job e d b with ⟨hskip, heq⟩ | ⟨hskip, heq⟩ | ⟨hskip, -, heq⟩
  · rw [heq, hskip]
    refine ⟨⟨fun _ => rfl, fun _ => rfl⟩, fun _ => (h hskip).trans ?_⟩
    simp
  · rw [heq, hskip]
    exact skips_none (by simp [Statement.event, TerminalKind.eventStatus])
  · rw [heq, hskip]
    exact skips_none (by simp [Statement.event])

theorem explained_openErrDetails {e : GoError} (h : e.isSkippable = true) :
    Explained (openErrDetails e) := by
  refine ⟨jsonString (goString "source_not_found"), ?_, by decide⟩
  simp [openErrDetails, storedReason, h, List.lookup_cons]

/-- A detail without the field. -/
theorem not_explained {kv : List (String × DetailValue)} (h : kv.lookup "reason" = none) :
    ¬Explained (.fields kv) := by
  rintro ⟨s, hs, -⟩
  simp [storedReason, h] at hs

theorem skips_verifyAndClose (job : Job) (srcSize written : Int) (shaHex : GoString) (c : Calls) :
    Skips (verifyAndClose job srcSize written shaHex c)
      (if 0 ≤ srcSize ∧ written ≠ srcSize then none
        else if srcSize < 0 ∧ c.read ≠ written then none
        else
          match c.closed with
          | some e => if e.isSkippable then some .sourceClose else none
          | none => none) := by
  -- The error of a size mismatch is permanent.
  have hmismatch : ∀ label expected d,
      Skips (classifyAndWrite job (sizeMismatchErr label expected written) d c.backoffMs) none :=
    fun label expected d =>
      skips_classifyAndWrite job _ d c.backoffMs .opened (by simp [sizeMismatchErr])
  unfold verifyAndClose
  split
  · exact hmismatch ..
  split
  · exact hmismatch ..
  cases c.closed with
  | none => exact skips_none (by simp [Statement.event])
  | some e =>
    refine skips_classifyAndWrite job (e.wrap _) _ c.backoffMs .sourceClose fun _ => ?_
    exact iff_of_false (not_explained rfl) (by simp)

theorem skips_processJob (job : Job) (c : Calls) : Skips (processJob job c) c.skippedAt := by
  cases hopen : c.opened with
  | error e =>
    simp only [processJob, Calls.skippedAt, hopen]
    exact skips_classifyAndWrite job e _ _ .opened fun hskip =>
      iff_of_true (explained_openErrDetails hskip) rfl
  | ok srcSize =>
    cases hsent : c.sent with
    | error e =>
      simp only [processJob, Calls.skippedAt, hopen, hsent]
      exact skips_classifyAndWrite job e _ _ .transport fun _ =>
        iff_of_false (not_explained rfl) (by simp)
    | ok sent =>
      simp only [processJob, Calls.skippedAt, hopen, hsent]
      exact skips_verifyAndClose job srcSize sent.1 sent.2 c

/-- A job is skipped at one of three stages, and explained at one of them. -/
theorem Ending.skips (job : Job) (o : Ending) : Skips (o.statement job) o.skippedAt := by
  cases o with
  | panicked rec_ backoffMs => exact skips_none (event_writeRetryOrDead job _ backoffMs)
  | returned run =>
    cases hsrc : run.sourceFor with
    | some e =>
      simp only [Ending.statement, Ending.skippedAt, processOne, hsrc, Option.isSome_some,
        Bool.true_or, if_true]
      exact skips_none (by simp [writeTerminal, Statement.event, TerminalKind.eventStatus])
    | none =>
      cases htr : run.transportFor with
      | some e =>
        simp only [Ending.statement, Ending.skippedAt, processOne, hsrc, htr, Option.isSome_some,
          Bool.or_true, if_true]
        exact skips_none (by simp [writeTerminal, Statement.event, TerminalKind.eventStatus])
      | none =>
        simp only [Ending.statement, Ending.skippedAt, processOne, hsrc, htr, Option.isSome_none,
          Bool.or_false, if_false, Bool.false_eq_true]
        exact skips_processJob job run.calls

/-! ## Runs -/

/-- The step writes no skip, or one of `Source.Open`. -/
def Action.SkipsAtOpen : Action → Prop
  | .write _ run => ∀ stage, (Ending.returned run).skippedAt = some stage → stage = .opened
  | _ => True

/-- Every skip event of the log is explained. -/
def SkipsExplained (t : Tables) : Prop := ∀ e ∈ t.events, e.status = .skip → Explained e.detail

theorem operation_skips {s : System} {a : Action} (hopen : a.SkipsAtOpen) {op : Op}
    (hop : operation s a = some op) {d : Detail} (hd : op.Writes d)
    (hkind : op.kind = some .skip) : Explained d := by
  cases a with
  | external o =>
    simp only [operation, Option.ite_none_right_eq_some, Option.some.injEq] at hop
    obtain ⟨hext, rfl⟩ := hop
    cases o with
    | outcome w st => cases hext
    | enqueue | sweep | snifferEnqueue | enqueueBatch | leaseJob | drainLease | retention
    | rolledBack => cases hkind
  | write w run =>
    simp only [operation] at hop
    split at hop <;> cases hop
    rename_i job n _
    have hskips : Skips (processOne job run) (Ending.returned run).skippedAt :=
      (Ending.returned run).skips job
    have hevent : (processOne job run).event = .skip := Option.some.inj hkind
    obtain ⟨stage, hstage⟩ := Option.isSome_iff_exists.mp (hskips.event.mp hevent)
    rw [show d = (processOne job run).detail from hd]
    exact (hskips.reason hevent).mpr (hopen stage hstage ▸ hstage)
  | recover w rec_ backoffMs =>
    simp only [operation] at hop
    split at hop <;> cases hop
    exact absurd (Option.some.inj hkind) (event_writeRetryOrDead _ _ backoffMs)
  | lease w rowLocked lost | drain w =>
    simp only [operation] at hop
    split at hop <;> cases hop
    cases hd
  | writeFails w | recoverFails w | finish w | crash w => cases hop

theorem SkipsExplained.step {s : System} (hwf : s.tables.Wf) (h : SkipsExplained s.tables)
    {a : Time × Action} (hopen : a.2.SkipsAtOpen) : SkipsExplained (Worker.step s a).tables := by
  obtain ⟨now, act⟩ := a
  rw [step_tables_eq]
  cases hop : operation s act with
  | none => exact h
  | some op =>
    intro e he hskip
    rcases exec_mem_events hwf he with hold | ⟨hwrites, hkind⟩
    · exact h e hold hskip
    · exact operation_skips hopen hop hwrites (hskip ▸ hkind)

theorem reach_skipsExplained {acts : List (Time × Action)} (h : ∀ a ∈ acts, a.2.SkipsAtOpen) :
    SkipsExplained (reach acts).tables := by
  refine (foldl_mem (fun s => SystemInv s ∧ SkipsExplained s.tables) ?_ ?_ h).2
  · intro s a hs ha
    exact ⟨step_inv s a hs.1, hs.2.step hs.1.wf ha⟩
  · exact ⟨systemInv_init, fun e he => by cases he⟩

theorem reach_audited (acts : List (Time × Action)) : Audited (reach acts).tables := by
  refine foldl_invariant (fun s : System => Audited s.tables) ?_
    ⟨Tables.wf_empty, fun r hr => by cases hr⟩ acts
  rintro s ⟨now, act⟩ h
  rw [step_tables_eq]
  cases operation s act with
  | none => exact h
  | some op => exact exec_audited h now op

/-- The closing event of a skipped job is its only skip event. -/
theorem skipEvents_eq {t : Tables} (h : Audited t) {r : JobRow} (hr : r ∈ t.jobs)
    (hskipped : r.status = .skipped) : ∃ e, skipEvents t r.id = [e] := by
  obtain ⟨before, hbefore, htrail⟩ := h.rows r hr
  have hnone : before.filter (· == .skip) = [] := by
    rw [List.filter_eq_nil_iff]
    intro k hk hskip
    have hopen := hbefore k hk
    rw [beq_iff_eq.mp hskip] at hopen
    cases hopen
  have hkinds : (skipEvents t r.id).map EventRow.status = [.skip] := by
    calc (skipEvents t r.id).map EventRow.status
        = (t.trail r.id).filter (· == .skip) := by
          rw [Tables.trail, kindsOf, List.filter_map, List.filter_filter]
          refine congrArg (List.map EventRow.status) (List.filter_congr fun e _ => ?_)
          exact Bool.and_comm _ _
      _ = [.skip] := by
          rw [htrail, hskipped, List.filter_append, hnone]
          rfl
  have hlen := congrArg List.length hkinds
  rw [List.length_map] at hlen
  exact List.length_eq_one_iff.mp hlen

/-- Every run: a job that ends skipped has one skip event, and if the skips come from
`Source.Open` the event has a reason.  For every statement that ends a job, a
skip event that it writes has a reason exactly if the skip comes from there. -/
theorem skips_explained (t : Tables) (acts : List (Time × Action)) :
    (∀ r ∈ (reach acts).tables.jobs, r.status = .skipped →
      ∃ e, skipEvents (reach acts).tables r.id = [e]) ∧
    ((∀ a ∈ acts, a.2.SkipsAtOpen) → ∀ r ∈ (reach acts).tables.jobs, r.status = .skipped →
      ∃ e, skipEvents (reach acts).tables r.id = [e] ∧ Explained e.detail) ∧
    ∀ (now : Time) (w : String) (job : Job) (o : Ending),
      ∀ e ∈ ((o.statement job).exec t now w).1.events,
        e ∈ t.events ∨ (e.status = .skip → (Explained e.detail ↔ o.skippedAt = some .opened)) := by
  refine ⟨fun r hr => skipEvents_eq (reach_audited acts) hr, ?_, ?_⟩
  · intro hopen r hr hskipped
    obtain ⟨e, he⟩ := skipEvents_eq (reach_audited acts) hr hskipped
    have hmem : e ∈ skipEvents (reach acts).tables r.id := he ▸ List.mem_singleton_self e
    obtain ⟨hevent, hkind⟩ := List.mem_filter.mp hmem
    rw [Bool.and_eq_true, beq_iff_eq, beq_iff_eq] at hkind
    exact ⟨e, he, reach_skipsExplained hopen e hevent hkind.2⟩
  · intro now w job o e he
    rcases Statement.mem_events he with hold | ⟨-, hkind, hdetail⟩
    · exact Or.inl hold
    · refine Or.inr fun hskip => ?_
      rw [hdetail]
      exact (o.skips job).reason (hkind ▸ hskip)

def goneErr : GoError := ⟨goString "gone", true, false⟩

/-- The leased job of `leaseRun` ends with the calls. -/
def endRun (c : Calls) : List (Time × Action) :=
  leaseRun ++ [(1000, .write "pod-w0" ⟨none, none, c⟩)]

def openSkips : List (Time × Action) := endRun { quietCalls with opened := .error goneErr }

/-- The source of the leased job does not exist. -/
theorem skips_explained_open :
    (∀ a ∈ openSkips, a.2.SkipsAtOpen) ∧
    (reach openSkips).tables.jobs.map JobRow.status = [.skipped] ∧
    ∀ r ∈ (reach openSkips).tables.jobs, r.status = .skipped →
      ∃ e, skipEvents (reach openSkips).tables r.id = [e] ∧ Explained e.detail := by
  have hopen : ∀ a ∈ openSkips, a.2.SkipsAtOpen := by
    intro a ha
    simp only [openSkips, endRun, leaseRun, releaseRun, List.take, List.cons_append,
      List.nil_append, List.mem_cons, List.not_mem_nil, or_false] at ha
    rcases ha with rfl | rfl | rfl
    · trivial
    · trivial
    · intro stage hstage
      exact (Option.some.inj hstage).symm
  exact ⟨hopen, by decide, (skips_explained .empty _).2.1 hopen⟩

def sendSkips : List (Time × Action) := endRun { quietCalls with sent := .error goneErr }

def closeSkips : List (Time × Action) := endRun { quietCalls with closed := some goneErr }

/-- An error of `Transport.Send`, and one of the final close, wraps `ErrSkippable`. -/
theorem skips_unexplained :
    (reach sendSkips).tables.jobs.map JobRow.status = [.skipped] ∧
    (skipEvents (reach sendSkips).tables 1).map (fun e => storedReason e.detail) = [none] ∧
    (reach closeSkips).tables.jobs.map JobRow.status = [.skipped] ∧
    (skipEvents (reach closeSkips).tables 1).map (fun e => storedReason e.detail) = [none] := by
  decide

end ImgSync.Worker
