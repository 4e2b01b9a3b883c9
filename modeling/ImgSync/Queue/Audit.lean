import ImgSync.Lib.Run
import ImgSync.Queue.Ops

/-!
# The audit trail

The events of a job tell its status: a terminal job has one closing event,
which matches the status and is the last one of the trail, and a job that is
still in the queue has none.  `Closed` is the shape of a trail that the proof
carries from operation to operation, and `AuditAgreement` is the agreement
that the two tables keep.

The operations of `Op` take arbitrary arguments.  In particular an outcome
statement may come from any worker, for any snapshot, at any time, so the
result does not depend on how workers behave.
-/

namespace ImgSync.Queue

open ImgSync.Lib ImgSync.Worker

/-- The agreement between the status of a job and its trail. -/
structure AuditAgreement (status : JobStatus) (trail : List EventStatus) : Prop where
  terminal : status.Terminal = true ↔
    ∃ e, trail.filter EventStatus.Terminal = [e] ∧ status.closedBy = some e ∧
      trail.getLast? = some e
  queued : status.Terminal = false → ∀ e ∈ trail, e.Terminal = false

/-- The shape of a trail: no closing event so far, and then the closing event
of the status, if it has one. -/
def Closed (status : JobStatus) (trail : List EventStatus) : Prop :=
  ∃ before, (∀ e ∈ before, e.Terminal = false) ∧ trail = before ++ status.closedBy.toList

/-- A status is terminal exactly when some event kind closes it, and that
kind is a closing one. -/
theorem JobStatus.closedBy_cases (status : JobStatus) :
    status.Terminal = false ∧ status.closedBy = none ∨
      ∃ e, status.Terminal = true ∧ status.closedBy = some e ∧ e.Terminal = true := by
  cases status <;> simp [JobStatus.Terminal, JobStatus.closedBy, EventStatus.Terminal]

theorem Closed.agreement {status : JobStatus} {trail : List EventStatus}
    (h : Closed status trail) : AuditAgreement status trail := by
  obtain ⟨before, hbefore, rfl⟩ := h
  have hnone : before.filter EventStatus.Terminal = [] := by
    rw [List.filter_eq_nil_iff]
    intro e he
    simp [hbefore e he]
  rcases status.closedBy_cases with ⟨hstatus, hby⟩ | ⟨e, hstatus, hby, he⟩
  · refine ⟨⟨fun ht => ?_, ?_⟩, fun _ => ?_⟩
    · simp [hstatus] at ht
    · rintro ⟨e, _, heq, _⟩
      simp [hby] at heq
    · simpa [hby] using hbefore
  · refine ⟨⟨fun _ => ⟨e, ?_, hby, ?_⟩, fun _ => hstatus⟩, fun ht => ?_⟩
    · simp [hby, hnone, he]
    · simp [hby]
    · simp [hstatus] at ht

/-- A trail of a queued job, continued by events that do not close it. -/
theorem Closed.queued {s s' : JobStatus} {trail kinds : List EventStatus}
    (h : Closed s trail) (hs : s.closedBy = none) (hs' : s'.closedBy = none)
    (hkinds : ∀ e ∈ kinds, e.Terminal = false) : Closed s' (trail ++ kinds) := by
  obtain ⟨before, hbefore, rfl⟩ := h
  refine ⟨before ++ kinds, ?_, by simp [hs, hs']⟩
  intro e he
  rcases List.mem_append.mp he with he | he
  · exact hbefore e he
  · exact hkinds e he

/-- A trail of a queued job, continued by the event that closes it. -/
theorem Closed.close {s s' : JobStatus} {trail : List EventStatus} {e : EventStatus}
    (h : Closed s trail) (hs : s.closedBy = none) (hs' : s'.closedBy = some e) :
    Closed s' (trail ++ [e]) := by
  obtain ⟨before, hbefore, rfl⟩ := h
  exact ⟨before, hbefore, by simp [hs, hs']⟩

/-- The guard of an outcome write picks leased rows only. -/
theorem leased_of_guard {id : Nat} {w : String} {r : JobRow}
    (hg : leaseGuard id w r = true) : r.status = .leased := by
  simp only [leaseGuard, heldBy, Bool.and_eq_true, beq_iff_eq] at hg
  exact hg.2.1

/-- What one operation does to one row keeps the shape of its trail. -/
theorem RowStep.closed {now : Time} {op : Op} {r r' : JobRow} {kinds trail : List EventStatus}
    (hstep : RowStep now op r r' kinds) (h : Closed r.status trail) :
    Closed r'.status (trail ++ kinds) := by
  cases hstep with
  | keep => simpa using h
  | lease w _ hp _ =>
    exact h.queued (by rw [hp]; rfl) rfl (by simp)
  | drain w hh =>
    simp only [heldBy, Bool.and_eq_true, beq_iff_eq] at hh
    exact h.queued (by rw [hh.1]; rfl) rfl (by simp)
  | expire cfg he =>
    simp only [expired, Bool.and_eq_true, beq_iff_eq] at he
    exact h.queued (by rw [he.1]; rfl) rfl (by simp [EventStatus.Terminal])
  | succeed w job d hg =>
    exact h.close (by rw [leased_of_guard hg]; rfl) rfl
  | finish w job kind attempts d hg =>
    refine h.close (by rw [leased_of_guard hg]; rfl) ?_
    cases kind <;> rfl
  | retry w job attempts backoffMs d hg =>
    exact h.queued (by rw [leased_of_guard hg]; rfl) rfl (by simp [EventStatus.Terminal])

theorem Created.closed {r : JobRow} {kinds : List EventStatus} (h : Created r kinds) :
    Closed r.status kinds := by
  refine ⟨kinds, ?_, by simp [h.pending, JobStatus.closedBy]⟩
  rcases h.kinds with rfl | rfl <;> simp [EventStatus.Terminal]

/-- The tables that a run of operations reaches. -/
structure Audited (t : Tables) : Prop where
  wf : t.Wf
  rows : ∀ r ∈ t.jobs, Closed r.status (t.trail r.id)

theorem exec_audited {t : Tables} (h : Audited t) (now : Time) (op : Op) :
    Audited (exec t now op) where
  wf := exec_wf h.wf now op
  rows := exec_rows (P := fun r trail => Closed r.status trail) h.wf now op
    (fun _ _ hc => hc.closed) (fun _ _ _ _ hstep hr => hstep.closed hr) h.rows

theorem execAll_audited (ops : List (Time × Op)) : Audited (execAll ops) := by
  have hempty : Audited Tables.empty := ⟨Tables.wf_empty, by simp [Tables.empty]⟩
  rw [execAll]
  exact foldl_invariant Audited (fun t o h => exec_audited h o.1 o.2) hempty ops

/-- An operation leaves a terminal row as it is, unless it is the retention
job and deletes the row. -/
theorem exec_terminal {t : Tables} (hwf : t.Wf) (now : Time) (op : Op) {r : JobRow}
    (hr : r ∈ t.jobs) (hterm : r.status.Terminal = true) :
    (∀ r' ∈ (exec t now op).jobs, r'.id = r.id → r' = r) ∧
      (¬op.IsRetention → r ∈ (exec t now op).jobs) := by
  have hwf' := exec_wf hwf now op
  by_cases hop : op.IsRetention
  · obtain ⟨keep, h⟩ := exec_retention hwf now hop
    refine ⟨fun r' hr' hid => ?_, fun hn => absurd hop hn⟩
    exact eq_of_key_eq hwf.ids (h.trail hr').1 hr hid
  · obtain ⟨d⟩ := exec_delta hwf now hop
    have hkept : r ∈ (exec t now op).jobs := by
      rw [d.mem_jobs]
      exact Or.inl ⟨r, hr, (d.rows r hr).eq_of_terminal hterm⟩
    exact ⟨fun r' hr' hid => eq_of_key_eq hwf'.ids hr' hkept hid, fun _ => hkept⟩

/-- The audit trail of every job in every state that the writers of the two
tables can reach, in any order and with any arguments.  The status and the
trail agree, and no operation rewrites a terminal row. -/
theorem audit_trail_agreement (ops : List (Time × Op)) :
    (∀ r ∈ (execAll ops).jobs, AuditAgreement r.status ((execAll ops).trail r.id)) ∧
      ∀ r ∈ (execAll ops).jobs, r.status.Terminal = true → ∀ (now : Time) (op : Op),
        (∀ r' ∈ (exec (execAll ops) now op).jobs, r'.id = r.id → r' = r) ∧
          (¬op.IsRetention → r ∈ (exec (execAll ops) now op).jobs) := by
  have h := execAll_audited ops
  refine ⟨fun r hr => (h.rows r hr).agreement, fun r hr hterm now op => ?_⟩
  exact exec_terminal h.wf now op hr hterm

end ImgSync.Queue
