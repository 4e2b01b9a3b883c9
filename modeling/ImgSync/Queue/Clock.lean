import ImgSync.Queue.Audit

/-!
# The time stamps of the queue

Every statement writes `NOW()` into `updated_at` of the rows that it changes
and into `ts` of the events that it inserts.  On a database clock that does not
go back the stamps of a row and its events therefore fit together, whichever
writers were at work:

* `Delta.new_stamps` and `exec_appends_events`: what an operation inserts
  carries its `NOW()`;
* `RowStep.stamps`: so does every row that it changes;
* `Dated`: what the stamps of one row say about its events, kept by every
  operation (`exec_dated`) and so by every run (`foldl_dated`);
* `retention_outdated`: the rows that retention drops are the outdated ones.

Retention looks at `updated_at` only.  `clock_agreement` says what that is worth
for the audit log: no event is deleted before it is older than the window.
-/

namespace ImgSync.Queue

open ImgSync.Lib ImgSync.Worker

/-! ## What an operation inserts -/

/-- The rows that an operation asks the table to insert. -/
def Op.newJobs : Op → List NewJob
  | .enqueue a => [a.newJob]
  | .snifferEnqueue j => [j.newJob]
  | .enqueueBatch specs => specs.map JobSpec.newJob
  | _ => []

/-- The row is one of the inserted ones, with the defaults of the schema. -/
def Inserted (now : Time) (news : List NewJob) (r : JobRow) : Prop :=
  ∃ n ∈ news, r = n.row now r.id

theorem Inserted.mono {now : Time} {news news' : List NewJob} {r : JobRow}
    (hsub : ∀ n ∈ news, n ∈ news') (h : Inserted now news r) : Inserted now news' r := by
  obtain ⟨n, hn, heq⟩ := h
  exact ⟨n, hsub n hn, heq⟩

theorem insertJob_inserted {t : Tables} {now : Time} {n : NewJob} {r : JobRow}
    (hr : r ∈ (t.insertJob now n).1.jobs) : r ∈ t.jobs ∨ Inserted now [n] r := by
  rw [Tables.insertJob] at hr
  split at hr
  · exact Or.inl hr
  · rcases List.mem_append.mp hr with hr | hr
    · exact Or.inl hr
    · rw [List.mem_singleton.mp hr]
      exact Or.inr ⟨n, List.mem_singleton_self n, rfl⟩

theorem insertAll_inserted {t : Tables} {now : Time} {specs : List JobSpec} {r : JobRow}
    (hr : r ∈ (insertAll now t specs).1.jobs) :
    r ∈ t.jobs ∨ Inserted now (specs.map JobSpec.newJob) r := by
  induction specs generalizing t with
  | nil => exact Or.inl hr
  | cons j rest ih =>
    rcases ih hr with hr | hr
    · refine (insertJob_inserted hr).imp_right fun h => h.mono fun n hn => ?_
      rw [List.mem_singleton.mp hn]
      exact List.mem_cons_self
    · exact Or.inr (hr.mono fun n hn => List.mem_cons_of_mem _ hn)

theorem enqueue_inserted {t : Tables} {now : Time} {a : EnqueueArgs} {r : JobRow}
    (hr : r ∈ (enqueue t now a).1.jobs) : r ∈ t.jobs ∨ Inserted now [a.newJob] r := by
  have hins : r ∈ (t.insertJob now a.newJob).1.jobs → r ∈ t.jobs ∨ Inserted now [a.newJob] r :=
    insertJob_inserted
  rw [enqueue] at hr
  split at hr
  · exact Or.inl hr
  split at hr
  · exact Or.inl hr
  split at hr
  · exact Or.inl hr
  split at hr
  · rename_i t' id heq
    rw [heq] at hins
    exact hins hr
  · rename_i t' heq
    rw [heq] at hins
    split at hr
    · exact hins hr
    · exact Or.inl hr

/-- An update keeps the ids of its rows. -/
theorem exec_updates_id {t : Tables} (hwf : t.Wf) {now : Time} {op : Op} {r : JobRow}
    (hr : r ∈ (exec t now op).jobs) (hop : op.updates = true) : ∃ x ∈ t.jobs, x.id = r.id := by
  obtain ⟨d, hnone⟩ := exec_updates hwf now hop
  rcases d.mem_jobs.mp hr with ⟨x, hx, rfl⟩ | hr
  · exact ⟨x, hx, (d.rows x hx).immutable.1.symm⟩
  · rw [hnone] at hr
    exact absurd hr List.not_mem_nil

/-- A row with an id that the table did not have is one that the operation
inserts. -/
theorem exec_inserted {t : Tables} (hwf : t.Wf) {now : Time} {op : Op} {r : JobRow}
    (hr : r ∈ (exec t now op).jobs) (hnew : ∀ x ∈ t.jobs, x.id ≠ r.id) :
    Inserted now op.newJobs r := by
  have hold : r ∉ t.jobs := fun h => hnew r h rfl
  cases op with
  | enqueue a => exact (enqueue_inserted hr).resolve_left hold
  | snifferEnqueue j => exact (insertJob_inserted hr).resolve_left hold
  | enqueueBatch specs =>
    rw [exec, enqueueBatch] at hr
    split at hr
    · exact absurd hr hold
    · exact (insertAll_inserted hr).resolve_left hold
  | leaseJob w rowLocked | outcome w st | sweep cfg locked | drainLease w =>
    obtain ⟨x, hx, hid⟩ := exec_updates_id hwf hr rfl
    exact absurd hid (hnew x hx)
  | retention cfg locked pick =>
    obtain ⟨keep, h⟩ :=
      exec_retention hwf now (show (Op.retention cfg locked pick).IsRetention from trivial)
    exact absurd (h.trail hr).1 hold
  | rolledBack jobIds eventIds => exact absurd hr hold

theorem Delta.new_inserted {t : Tables} {now : Time} {op : Op}
    (d : Delta now op t (exec t now op)) (hwf : t.Wf) {r : JobRow} (hr : r ∈ d.new) :
    Inserted now op.newJobs r := by
  refine exec_inserted hwf (d.mem_jobs.mpr (Or.inr hr)) fun x hx heq => ?_
  have hlt := hwf.seq x hx
  have hge := (d.newSeq r hr).1
  omega

/-- The stamps of a row that has just been inserted. -/
structure Stamped (now : Time) (r : JobRow) : Prop where
  created : r.createdAt = now
  updated : r.updatedAt = now
  nextRun : r.nextRunAt = now

theorem Delta.new_stamps {t : Tables} {now : Time} {op : Op}
    (d : Delta now op t (exec t now op)) (hwf : t.Wf) {r : JobRow} (hr : r ∈ d.new) :
    Stamped now r := by
  obtain ⟨n, -, heq⟩ := d.new_inserted hwf hr
  rw [heq]
  exact ⟨rfl, rfl, rfl⟩

theorem foldl_insertEvent_ts (now : Time) (ev : EventStatus) (det : Detail) (j : JobRow → Nat)
    (rows : List JobRow) (t : Tables) :
    ∃ evs, (rows.foldl (fun t r => t.insertEvent now r.traceId (j r) ev det) t).events =
        t.events ++ evs ∧ ∀ e ∈ evs, e.ts = now := by
  induction rows generalizing t with
  | nil => exact ⟨[], (List.append_nil _).symm, by simp⟩
  | cons r rows ih =>
    obtain ⟨evs, heq, hts⟩ := ih (t.insertEvent now r.traceId (j r) ev det)
    refine ⟨⟨t.eventSeq, r.traceId, j r, now, ev, det⟩ :: evs, ?_, ?_⟩
    · rw [List.foldl_cons, heq, Tables.insertEvent, List.append_assoc, List.singleton_append]
    · intro e he
      rcases List.mem_cons.mp he with rfl | he
      · rfl
      · exact hts e he

theorem enqueue_appends (t : Tables) (now : Time) (a : EnqueueArgs) :
    ∃ evs, (enqueue t now a).1.events = t.events ++ evs ∧ ∀ e ∈ evs, e.ts = now := by
  have hsame : ∃ evs, t.events = t.events ++ evs ∧ ∀ e ∈ evs, e.ts = now :=
    ⟨[], (List.append_nil _).symm, by simp⟩
  have hins := insertJob_events t now a.newJob
  rw [enqueue]
  split
  · exact hsame
  split
  · exact hsame
  split
  · exact hsame
  split
  · rename_i t' id heq
    rw [heq] at hins
    exact ⟨[⟨t'.eventSeq, a.traceId, id, now, .enqueue, .payload a.newJob.payload⟩],
      congrArg (· ++ _) hins, by simp⟩
  · rename_i t' heq
    rw [heq] at hins
    split
    · exact ⟨[], hins.trans (List.append_nil _).symm, by simp⟩
    · exact hsame

/-- The events that an operation inserts carry its time. -/
theorem exec_appends_events {t : Tables} (hwf : t.Wf) (now : Time) {op : Op}
    (hop : ¬op.IsRetention) :
    ∃ evs, (exec t now op).events = t.events ++ evs ∧ ∀ e ∈ evs, e.ts = now := by
  have hsame : ∀ {u : Tables}, u.events = t.events →
      ∃ evs, u.events = t.events ++ evs ∧ ∀ e ∈ evs, e.ts = now :=
    fun h => ⟨[], h.trans (List.append_nil _).symm, by simp⟩
  cases op with
  | enqueue a => exact enqueue_appends t now a
  | snifferEnqueue j => exact hsame (insertJob_events t now j.newJob)
  | enqueueBatch specs =>
    obtain ⟨_, hins, _⟩ := enqueueBatch_inserts now specs hwf.keys
    exact hsame hins.events
  | leaseJob w rowLocked =>
    rw [exec, leaseJob]
    split <;> exact hsame rfl
  | outcome w st =>
    rw [exec, Statement.exec_eq]
    split
    · exact foldl_insertEvent_ts now _ _ (fun _ => st.job.id) _ _
    · exact hsame rfl
  | sweep cfg locked =>
    rw [exec, sweep]
    split
    · exact hsame rfl
    · exact foldl_insertEvent_ts now _ _ JobRow.id _ _
  | drainLease w => exact hsame rfl
  | retention cfg locked pick => exact absurd trivial hop
  | rolledBack jobIds eventIds => exact hsame rfl

theorem Delta.evs_ts {t : Tables} {now : Time} {op : Op} (d : Delta now op t (exec t now op))
    (hwf : t.Wf) (hop : ¬op.IsRetention) {e : EventRow} (he : e ∈ d.evs) : e.ts = now := by
  obtain ⟨evs, heq, hts⟩ := exec_appends_events hwf now hop
  have hsame : d.evs = evs := List.append_cancel_left (d.events.symm.trans heq)
  exact hts e (hsame ▸ he)

/-! ## What an operation changes -/

/-- A row that an operation changes. -/
structure Touched (now : Time) (r r' : JobRow) (kinds : List EventStatus) : Prop where
  created : r'.createdAt = r.createdAt
  updated : r'.updatedAt = now
  locked : r'.status = .leased → r'.lockedAt = some now
  closed : r'.status.Terminal = true → ∃ kind, kinds = [kind] ∧ r'.status.closedBy = some kind

/-- An operation leaves a row alone and inserts no event for it, or it stamps
the row. -/
theorem RowStep.stamps {now : Time} {op : Op} {r r' : JobRow} {kinds : List EventStatus}
    (h : RowStep now op r r' kinds) : r' = r ∧ kinds = [] ∨ Touched now r r' kinds := by
  cases h with
  | keep => exact Or.inl ⟨rfl, rfl⟩
  | lease w rowLocked =>
    exact Or.inr ⟨rfl, rfl, fun _ => rfl,
      fun ht => absurd ht (by simp [Worker.lease, JobStatus.Terminal])⟩
  | drain w =>
    exact Or.inr ⟨rfl, rfl, fun hl => absurd hl (by simp [JobRow.requeue]),
      fun ht => absurd ht (by simp [JobRow.requeue, JobStatus.Terminal])⟩
  | expire cfg =>
    exact Or.inr ⟨rfl, rfl, fun hl => absurd hl (by simp [JobRow.requeue]),
      fun ht => absurd ht (by simp [JobRow.requeue, JobStatus.Terminal])⟩
  | succeed w job d =>
    exact Or.inr ⟨rfl, rfl, fun hl => absurd hl (by simp [setSuccess]), fun _ => ⟨_, rfl, rfl⟩⟩
  | finish w job kind attempts d =>
    refine Or.inr ⟨rfl, rfl, fun hl => ?_, fun _ => ⟨_, rfl, ?_⟩⟩
    · cases kind <;> simp [setTerminal, TerminalKind.jobStatus] at hl
    · cases kind <;> rfl
  | retry w job attempts backoffMs d =>
    exact Or.inr ⟨rfl, rfl, fun hl => absurd hl (by simp [setRetry]),
      fun ht => absurd ht (by simp [setRetry, JobStatus.Terminal])⟩

/-! ## The stamps of one row -/

/-- The events of a job, in insertion order. -/
def Tables.eventsOf (t : Tables) (id : Nat) : List EventRow :=
  t.events.filter fun e => e.jobId == id

/-- The stamps of a row and its events at time `now`. -/
structure Dated (t : Tables) (now : Time) (r : JobRow) : Prop where
  created : r.createdAt ≤ r.updatedAt
  updated : r.updatedAt ≤ now
  locked : r.status = .leased → r.lockedAt = some r.updatedAt
  events : ∀ e ∈ t.eventsOf r.id, r.createdAt ≤ e.ts ∧ e.ts ≤ r.updatedAt
  order : (t.eventsOf r.id).Pairwise fun e e' => e.ts ≤ e'.ts
  closed : r.status.Terminal = true → ∃ e, (t.eventsOf r.id).getLast? = some e ∧
    r.status.closedBy = some e.status ∧ e.ts = r.updatedAt

/-- Time passes. -/
theorem Dated.later {t : Tables} {now now' : Time} {r : JobRow} (h : Dated t now r)
    (hle : now ≤ now') : Dated t now' r :=
  { h with updated := h.updated.trans hle }

/-- The stamps of a row read its own events only. -/
theorem Dated.congr {t t' : Tables} {now : Time} {r : JobRow} (h : Dated t now r)
    (heq : t'.eventsOf r.id = t.eventsOf r.id) : Dated t' now r where
  created := h.created
  updated := h.updated
  locked := h.locked
  events := heq ▸ h.events
  order := heq ▸ h.order
  closed := heq ▸ h.closed

section Step

variable {t : Tables} {now now' : Time} {op : Op} {r r' : JobRow}

/-- A row that is stamped, with events of the same time. -/
theorem Dated.touch {evs : List EventRow} (h : Dated t now r) (hle : now ≤ now')
    (htouch : Touched now' r r' (evs.map EventRow.status)) (hid : r'.id = r.id)
    (hts : ∀ e ∈ evs, e.ts = now') {u : Tables}
    (hevs : u.eventsOf r.id = t.eventsOf r.id ++ evs) : Dated u now' r' := by
  have hupd : r.updatedAt ≤ now' := h.updated.trans hle
  refine ⟨?_, htouch.updated.le, fun hl => ?_, fun e he => ?_, ?_, fun hterm => ?_⟩
  · rw [htouch.created, htouch.updated]
    exact h.created.trans hupd
  · rw [htouch.updated, htouch.locked hl]
  · rw [htouch.created, htouch.updated]
    rw [hid, hevs, List.mem_append] at he
    rcases he with he | he
    · have hold := h.events e he
      exact ⟨hold.1, hold.2.trans hupd⟩
    · rw [hts e he]
      exact ⟨h.created.trans hupd, le_rfl⟩
  · rw [hid, hevs, List.pairwise_append]
    refine ⟨h.order, ?_, fun e he e' he' => ?_⟩
    · exact List.pairwise_of_forall_mem_list fun e he e' he' =>
        ((hts e he).trans (hts e' he').symm).le
    · rw [hts e' he']
      exact (h.events e he).2.trans hupd
  · obtain ⟨kind, hkinds, hclosed⟩ := htouch.closed hterm
    obtain ⟨e, rfl, hstatus⟩ := List.map_eq_singleton_iff.mp hkinds
    refine ⟨e, ?_, ?_, ?_⟩
    · rw [hid, hevs, List.getLast?_concat]
    · rw [hclosed, hstatus]
    · rw [htouch.updated, hts e (List.mem_singleton_self e)]

/-- A row that has just been inserted. -/
theorem Dated.new {evs : List EventRow} (h : Stamped now r) (hp : r.status = .pending)
    (hts : ∀ e ∈ evs, e.ts = now) (hevs : t.eventsOf r.id = evs) : Dated t now r where
  created := by rw [h.created, h.updated]
  updated := h.updated.le
  locked := fun hl => absurd (hp.symm.trans hl) (by decide)
  events := by
    intro e he
    rw [hevs] at he
    rw [h.created, h.updated, hts e he]
    exact ⟨le_rfl, le_rfl⟩
  order := by
    rw [hevs]
    exact List.pairwise_of_forall_mem_list fun e he e' he' =>
      ((hts e he).trans (hts e' he').symm).le
  closed := fun hterm => absurd (hp ▸ hterm) (by decide)

end Step

/-- Every row of the tables is dated. -/
def AllDated (t : Tables) (now : Time) : Prop := ∀ r ∈ t.jobs, Dated t now r

section Run

variable {t : Tables} {now now' : Time}

theorem eventsOf_append {t t' : Tables} {evs : List EventRow} (h : t'.events = t.events ++ evs)
    (id : Nat) : t'.eventsOf id = t.eventsOf id ++ evs.filter fun e => e.jobId == id := by
  rw [Tables.eventsOf, h, List.filter_append, Tables.eventsOf]

/-- An id that the sequence has not handed out has no events. -/
theorem Tables.Wf.eventsOf_fresh (hwf : t.Wf) {id : Nat} (hid : t.jobSeq ≤ id) :
    t.eventsOf id = [] := by
  refine List.filter_eq_nil_iff.mpr fun e he heq => ?_
  obtain ⟨r, hr, hre⟩ := hwf.fk e he
  have hlt := hwf.seq r hr
  rw [beq_iff_eq] at heq
  omega

/-- Retention keeps the events of the rows that it keeps. -/
theorem Pruned.eventsOf {t' : Tables} {keep : Nat → Bool} (h : Pruned t t' keep) {r : JobRow}
    (hr : r ∈ t'.jobs) : t'.eventsOf r.id = t.eventsOf r.id := by
  rw [h.jobs] at hr
  have hkeep := (List.mem_filter.mp hr).2
  rw [Tables.eventsOf, h.events, List.filter_filter, Tables.eventsOf]
  refine List.filter_congr fun e _ => ?_
  by_cases he : e.jobId = r.id
  · simp [he, hkeep]
  · simp [he]

/-- An operation that comes no earlier than the ones before keeps all rows
dated. -/
theorem exec_dated (hwf : t.Wf) (h : AllDated t now) (hle : now ≤ now') (op : Op) :
    AllDated (exec t now' op) now' := by
  intro r' hr'
  by_cases hop : op.IsRetention
  · obtain ⟨keep, hpruned⟩ := exec_retention hwf now' hop
    have hold := h r' (hpruned.trail hr').1
    exact (hold.later hle).congr (hpruned.eventsOf hr')
  · obtain ⟨d⟩ := exec_delta hwf now' hop
    have hts : ∀ id, ∀ e ∈ d.evs.filter fun e => e.jobId == id, e.ts = now' :=
      fun id e he => d.evs_ts hwf hop (List.mem_of_mem_filter he)
    rcases d.mem_jobs.mp hr' with ⟨r, hr, rfl⟩ | hnew
    · have hevs := eventsOf_append d.events r.id
      have hid := (d.rows r hr).immutable.1
      rcases (d.rows r hr).stamps with ⟨hsame, hnone⟩ | htouch
      · rw [hsame]
        refine ((h r hr).later hle).congr ?_
        rw [hevs, List.map_eq_nil_iff.mp hnone, List.append_nil]
      · exact (h r hr).touch hle htouch hid (hts r.id) hevs
    · refine Dated.new (d.new_stamps hwf hnew) (d.created r' hnew).pending (hts r'.id) ?_
      rw [eventsOf_append d.events, hwf.eventsOf_fresh (d.newSeq r' hnew).1, List.nil_append]

/-- A run on a clock that does not go back. -/
theorem foldl_dated {ops : List (Time × Op)} (hclock : (ops.map Prod.fst).Pairwise (· ≤ ·))
    (hwf : t.Wf) (h : AllDated t now) (hstart : ∀ o ∈ ops, now ≤ o.1) (hnow : now ≤ now')
    (hend : ∀ o ∈ ops, o.1 ≤ now') :
    AllDated (ops.foldl (fun t o => exec t o.1 o.2) t) now' := by
  induction ops generalizing t now with
  | nil => exact fun r hr => (h r hr).later hnow
  | cons o ops ih =>
    rw [List.map_cons, List.pairwise_cons] at hclock
    have hle : now ≤ o.1 := hstart o List.mem_cons_self
    refine ih hclock.2 (exec_wf hwf o.1 o.2) (exec_dated hwf h hle o.2) ?_ ?_ ?_
    · exact fun x hx => hclock.1 x.1 (List.mem_map_of_mem hx)
    · exact hend o List.mem_cons_self
    · exact fun x hx => hend x (List.mem_cons_of_mem _ hx)

theorem execAll_dated {ops : List (Time × Op)} (hclock : (ops.map Prod.fst).Pairwise (· ≤ ·))
    (hend : ∀ o ∈ ops, o.1 ≤ now') : AllDated (execAll ops) now' := by
  cases ops with
  | nil => exact fun r hr => absurd hr List.not_mem_nil
  | cons o ops =>
    have hempty : AllDated Tables.empty o.1 := fun r hr => absurd hr List.not_mem_nil
    refine foldl_dated hclock Tables.wf_empty hempty ?_ (hend o List.mem_cons_self) hend
    intro x hx
    rcases List.mem_cons.mp hx with rfl | hx
    · exact le_rfl
    · rw [List.map_cons, List.pairwise_cons] at hclock
      exact hclock.1 x.1 (List.mem_map_of_mem hx)

end Run

/-! ## Retention -/

theorem retentionLoop_outdated {pick : List JobRow → List JobRow} {now : Time} {seconds : Int}
    {batch fuel : Nat} {t : Tables} {deleted : Nat} {r : JobRow} (hwf : t.Wf) (hr : r ∈ t.jobs)
    (hgone : r ∉ (retentionLoop pick now seconds batch fuel t deleted).1.jobs) :
    outdated now seconds r = true := by
  induction fuel generalizing t deleted with
  | zero => exact absurd hr hgone
  | succ fuel ih =>
    have hbatch := deleteBatch_pruned hwf pick now seconds batch
    by_cases hvictim : r.id ∈ victims pick now seconds batch t
    · obtain ⟨x, hx, hid, hout⟩ := victims_outdated hvictim
      exact eq_of_key_eq hwf.ids hx hr hid ▸ hout
    · have hkept : r ∈ (deleteBatch pick now seconds batch t).1.jobs := by
        rw [hbatch.jobs]
        exact List.mem_filter.mpr ⟨hr, by simpa using hvictim⟩
      have hwf' := hbatch.wf hwf
      rw [retentionLoop] at hgone
      split at hgone
      rename_i t' n heq
      rw [heq] at hkept hwf'
      split at hgone
      · exact absurd hkept hgone
      · exact ih hwf' hkept hgone

/-- The rows that retention drops are outdated. -/
theorem retention_outdated {t : Tables} (hwf : t.Wf) {now : Time} {cfg : RetentionConfig}
    {locked : Bool} {pick : List JobRow → List JobRow} {r : JobRow} (hr : r ∈ t.jobs)
    (hgone : r ∉ (exec t now (.retention cfg locked pick)).jobs) :
    outdated now (Duration.seconds cfg.window) r = true := by
  rw [exec, retentionSweep] at hgone
  split at hgone
  · exact absurd hr hgone
  split at hgone
  · exact absurd hr hgone
  · exact retentionLoop_outdated hwf hr hgone

/-- An event that retention drops belongs to a row that it drops. -/
theorem retention_drops {t : Tables} (hwf : t.Wf) {now : Time} {cfg : RetentionConfig}
    {locked : Bool} {pick : List JobRow → List JobRow} {e : EventRow} (he : e ∈ t.events)
    (hgone : e ∉ (exec t now (.retention cfg locked pick)).events) :
    ∃ r ∈ t.jobs, r.id = e.jobId ∧ r ∉ (exec t now (.retention cfg locked pick)).jobs := by
  obtain ⟨keep, hpruned⟩ :=
    exec_retention hwf now (show (Op.retention cfg locked pick).IsRetention from trivial)
  obtain ⟨r, hr, hid⟩ := hwf.fk e he
  refine ⟨r, hr, hid, fun hkept => hgone ?_⟩
  rw [hpruned.jobs, List.mem_filter, hid] at hkept
  rw [hpruned.events]
  exact List.mem_filter.mpr ⟨he, hkept.2⟩

/-- The time stamps of the queue agree, in every state that the writers of the
two tables reach on a clock that does not go back.  A row is leased since its
last change, a terminal row was last changed by the event that closed it, and
the events of a job are in order between the insert and the last change of its
row.  So whenever retention runs, an event that it deletes is older than the
retention window. -/
theorem clock_agreement (ops : List (Time × Op)) (now : Time)
    (hclock : (ops.map Prod.fst).Pairwise (· ≤ ·)) (hnow : ∀ o ∈ ops, o.1 ≤ now) :
    (∀ r ∈ (execAll ops).jobs, Dated (execAll ops) now r) ∧
      ∀ (cfg : RetentionConfig) (locked : Bool) (pick : List JobRow → List JobRow),
        ∀ e ∈ (execAll ops).events,
          e ∉ (exec (execAll ops) now (.retention cfg locked pick)).events →
            e.ts < now - secondsInterval (Duration.seconds cfg.window) := by
  have hdated : AllDated (execAll ops) now := execAll_dated hclock hnow
  have hwf : (execAll ops).Wf := (execAll_audited ops).wf
  refine ⟨hdated, fun cfg locked pick e he hgone => ?_⟩
  obtain ⟨r, hr, hid, hdropped⟩ := retention_drops hwf he hgone
  have hout := retention_outdated hwf hr hdropped
  rw [outdated, Bool.and_eq_true, decide_eq_true_eq] at hout
  have hevent : e ∈ (execAll ops).eventsOf r.id :=
    List.mem_filter.mpr ⟨he, by rw [hid, beq_self_eq_true]⟩
  exact ((hdated r hr).events e hevent).2.trans_lt hout.2

/-- A job that fails once, is leased again and succeeds. -/
def retriedRun : List (Time × Op) :=
  [(10, .enqueue ⟨"t", "/a", "/b", "localfs", "localfs", "", 0⟩),
    (20, .leaseJob "w" []),
    (30, .outcome "w" (.retry ⟨1, "t", "/a", "/b", "localfs", "localfs", "{}", .leased, 0, 5,
      some 20, some "w", 10, 10, 20⟩ 1 0 (.fields []))),
    (40, .leaseJob "w" []),
    (50, .outcome "w" (.success ⟨1, "t", "/a", "/b", "localfs", "localfs", "{}", .leased, 1, 5,
      some 40, some "w", 30, 10, 40⟩ (.fields [])))]

/-- Its three events are a second old when a window of one second lets them
go. -/
theorem clock_agreement_retried :
    ((retriedRun.map Prod.fst).Pairwise (· ≤ ·) ∧ ∀ o ∈ retriedRun, o.1 ≤ 1000051) ∧
      (exec (execAll retriedRun) 1000051 (.retention ⟨1000000000, 0⟩ true id)).events = [] ∧
      ∀ e ∈ (execAll retriedRun).events, e.ts < 1000051 - 1000000 := by
  have hclock : (retriedRun.map Prod.fst).Pairwise (· ≤ ·) := by decide
  have hnow : ∀ o ∈ retriedRun, o.1 ≤ 1000051 := by
    intro o ho
    simp only [retriedRun, List.mem_cons, List.not_mem_nil, or_false] at ho
    rcases ho with rfl | rfl | rfl | rfl | rfl <;> decide
  have hgone : (exec (execAll retriedRun) 1000051 (.retention ⟨1000000000, 0⟩ true id)).events
      = [] := by decide +kernel
  refine ⟨⟨hclock, hnow⟩, hgone, fun e he => ?_⟩
  exact (clock_agreement retriedRun 1000051 hclock hnow).2 ⟨1000000000, 0⟩ true id e he
    (by rw [hgone]; exact List.not_mem_nil)

end ImgSync.Queue
