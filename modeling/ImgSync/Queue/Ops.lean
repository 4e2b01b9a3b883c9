import ImgSync.Queue.Enqueue
import ImgSync.Worker.Process

/-!
# What a statement can do to the tables

`Op` lists the statements and transactions of the nine writers of
`transfer_jobs` and `transfer_events`, with arbitrary arguments.  `exec` runs
one of them.  Every proof about the queue goes through two facts:

* `exec_delta`: an operation other than retention rewrites each row on its
  own, appends new rows, and appends events.  `RowStep` says which rewrites
  there are, with the guard of each.
* `exec_retention`: retention only drops terminal rows, together with their
  events.

No later module unfolds a statement again.
-/

namespace ImgSync.Queue

open ImgSync.Lib ImgSync.Worker

/-- One committed statement or transaction of a writer of the two tables.
`rolledBack` is an attempt that fails on the way: it leaves the tables alone,
but the ids that it drew stay consumed. -/
inductive Op where
  | enqueue (a : EnqueueArgs)
  | snifferEnqueue (j : JobSpec)
  | enqueueBatch (specs : List JobSpec)
  | leaseJob (lockedBy : String) (rowLocked : List Nat)
  | outcome (lockedBy : String) (st : Statement)
  | sweep (cfg : SweeperConfig) (locked : Bool)
  | drainLease (lockedBy : String)
  | retention (cfg : RetentionConfig) (locked : Bool) (pick : List JobRow → List JobRow)
  | rolledBack (jobIds eventIds : Nat)

/-- Whether the operation is the `DELETE` of the retention job. -/
def Op.IsRetention : Op → Prop
  | .retention _ _ _ => True
  | _ => False

/-- Whether the operation updates rows that are there and inserts none. -/
def Op.updates : Op → Bool
  | .leaseJob _ _ | .outcome _ _ | .sweep _ _ | .drainLease _ => true
  | _ => false

/-- The tables after an operation. -/
def exec (t : Tables) (now : Time) : Op → Tables
  | .enqueue a => (Queue.enqueue t now a).1
  | .snifferEnqueue j => (Queue.snifferEnqueue t now j).1
  | .enqueueBatch specs => (Queue.enqueueBatch t now specs).1
  | .leaseJob lockedBy rowLocked => (Worker.leaseJob t now lockedBy rowLocked).1
  | .outcome lockedBy st => (st.exec t now lockedBy).1
  | .sweep cfg locked => (Queue.sweep t now cfg locked).1
  | .drainLease lockedBy => Worker.drainLease t now lockedBy
  | .retention cfg locked pick => (retentionSweep pick t now cfg locked).1
  | .rolledBack jobIds eventIds =>
    { t with jobSeq := t.jobSeq + jobIds, eventSeq := t.eventSeq + eventIds }

/-- The tables after a list of operations, from the empty database. -/
def execAll (ops : List (Time × Op)) : Tables :=
  ops.foldl (fun t o => exec t o.1 o.2) Tables.empty

/-- What one operation does to one row, and the kinds of the events that it
inserts for the row. -/
inductive RowStep (now : Time) : Op → JobRow → JobRow → List EventStatus → Prop where
  | keep (op : Op) (r : JobRow) : RowStep now op r r []
  | lease {r : JobRow} (w : String) (rowLocked : List Nat) (hp : r.status = .pending)
      (hd : r.nextRunAt ≤ now) : RowStep now (.leaseJob w rowLocked) r (lease now w r) []
  | drain {r : JobRow} (w : String) (hh : heldBy w r = true) :
      RowStep now (.drainLease w) r (r.requeue now) []
  | expire {r : JobRow} (cfg : SweeperConfig)
      (he : expired now cfg.thresholdSeconds r = true) :
      RowStep now (.sweep cfg true) r (r.requeue now) [.expire]
  | succeed {r : JobRow} (w : String) (job : Job) (d : Detail)
      (hg : leaseGuard job.id w r = true) :
      RowStep now (.outcome w (.success job d)) r (setSuccess now r) [.success]
  | finish {r : JobRow} (w : String) (job : Job) (kind : TerminalKind) (attempts : Int)
      (d : Detail) (hg : leaseGuard job.id w r = true) :
      RowStep now (.outcome w (.terminal job kind attempts d)) r
        (setTerminal now kind attempts r) [kind.eventStatus]
  | retry {r : JobRow} (w : String) (job : Job) (attempts backoffMs : Int) (d : Detail)
      (hg : leaseGuard job.id w r = true) :
      RowStep now (.outcome w (.retry job attempts backoffMs d)) r
        (setRetry now attempts backoffMs r) [.fail]

/-- A row that an enqueue has just inserted, with the kinds of its events. -/
structure Created (r : JobRow) (kinds : List EventStatus) : Prop where
  pending : r.status = .pending
  attempts : r.attempts = 0
  lockedAt : r.lockedAt = none
  lockedBy : r.lockedBy = none
  budget : 0 < r.maxAttempts
  fits : r.maxAttempts ≤ 2147483647
  kinds : kinds = [] ∨ kinds = [.enqueue]

/-- The effect of an operation other than retention: `f` rewrites the rows
that are there, `new` are the inserted rows, and `evs` the inserted events. -/
structure Delta (now : Time) (op : Op) (t t' : Tables) where
  f : JobRow → JobRow
  new : List JobRow
  evs : List EventRow
  jobs : t'.jobs = t.jobs.map f ++ new
  events : t'.events = t.events ++ evs
  rows : ∀ r ∈ t.jobs, RowStep now op r (f r) (kindsOf evs r.id)
  created : ∀ r ∈ new, Created r (kindsOf evs r.id)
  newIds : (new.map JobRow.id).Nodup
  newSeq : ∀ r ∈ new, t.jobSeq ≤ r.id ∧ r.id < t'.jobSeq
  keys : ((t.jobs ++ new).map JobRow.key).Nodup
  seq : t.jobSeq ≤ t'.jobSeq
  fk : ∀ e ∈ evs, ∃ r ∈ t.jobs ++ new, r.id = e.jobId

/-- No row step changes the columns that identify a job and bound its
retries. -/
theorem RowStep.immutable {now : Time} {op : Op} {r r' : JobRow} {kinds : List EventStatus}
    (h : RowStep now op r r' kinds) :
    r'.id = r.id ∧ r'.key = r.key ∧ r'.maxAttempts = r.maxAttempts := by
  cases h <;> exact ⟨rfl, rfl, rfl⟩

/-- Only a pending or a leased row is rewritten. -/
theorem RowStep.eq_of_terminal {now : Time} {op : Op} {r r' : JobRow}
    {kinds : List EventStatus} (h : RowStep now op r r' kinds)
    (ht : r.status.Terminal = true) : r' = r := by
  have held : ∀ {w : String}, heldBy w r = true → r.status = .leased := by
    intro w hh
    simp only [heldBy, Bool.and_eq_true, beq_iff_eq] at hh
    exact hh.1
  have guarded : ∀ {id : Nat} {w : String}, leaseGuard id w r = true → r.status = .leased := by
    intro id w hg
    simp only [leaseGuard, Bool.and_eq_true] at hg
    exact held hg.2
  cases h with
  | keep => rfl
  | lease _ _ hp => simp [hp, JobStatus.Terminal] at ht
  | drain _ hh => simp [held hh, JobStatus.Terminal] at ht
  | expire _ he =>
    simp only [expired, Bool.and_eq_true, beq_iff_eq] at he
    simp [he.1, JobStatus.Terminal] at ht
  | succeed _ _ _ hg => simp [guarded hg, JobStatus.Terminal] at ht
  | finish _ _ _ _ _ hg => simp [guarded hg, JobStatus.Terminal] at ht
  | retry _ _ _ _ _ hg => simp [guarded hg, JobStatus.Terminal] at ht

/-! ## Event inserts -/

/-- A loop of event inserts appends one event of kind `ev` for each row, in
order, and touches nothing else. -/
theorem foldl_insertEvent (now : Time) (ev : EventStatus) (d : Detail) (j : JobRow → Nat)
    (rows : List JobRow) (t : Tables) :
    ∃ evs, rows.foldl (fun t r => t.insertEvent now r.traceId (j r) ev d) t =
        { t with events := t.events ++ evs, eventSeq := t.eventSeq + rows.length } ∧
      evs.map (fun e => (e.jobId, e.status)) = rows.map (fun r => (j r, ev)) := by
  induction rows generalizing t with
  | nil => exact ⟨[], by simp, rfl⟩
  | cons r rows ih =>
    obtain ⟨evs, heq, hmap⟩ := ih (t.insertEvent now r.traceId (j r) ev d)
    refine ⟨⟨t.eventSeq, r.traceId, j r, now, ev, d⟩ :: evs, ?_, ?_⟩
    · rw [List.foldl_cons, heq]
      simp only [Tables.insertEvent, List.append_assoc, List.singleton_append,
        List.length_cons, Tables.mk.injEq, true_and]
      omega
    · rw [List.map_cons, List.map_cons, hmap]

/-- The trail of a job reads the job id and the kind of each event only. -/
theorem kindsOf_of_pairs {evs : List EventRow} {rows : List JobRow} {j : JobRow → Nat}
    {ev : EventStatus}
    (h : evs.map (fun e => (e.jobId, e.status)) = rows.map (fun r => (j r, ev))) (id : Nat) :
    kindsOf evs id = (rows.filter fun r => j r == id).map fun _ => ev := by
  have hpairs : kindsOf evs id =
      ((evs.map fun e => (e.jobId, e.status)).filter fun p => p.1 == id).map Prod.snd := by
    simp only [kindsOf, List.filter_map, List.map_map]
    rfl
  rw [hpairs, h]
  simp only [List.filter_map, List.map_map]
  rfl

/-- The events of a loop of inserts belong to the rows of the loop. -/
theorem jobId_of_pairs {evs : List EventRow} {rows : List JobRow} {j : JobRow → Nat}
    {ev : EventStatus}
    (h : evs.map (fun e => (e.jobId, e.status)) = rows.map (fun r => (j r, ev)))
    {e : EventRow} (he : e ∈ evs) : ∃ r ∈ rows, j r = e.jobId := by
  have hmem : (e.jobId, e.status) ∈ rows.map (fun r => (j r, ev)) :=
    h ▸ List.mem_map_of_mem he
  obtain ⟨r, hr, heq⟩ := List.mem_map.mp hmem
  exact ⟨r, hr, congrArg Prod.fst heq⟩

/-- The rows that a condition picks, narrowed to the id of one row. -/
theorem filter_filter_id {rows : List JobRow} (hn : (rows.map JobRow.id).Nodup)
    (p : JobRow → Bool) {r : JobRow} (hr : r ∈ rows) :
    (rows.filter p).filter (fun x => x.id == r.id) = if p r then [r] else [] := by
  rw [List.filter_filter, List.filter_congr (q := fun x => p x && (x.id == r.id))
    (fun x _ => Bool.and_comm _ _), ← List.filter_filter, filter_key_eq_singleton hn hr]
  cases hp : p r <;> simp [hp]

/-! ## Operations that rewrite rows in place -/

section Rewrites

variable {now : Time} {op : Op} {t t' : Tables}

/-- An operation that leaves both tables alone. -/
def Delta.ofSame (hwf : t.Wf) (hjobs : t'.jobs = t.jobs) (hevents : t'.events = t.events)
    (hseq : t.jobSeq ≤ t'.jobSeq) : Delta now op t t' where
  f := id
  new := []
  evs := []
  jobs := by simp [hjobs]
  events := by simp [hevents]
  rows := fun r _ => RowStep.keep op r
  created := by simp
  newIds := by simp
  newSeq := by simp
  keys := by simpa using hwf.keys
  seq := hseq
  fk := by simp

/-- An `UPDATE` together with the events that it inserts. -/
def Delta.ofUpdate (hwf : t.Wf) {p : JobRow → Bool} {g : JobRow → JobRow} {evs : List EventRow}
    (hjobs : t'.jobs = updateWhere p g t.jobs) (hevents : t'.events = t.events ++ evs)
    (hseq : t'.jobSeq = t.jobSeq)
    (hrows : ∀ r ∈ t.jobs, RowStep now op r (if p r then g r else r) (kindsOf evs r.id))
    (hfk : ∀ e ∈ evs, ∃ r ∈ t.jobs, r.id = e.jobId) : Delta now op t t' where
  f := fun r => if p r then g r else r
  new := []
  evs := evs
  jobs := by rw [hjobs, List.append_nil, updateWhere]
  events := hevents
  rows := hrows
  created := by simp
  newIds := by simp
  newSeq := by simp
  keys := by simpa using hwf.keys
  seq := hseq.ge
  fk := by simpa using hfk

theorem leaseJob_delta (hwf : t.Wf) (w : String) (rowLocked : List Nat) :
    Nonempty (Delta now (.leaseJob w rowLocked) t (leaseJob t now w rowLocked).1) := by
  rw [leaseJob]
  cases hnext : nextDue t now rowLocked with
  | none => exact ⟨Delta.ofSame hwf rfl rfl le_rfl⟩
  | some r =>
    obtain ⟨hr, hp, hd⟩ := nextDue_mem hnext
    refine ⟨Delta.ofUpdate hwf rfl (List.append_nil _).symm rfl ?_ (by simp)⟩
    intro x hx
    by_cases hid : x.id = r.id
    · obtain rfl := eq_of_key_eq hwf.ids hx hr hid
      simpa using RowStep.lease w rowLocked hp hd
    · simpa [hid] using RowStep.keep _ x

theorem drainLease_delta (hwf : t.Wf) (w : String) :
    Nonempty (Delta now (.drainLease w) t (drainLease t now w)) := by
  refine ⟨Delta.ofUpdate hwf rfl (List.append_nil _).symm rfl ?_ (by simp)⟩
  intro x _
  by_cases hh : heldBy w x = true
  · simpa [hh] using RowStep.drain w hh
  · simpa [hh] using RowStep.keep _ x

/-- The rows of a sweep and their events, however the events got their ids. -/
theorem expire_delta (hwf : t.Wf) (cfg : SweeperConfig) {evs : List EventRow}
    (hjobs : t'.jobs =
      updateWhere (expired now cfg.thresholdSeconds) (JobRow.requeue now) t.jobs)
    (hevents : t'.events = t.events ++ evs) (hseq : t'.jobSeq = t.jobSeq)
    (hpairs : evs.map (fun e => (e.jobId, e.status)) =
      (t.jobs.filter (expired now cfg.thresholdSeconds)).map fun r => (r.id, EventStatus.expire)) :
    Nonempty (Delta now (.sweep cfg true) t t') := by
  refine ⟨Delta.ofUpdate hwf hjobs hevents hseq ?_ ?_⟩
  · intro x hx
    rw [kindsOf_of_pairs hpairs, filter_filter_id hwf.ids _ hx]
    by_cases he : expired now cfg.thresholdSeconds x = true
    · simpa [he] using RowStep.expire cfg he
    · simpa [he] using RowStep.keep _ x
  · intro e he
    obtain ⟨r, hr, hre⟩ := jobId_of_pairs hpairs he
    exact ⟨r, List.mem_of_mem_filter hr, hre⟩

theorem sweep_delta (hwf : t.Wf) (cfg : SweeperConfig) (locked : Bool) :
    Nonempty (Delta now (.sweep cfg locked) t (sweep t now cfg locked).1) := by
  rw [sweep]
  cases locked with
  | false => exact ⟨Delta.ofSame hwf rfl rfl le_rfl⟩
  | true =>
    simp only [Bool.not_true, Bool.false_eq_true, if_false, insertExpires]
    obtain ⟨evs, heq, hpairs⟩ := foldl_insertEvent now .expire expireDetail JobRow.id
      (t.jobs.filter (expired now cfg.thresholdSeconds))
      { t with jobs := updateWhere (expired now cfg.thresholdSeconds) (JobRow.requeue now) t.jobs }
    rw [heq]
    exact expire_delta hwf cfg rfl rfl rfl hpairs

/-- The shared shape of the outcome writes: it is enough to say what the
statement does to a row under the guard. -/
theorem guardedWrite_delta (hwf : t.Wf) {id : Nat} {w : String} {set : JobRow → JobRow}
    {ev : EventStatus} {d : Detail}
    (hset : ∀ r, leaseGuard id w r = true → RowStep now op r (set r) [ev]) :
    Nonempty (Delta now op t (guardedWrite t now id w set ev d).1) := by
  rw [guardedWrite]
  obtain ⟨evs, heq, hpairs⟩ := foldl_insertEvent now ev d (fun _ => id)
    (t.jobs.filter (leaseGuard id w))
    { t with jobs := updateWhere (leaseGuard id w) set t.jobs }
  simp only [heq]
  refine ⟨Delta.ofUpdate hwf rfl rfl rfl ?_ ?_⟩
  · intro x hx
    rw [kindsOf_of_pairs hpairs]
    by_cases hid : x.id = id
    · subst hid
      have hrows := filter_filter_id hwf.ids (leaseGuard x.id w) hx
      rw [List.filter_filter] at hrows
      have hsame : t.jobs.filter (leaseGuard x.id w) =
          t.jobs.filter fun a => (a.id == x.id) && leaseGuard x.id w a := by
        refine List.filter_congr fun a _ => ?_
        simp [leaseGuard]
      rw [← hsame] at hrows
      simp only [beq_self_eq_true, List.filter_true, hrows]
      by_cases hg : leaseGuard x.id w x = true
      · simpa [hg] using hset x hg
      · simpa [hg] using RowStep.keep op x
    · have hne : (id == x.id) = false := by simpa using Ne.symm hid
      have hg : leaseGuard id w x = false := by simp [leaseGuard, hid]
      simpa [hne, hg] using RowStep.keep op x
  · intro e he
    obtain ⟨r, hr, hre⟩ := jobId_of_pairs hpairs he
    obtain ⟨hmem, hg⟩ := List.mem_filter.mp hr
    simp only [leaseGuard, Bool.and_eq_true, beq_iff_eq] at hg
    exact ⟨r, hmem, hg.1.trans hre⟩

theorem outcome_delta (hwf : t.Wf) (w : String) (st : Statement) :
    Nonempty (Delta now (.outcome w st) t (st.exec t now w).1) := by
  cases st with
  | success job d => exact guardedWrite_delta hwf fun r hg => .succeed w job d hg
  | terminal job kind attempts d =>
    rw [Statement.exec]
    split
    · exact guardedWrite_delta hwf fun r hg => .finish w job kind attempts d hg
    · exact ⟨Delta.ofSame hwf rfl rfl le_rfl⟩
  | retry job attempts backoffMs d =>
    rw [Statement.exec]
    split
    · exact guardedWrite_delta hwf fun r hg => .retry w job attempts backoffMs d hg
    · exact ⟨Delta.ofSame hwf rfl rfl le_rfl⟩

end Rewrites

/-! ## Operations that insert rows -/

/-- What the job inserts of an enqueue do: `new` are the rows that are
appended, in order, and no event is written. -/
structure Inserts (t t' : Tables) (new : List JobRow) : Prop where
  jobs : t'.jobs = t.jobs ++ new
  events : t'.events = t.events
  created : ∀ r ∈ new, Created r []
  newIds : (new.map JobRow.id).Nodup
  newSeq : ∀ r ∈ new, t.jobSeq ≤ r.id ∧ r.id < t'.jobSeq
  keys : (t'.jobs.map JobRow.key).Nodup
  seq : t.jobSeq ≤ t'.jobSeq

theorem Inserts.refl {t : Tables} (hkeys : (t.jobs.map JobRow.key).Nodup) :
    Inserts t t [] where
  jobs := (List.append_nil _).symm
  events := rfl
  created := by simp
  newIds := List.nodup_nil
  newSeq := by simp
  keys := hkeys
  seq := le_rfl

/-- Two inserts in a row.  The second one draws later ids. -/
theorem Inserts.trans {t t' t'' : Tables} {new new' : List JobRow}
    (h : Inserts t t' new) (h' : Inserts t' t'' new') : Inserts t t'' (new ++ new') where
  jobs := by rw [h'.jobs, h.jobs, List.append_assoc]
  events := h'.events.trans h.events
  created := by
    intro r hr
    rcases List.mem_append.mp hr with hr | hr
    · exact h.created r hr
    · exact h'.created r hr
  newIds := by
    rw [List.map_append, List.nodup_append]
    refine ⟨h.newIds, h'.newIds, ?_⟩
    intro a ha b hb hab
    obtain ⟨r, hr, rfl⟩ := List.mem_map.mp ha
    obtain ⟨r', hr', rfl⟩ := List.mem_map.mp hb
    have h1 := (h.newSeq r hr).2
    have h2 := (h'.newSeq r' hr').1
    omega
  newSeq := by
    intro r hr
    have h1 := h.seq
    have h2 := h'.seq
    rcases List.mem_append.mp hr with hr | hr
    · have := h.newSeq r hr
      omega
    · have := h'.newSeq r hr
      omega
  keys := h'.keys
  seq := h.seq.trans h'.seq

/-- One `INSERT ... ON CONFLICT DO NOTHING`: either the key is there and the
tables stay, or the row with its defaults is appended. -/
theorem insertJob_cases {t : Tables} (now : Time) {n : NewJob}
    (hkeys : (t.jobs.map JobRow.key).Nodup)
    (hmax : 0 < n.maxAttempts ∧ n.maxAttempts ≤ 2147483647) :
    (t.insertJob now n).2 = none ∧ (∃ r ∈ t.jobs, r.key = (n.traceId, n.dst)) ∧
        Inserts t (t.insertJob now n).1 [] ∨
      (t.insertJob now n).2 = some t.jobSeq ∧
        Inserts t (t.insertJob now n).1 [n.row now t.jobSeq] := by
  rw [Tables.insertJob]
  split
  · rename_i hany
    obtain ⟨r, hr, hk⟩ := List.any_eq_true.mp hany
    refine Or.inl ⟨rfl, ⟨r, hr, by simpa using hk⟩, ?_⟩
    exact
      { jobs := (List.append_nil _).symm
        events := rfl
        created := by simp
        newIds := List.nodup_nil
        newSeq := by simp
        keys := hkeys
        seq := Nat.le_succ _ }
  · rename_i hany
    refine Or.inr ⟨rfl, ?_⟩
    refine
      { jobs := rfl
        events := rfl
        created := ?_
        newIds := List.nodup_singleton _
        newSeq := ?_
        keys := ?_
        seq := Nat.le_succ _ }
    · intro r hr
      rw [List.mem_singleton] at hr
      subst hr
      exact ⟨rfl, rfl, rfl, rfl, hmax.1, hmax.2, Or.inl rfl⟩
    · intro r hr
      rw [List.mem_singleton] at hr
      subst hr
      exact ⟨le_rfl, Nat.lt_succ_self _⟩
    · rw [List.map_append, List.nodup_append]
      refine ⟨hkeys, List.nodup_singleton _, ?_⟩
      intro a ha b hb hab
      obtain ⟨r, hr, rfl⟩ := List.mem_map.mp ha
      rw [List.map_singleton, List.mem_singleton] at hb
      have hk : r.key = (n.traceId, n.dst) := hab.trans hb
      exact hany (List.any_eq_true.mpr ⟨r, hr, by simpa using hk⟩)

theorem snifferEnqueue_inserts {t : Tables} (now : Time) (j : JobSpec)
    (hkeys : (t.jobs.map JobRow.key).Nodup) :
    ∃ new, Inserts t (snifferEnqueue t now j).1 new ∧
      ∃ r ∈ t.jobs ++ new, r.key = (j.traceId, j.dst) := by
  have hmax : 0 < j.newJob.maxAttempts ∧ j.newJob.maxAttempts ≤ 2147483647 := by
    simp [JobSpec.newJob]
  rw [snifferEnqueue]
  rcases insertJob_cases now hkeys hmax with ⟨_, ⟨r, hr, hk⟩, hins⟩ | ⟨_, hins⟩
  · exact ⟨[], hins, r, List.mem_append_left _ hr, hk⟩
  · exact ⟨_, hins, _, List.mem_append_right _ (List.mem_singleton_self _), rfl⟩

/-- The multi-row insert leaves a row under the key of every tuple. -/
theorem insertAll_inserts {t : Tables} (now : Time) (specs : List JobSpec)
    (hkeys : (t.jobs.map JobRow.key).Nodup) :
    ∃ new, Inserts t (insertAll now t specs).1 new ∧
      ∀ j ∈ specs, ∃ r ∈ t.jobs ++ new, r.key = (j.traceId, j.dst) := by
  induction specs generalizing t with
  | nil => exact ⟨[], Inserts.refl hkeys, by simp⟩
  | cons j rest ih =>
    obtain ⟨new, hins, hj⟩ := snifferEnqueue_inserts now j hkeys
    obtain ⟨new', hins', hrest⟩ := ih hins.keys
    refine ⟨new ++ new', hins.trans hins', ?_⟩
    intro k hk
    rcases List.mem_cons.mp hk with rfl | hk
    · obtain ⟨r, hr, hkey⟩ := hj
      exact ⟨r, by rw [← List.append_assoc]; exact List.mem_append_left _ hr, hkey⟩
    · obtain ⟨r, hr, hkey⟩ := hrest k hk
      rw [hins.jobs, List.append_assoc] at hr
      exact ⟨r, hr, hkey⟩

theorem enqueueBatch_inserts {t : Tables} (now : Time) (specs : List JobSpec)
    (hkeys : (t.jobs.map JobRow.key).Nodup) :
    ∃ new, Inserts t (enqueueBatch t now specs).1 new ∧
      ∀ j ∈ specs, ∃ r ∈ t.jobs ++ new, r.key = (j.traceId, j.dst) := by
  rw [enqueueBatch]
  split
  · rename_i hempty
    rw [List.isEmpty_iff] at hempty
    subst hempty
    exact ⟨[], Inserts.refl hkeys, by simp⟩
  · exact insertAll_inserts now specs hkeys

/-- A job insert, with the events that the transaction adds for the new
rows. -/
def Delta.ofInserts {now : Time} {op : Op} {t t' u : Tables} (hwf : t.Wf)
    {new : List JobRow} {evs : List EventRow} (hins : Inserts t u new)
    (hjobs : t'.jobs = u.jobs) (hevents : t'.events = u.events ++ evs)
    (hseq : t'.jobSeq = u.jobSeq) (hevs : ∀ e ∈ evs, ∃ r ∈ new, r.id = e.jobId)
    (hkinds : ∀ r ∈ new, kindsOf evs r.id = [] ∨ kindsOf evs r.id = [.enqueue]) :
    Delta now op t t' where
  f := id
  new := new
  evs := evs
  jobs := by rw [hjobs, hins.jobs, List.map_id]
  events := by rw [hevents, hins.events]
  rows := by
    intro r hr
    have hnone : kindsOf evs r.id = [] := by
      refine kindsOf_eq_nil fun e he heq => ?_
      obtain ⟨r', hr', hre⟩ := hevs e he
      have h1 := hwf.seq r hr
      have h2 := (hins.newSeq r' hr').1
      omega
    rw [hnone]
    exact RowStep.keep op r
  created := fun r hr => { hins.created r hr with kinds := hkinds r hr }
  newIds := hins.newIds
  newSeq := by
    rw [hseq]
    exact hins.newSeq
  keys := by
    rw [← hins.jobs]
    exact hins.keys
  seq := by
    rw [hseq]
    exact hins.seq
  fk := by
    intro e he
    obtain ⟨r, hr, hre⟩ := hevs e he
    exact ⟨r, List.mem_append_right _ hr, hre⟩

/-- The columns of `jobs.Enqueue` pass the range check of the insert. -/
theorem EnqueueArgs.newJob_budget {a : EnqueueArgs} (h : int4 a.newJob.maxAttempts = true) :
    0 < a.newJob.maxAttempts ∧ a.newJob.maxAttempts ≤ 2147483647 := by
  simp only [int4, Bool.and_eq_true, decide_eq_true_eq] at h
  refine ⟨?_, h.2⟩
  simp only [EnqueueArgs.newJob]
  split <;> omega

/-- An operation that writes one `enqueue` event for each row that it inserts. -/
def Logged (now : Time) (op : Op) (t t' : Tables) : Prop :=
  ∃ d : Delta now op t t', ∀ r ∈ d.new, kindsOf d.evs r.id = [.enqueue]

theorem enqueue_logged {now : Time} {t : Tables} (hwf : t.Wf) (a : EnqueueArgs) :
    Logged now (.enqueue a) t (enqueue t now a).1 := by
  rw [enqueue]
  split
  · exact ⟨Delta.ofSame hwf rfl rfl le_rfl, fun r hr => by cases hr⟩
  split
  · exact ⟨Delta.ofSame hwf rfl rfl le_rfl, fun r hr => by cases hr⟩
  split
  · exact ⟨Delta.ofSame hwf rfl rfl le_rfl, fun r hr => by cases hr⟩
  rename_i hfits
  rw [Bool.not_eq_true', Bool.not_eq_false] at hfits
  have hcases := insertJob_cases now hwf.keys (EnqueueArgs.newJob_budget hfits)
  split
  · rename_i t' id hins
    rw [hins] at hcases
    rcases hcases with ⟨hnone, _⟩ | ⟨hid, hnew⟩
    · simp at hnone
    · obtain rfl : id = t.jobSeq := Option.some.inj hid
      have hkinds : ∀ r ∈ [a.newJob.row now t.jobSeq],
          kindsOf [⟨t'.eventSeq, a.traceId, t.jobSeq, now, .enqueue, .payload a.newJob.payload⟩]
            r.id = [.enqueue] := by
        intro r hr
        rw [List.mem_singleton.mp hr]
        simp [kindsOf, NewJob.row]
      refine ⟨Delta.ofInserts hwf hnew rfl rfl rfl ?_ fun r hr => Or.inr (hkinds r hr), hkinds⟩
      intro e he
      rw [List.mem_singleton.mp he]
      exact ⟨_, List.mem_singleton_self _, rfl⟩
  · rename_i t' hins
    rw [hins] at hcases
    rcases hcases with ⟨_, _, hsame⟩ | ⟨hid, _⟩
    · split
      · refine ⟨Delta.ofInserts hwf hsame rfl (List.append_nil _).symm rfl (by simp) (by simp), ?_⟩
        exact fun r hr => by cases hr
      · exact ⟨Delta.ofSame hwf rfl rfl le_rfl, fun r hr => by cases hr⟩
    · simp at hid

theorem enqueue_delta {now : Time} {t : Tables} (hwf : t.Wf) (a : EnqueueArgs) :
    Nonempty (Delta now (.enqueue a) t (enqueue t now a).1) := by
  obtain ⟨d, -⟩ := enqueue_logged hwf a
  exact ⟨d⟩

theorem snifferEnqueue_delta {now : Time} {t : Tables} (hwf : t.Wf) (j : JobSpec) :
    Nonempty (Delta now (.snifferEnqueue j) t (snifferEnqueue t now j).1) := by
  obtain ⟨new, hins, _⟩ := snifferEnqueue_inserts now j hwf.keys
  refine ⟨Delta.ofInserts hwf hins rfl (List.append_nil _).symm rfl ?_ ?_⟩ <;> simp

theorem enqueueBatch_delta {now : Time} {t : Tables} (hwf : t.Wf) (specs : List JobSpec) :
    Nonempty (Delta now (.enqueueBatch specs) t (enqueueBatch t now specs).1) := by
  obtain ⟨new, hins, _⟩ := enqueueBatch_inserts now specs hwf.keys
  refine ⟨Delta.ofInserts hwf hins rfl (List.append_nil _).symm rfl ?_ ?_⟩ <;> simp

/-- Every operation other than retention is a `Delta`. -/
theorem exec_delta {t : Tables} (hwf : t.Wf) (now : Time) {op : Op} (hop : ¬op.IsRetention) :
    Nonempty (Delta now op t (exec t now op)) := by
  cases op with
  | enqueue a => exact enqueue_delta hwf a
  | snifferEnqueue j => exact snifferEnqueue_delta hwf j
  | enqueueBatch specs => exact enqueueBatch_delta hwf specs
  | leaseJob w rowLocked => exact leaseJob_delta hwf w rowLocked
  | outcome w st => exact outcome_delta hwf w st
  | sweep cfg locked => exact sweep_delta hwf cfg locked
  | drainLease w => exact drainLease_delta hwf w
  | retention cfg locked pick => exact absurd trivial hop
  | rolledBack jobIds eventIds => exact ⟨Delta.ofSame hwf rfl rfl (Nat.le_add_right _ _)⟩

theorem guardedWrite_length (t : Tables) (now : Time) (id : Nat) (w : String)
    (set : JobRow → JobRow) (ev : EventStatus) (d : Detail) :
    (guardedWrite t now id w set ev d).1.jobs.length = t.jobs.length := by
  obtain ⟨evs, heq, -⟩ := foldl_insertEvent now ev d (fun _ => id)
    (t.jobs.filter (leaseGuard id w)) { t with jobs := updateWhere (leaseGuard id w) set t.jobs }
  rw [guardedWrite, heq]
  exact List.length_map _

theorem exec_length (t : Tables) (now : Time) {op : Op} (hop : op.updates = true) :
    (exec t now op).jobs.length = t.jobs.length := by
  cases op with
  | leaseJob w rowLocked =>
    rw [exec, leaseJob]
    split
    · rfl
    · exact List.length_map _
  | outcome w st =>
    rw [exec, Statement.exec_eq]
    split
    · exact guardedWrite_length _ _ _ _ _ _ _
    · rfl
  | sweep cfg locked =>
    rw [exec, sweep]
    split
    · rfl
    · obtain ⟨evs, heq, -⟩ := foldl_insertEvent now .expire expireDetail JobRow.id
        (t.jobs.filter (expired now cfg.thresholdSeconds))
        { t with
          jobs := updateWhere (expired now cfg.thresholdSeconds) (JobRow.requeue now) t.jobs }
      simp only [insertExpires, heq]
      exact List.length_map _
  | drainLease w => exact List.length_map _
  | enqueue | snifferEnqueue | enqueueBatch | retention | rolledBack => cases hop

/-- An operation that updates is a `Delta` without new rows. -/
theorem exec_updates {t : Tables} (hwf : t.Wf) (now : Time) {op : Op} (hop : op.updates = true) :
    ∃ d : Delta now op t (exec t now op), d.new = [] := by
  have hdel : ¬op.IsRetention := by
    intro hret
    cases op with
    | retention => cases hop
    | enqueue | snifferEnqueue | enqueueBatch | leaseJob | outcome | sweep | drainLease
    | rolledBack =>
      exact hret
  obtain ⟨d⟩ := exec_delta hwf now hdel
  have hlen := congrArg List.length d.jobs
  rw [exec_length t now hop, List.length_append, List.length_map] at hlen
  exact ⟨d, List.length_eq_zero_iff.mp (by omega)⟩

/-! ## Retention -/

/-- The effect of retention: the jobs whose id `keep` refuses are gone with
their events, and all of them were terminal. -/
structure Pruned (t t' : Tables) (keep : Nat → Bool) : Prop where
  jobs : t'.jobs = t.jobs.filter fun r => keep r.id
  events : t'.events = t.events.filter fun e => keep e.jobId
  seq : t'.jobSeq = t.jobSeq
  terminal : ∀ r ∈ t.jobs, keep r.id = false → r.status.Terminal = true

theorem Pruned.refl (t : Tables) : Pruned t t fun _ => true where
  jobs := by simp
  events := by simp
  seq := rfl
  terminal := by simp

theorem Pruned.trans {t t' t'' : Tables} {keep keep' : Nat → Bool} (h : Pruned t t' keep)
    (h' : Pruned t' t'' keep') : Pruned t t'' fun id => keep id && keep' id where
  jobs := by
    rw [h'.jobs, h.jobs, List.filter_filter]
    exact List.filter_congr fun r _ => Bool.and_comm _ _
  events := by
    rw [h'.events, h.events, List.filter_filter]
    exact List.filter_congr fun e _ => Bool.and_comm _ _
  seq := h'.seq.trans h.seq
  terminal := by
    intro r hr hk
    cases hkeep : keep r.id with
    | false => exact h.terminal r hr hkeep
    | true =>
      refine h'.terminal r ?_ (by simpa [hkeep] using hk)
      rw [h.jobs]
      exact List.mem_filter.mpr ⟨hr, hkeep⟩

theorem Pruned.wf {t t' : Tables} {keep : Nat → Bool} (h : Pruned t t' keep) (hwf : t.Wf) :
    t'.Wf where
  ids := by
    rw [h.jobs]
    exact hwf.ids.sublist (List.filter_sublist.map _)
  keys := by
    rw [h.jobs]
    exact hwf.keys.sublist (List.filter_sublist.map _)
  seq := by
    rw [h.jobs, h.seq]
    exact fun r hr => hwf.seq r (List.mem_of_mem_filter hr)
  fk := by
    rw [h.jobs, h.events]
    intro e he
    obtain ⟨hmem, hkeep⟩ := List.mem_filter.mp he
    obtain ⟨r, hr, hre⟩ := hwf.fk e hmem
    exact ⟨r, List.mem_filter.mpr ⟨hr, by simpa [hre] using hkeep⟩, hre⟩

/-- The jobs that a batch picks are outdated rows of the table. -/
theorem victims_outdated {pick : List JobRow → List JobRow} {now : Time} {seconds : Int}
    {batch : Nat} {t : Tables} {id : Nat} (h : id ∈ victims pick now seconds batch t) :
    ∃ r ∈ t.jobs, r.id = id ∧ outdated now seconds r = true := by
  simp only [victims] at h
  obtain ⟨r, hr, rfl⟩ := List.mem_map.mp h
  have hrow := (List.mem_filter.mp (List.mem_of_mem_take hr)).2
  obtain ⟨hmem, hout⟩ := List.mem_filter.mp (List.contains_iff_mem.mp hrow)
  exact ⟨r, hmem, rfl, hout⟩

/-- Terminal rows deleted by their ids. -/
theorem deleteJobs_pruned {t : Tables} (hwf : t.Wf) {ids : List Nat}
    (hterm : ∀ r ∈ t.jobs, r.id ∈ ids → r.status.Terminal = true) :
    Pruned t (t.deleteJobs fun r => ids.contains r.id) fun id => !ids.contains id where
  jobs := rfl
  events := by
    -- The cascade drops the events whose job is among the ids, because the
    -- foreign key gives every event its job row.
    rw [Tables.deleteJobs]
    refine List.filter_congr fun e he => ?_
    obtain ⟨r, hr, hre⟩ := hwf.fk e he
    congr 1
    rw [Bool.eq_iff_iff, List.any_eq_true]
    constructor
    · rintro ⟨x, _, hx⟩
      rw [Bool.and_eq_true, beq_iff_eq] at hx
      exact hx.2 ▸ hx.1
    · intro hc
      exact ⟨r, hr, by simpa [hre] using hc⟩
  seq := rfl
  terminal := by
    intro r hr hk
    rw [Bool.not_eq_false', List.contains_iff_mem] at hk
    exact hterm r hr hk

theorem deleteBatch_pruned {t : Tables} (hwf : t.Wf) (pick : List JobRow → List JobRow)
    (now : Time) (seconds : Int) (batch : Nat) :
    Pruned t (deleteBatch pick now seconds batch t).1
      fun id => !(victims pick now seconds batch t).contains id := by
  refine deleteJobs_pruned hwf fun r hr hid => ?_
  obtain ⟨x, hx, hxid, hout⟩ := victims_outdated hid
  obtain rfl := eq_of_key_eq hwf.ids hx hr hxid
  rw [outdated, Bool.and_eq_true] at hout
  exact hout.1

theorem retentionLoop_pruned (pick : List JobRow → List JobRow) (now : Time) (seconds : Int)
    (batch fuel : Nat) {t : Tables} (hwf : t.Wf) (deleted : Nat) :
    ∃ keep, Pruned t (retentionLoop pick now seconds batch fuel t deleted).1 keep := by
  induction fuel generalizing t deleted with
  | zero => exact ⟨_, Pruned.refl t⟩
  | succ fuel ih =>
    have hbatch := deleteBatch_pruned hwf pick now seconds batch
    rw [retentionLoop]
    split
    rename_i t' n heq
    rw [heq] at hbatch
    split
    · exact ⟨_, hbatch⟩
    · obtain ⟨keep, hrest⟩ := ih (hbatch.wf hwf) (deleted + n)
      exact ⟨_, hbatch.trans hrest⟩

/-- Retention only drops terminal rows, with their events. -/
theorem exec_retention {t : Tables} (hwf : t.Wf) (now : Time) {op : Op}
    (hop : op.IsRetention) : ∃ keep, Pruned t (exec t now op) keep := by
  cases op with
  | retention cfg locked pick =>
    rw [exec, retentionSweep]
    split
    · exact ⟨_, Pruned.refl t⟩
    split
    · exact ⟨_, Pruned.refl t⟩
    exact retentionLoop_pruned pick now _ _ _ hwf 0
  | _ => exact absurd hop id

/-! ## The details of the events -/

/-- The detail of the events that an operation inserts. -/
def Op.Writes : Op → Detail → Prop
  | .enqueue a, d => d = .payload a.newJob.payload
  | .outcome _ st, d => d = st.detail
  | .sweep _ _, d => d = expireDetail
  | .snifferEnqueue _, _ | .enqueueBatch _, _ | .leaseJob _ _, _ | .drainLease _, _
  | .retention _ _ _, _ | .rolledBack _ _, _ => False

/-- The kind of the events that an operation inserts. -/
def Op.kind : Op → Option EventStatus
  | .enqueue _ => some .enqueue
  | .outcome _ st => some st.event
  | .sweep _ _ => some .expire
  | _ => none

theorem insertJob_events (t : Tables) (now : Time) (n : NewJob) :
    (t.insertJob now n).1.events = t.events := by
  rw [Tables.insertJob]
  split <;> rfl

theorem enqueue_mem_events {t : Tables} {now : Time} {a : EnqueueArgs} {e : EventRow}
    (he : e ∈ (enqueue t now a).1.events) :
    e ∈ t.events ∨ e.detail = .payload a.newJob.payload ∧ some .enqueue = some e.status := by
  have hins := insertJob_events t now a.newJob
  rw [enqueue] at he
  split at he
  · exact Or.inl he
  split at he
  · exact Or.inl he
  split at he
  · exact Or.inl he
  split at he
  · rename_i t' id heq
    rw [heq] at hins
    rcases List.mem_append.mp he with he | he
    · exact Or.inl (hins ▸ he)
    · rw [List.mem_singleton.mp he]
      exact Or.inr ⟨rfl, rfl⟩
  · rename_i t' heq
    rw [heq] at hins
    split at he
    · exact Or.inl (hins ▸ he)
    · exact Or.inl he

/-- An event was there before, or its detail and its kind are those that the
operation writes. -/
theorem exec_mem_events {t : Tables} (hwf : t.Wf) {now : Time} {op : Op} {e : EventRow}
    (he : e ∈ (exec t now op).events) :
    e ∈ t.events ∨ op.Writes e.detail ∧ op.kind = some e.status := by
  cases op with
  | enqueue a => exact enqueue_mem_events he
  | snifferEnqueue j =>
    obtain ⟨_, hins, _⟩ := snifferEnqueue_inserts now j hwf.keys
    exact Or.inl (hins.events ▸ he)
  | enqueueBatch specs =>
    obtain ⟨_, hins, _⟩ := enqueueBatch_inserts now specs hwf.keys
    exact Or.inl (hins.events ▸ he)
  | leaseJob w rowLocked =>
    rw [exec, leaseJob] at he
    split at he <;> exact Or.inl he
  | outcome w st =>
    rcases Statement.mem_events he with hold | ⟨_, hkind, hdetail⟩
    · exact Or.inl hold
    · exact Or.inr ⟨hdetail, congrArg some hkind.symm⟩
  | sweep cfg locked =>
    rw [exec, sweep] at he
    split at he
    · exact Or.inl he
    · rcases mem_foldl_insertEvent he with hold | ⟨_, hkind, hdetail⟩
      · exact Or.inl hold
      · exact Or.inr ⟨hdetail, congrArg some hkind.symm⟩
  | drainLease w => exact Or.inl he
  | retention cfg locked pick =>
    have hret : (Op.retention cfg locked pick).IsRetention := trivial
    obtain ⟨keep, hpruned⟩ := exec_retention hwf now hret
    rw [hpruned.events] at he
    exact Or.inl (List.mem_of_mem_filter he)
  | rolledBack jobIds eventIds => exact Or.inl he

/-! ## Rows and trails after an operation -/

section After

variable {now : Time} {op : Op} {t t' : Tables}

/-- Rows with a property that are kept, while no row gets the property, are the
same rows in the same order. -/
theorem Delta.filter_eq (d : Delta now op t t') {p : JobRow → Bool}
    (hkeep : ∀ r ∈ t.jobs, p r = true → d.f r = r)
    (hrows : ∀ r ∈ t.jobs, p r = false → p (d.f r) = false) (hnew : ∀ r ∈ d.new, p r = false) :
    t'.jobs.filter p = t.jobs.filter p := by
  have hsame : ∀ r ∈ t.jobs, p (d.f r) = p r := by
    intro r hr
    cases hp : p r with
    | true => rw [hkeep r hr hp, hp]
    | false => exact hrows r hr hp
  have hnone : d.new.filter p = [] := List.filter_eq_nil_iff.mpr fun r hr => by simp [hnew r hr]
  calc t'.jobs.filter p
      = (t.jobs.map d.f).filter p := by rw [d.jobs, List.filter_append, hnone, List.append_nil]
    _ = (t.jobs.filter p).map d.f := by
        rw [List.filter_map]
        exact congrArg (List.map d.f) (List.filter_congr hsame)
    _ = t.jobs.filter p := by
        conv_rhs => rw [← List.map_id (t.jobs.filter p)]
        refine List.map_congr_left fun r hr => ?_
        obtain ⟨hmem, hp⟩ := List.mem_filter.mp hr
        exact hkeep r hmem hp

/-- Where a row of the new table comes from. -/
theorem Delta.mem_jobs (d : Delta now op t t') {r' : JobRow} :
    r' ∈ t'.jobs ↔ (∃ r ∈ t.jobs, d.f r = r') ∨ r' ∈ d.new := by
  rw [d.jobs, List.mem_append, List.mem_map]

/-- The trail of a row that was there grows by the events of its step. -/
theorem Delta.trail (d : Delta now op t t') (id : Nat) :
    t'.trail id = t.trail id ++ kindsOf d.evs id := by
  rw [Tables.trail, d.events, kindsOf_append, Tables.trail]

/-- The trail of a new row is what the enqueue wrote. -/
theorem Delta.trail_new (d : Delta now op t t') (hwf : t.Wf) {r : JobRow} (hr : r ∈ d.new) :
    t'.trail r.id = kindsOf d.evs r.id := by
  rw [d.trail, hwf.trail_fresh (d.newSeq r hr).1, List.nil_append]

theorem Delta.wf (d : Delta now op t t') (hwf : t.Wf) : t'.Wf where
  ids := by
    have hold : (t.jobs.map d.f).map JobRow.id = t.jobs.map JobRow.id := by
      rw [List.map_map]
      exact List.map_congr_left fun r hr => (d.rows r hr).immutable.1
    rw [d.jobs, List.map_append, hold, List.nodup_append]
    refine ⟨hwf.ids, d.newIds, ?_⟩
    intro a ha b hb hab
    obtain ⟨r, hr, rfl⟩ := List.mem_map.mp ha
    obtain ⟨r', hr', rfl⟩ := List.mem_map.mp hb
    have h1 := hwf.seq r hr
    have h2 := (d.newSeq r' hr').1
    omega
  keys := by
    have hold : (t.jobs.map d.f).map JobRow.key = t.jobs.map JobRow.key := by
      rw [List.map_map]
      exact List.map_congr_left fun r hr => (d.rows r hr).immutable.2.1
    rw [d.jobs, List.map_append, hold, ← List.map_append]
    exact d.keys
  seq := by
    intro r' hr'
    rcases d.mem_jobs.mp hr' with ⟨r, hr, rfl⟩ | hnew
    · rw [(d.rows r hr).immutable.1]
      exact (hwf.seq r hr).trans_le d.seq
    · exact (d.newSeq r' hnew).2
  fk := by
    have hfind : ∀ r ∈ t.jobs ++ d.new, ∃ r' ∈ t'.jobs, r'.id = r.id := by
      intro r hr
      rcases List.mem_append.mp hr with hr | hr
      · exact ⟨d.f r, d.mem_jobs.mpr (Or.inl ⟨r, hr, rfl⟩), (d.rows r hr).immutable.1⟩
      · exact ⟨r, d.mem_jobs.mpr (Or.inr hr), rfl⟩
    intro e he
    rw [d.events, List.mem_append] at he
    rcases he with he | he
    · obtain ⟨r, hr, hre⟩ := hwf.fk e he
      obtain ⟨r', hr', hid⟩ := hfind r (List.mem_append_left _ hr)
      exact ⟨r', hr', hid.trans hre⟩
    · obtain ⟨r, hr, hre⟩ := d.fk e he
      obtain ⟨r', hr', hid⟩ := hfind r hr
      exact ⟨r', hr', hid.trans hre⟩

/-- A row that retention keeps has the trail that it had. -/
theorem Pruned.trail {keep : Nat → Bool} (h : Pruned t t' keep) {r : JobRow}
    (hr : r ∈ t'.jobs) : r ∈ t.jobs ∧ t'.trail r.id = t.trail r.id := by
  rw [h.jobs] at hr
  obtain ⟨hmem, hkeep⟩ := List.mem_filter.mp hr
  refine ⟨hmem, ?_⟩
  rw [Tables.trail, Tables.trail, kindsOf, kindsOf, h.events, List.filter_filter]
  congr 1
  refine List.filter_congr fun e _ => ?_
  by_cases he : e.jobId = r.id
  · simp [he, hkeep]
  · simp [he]

/-- The schema's constraints hold after every operation. -/
theorem exec_wf (hwf : t.Wf) (now : Time) (op : Op) : (exec t now op).Wf := by
  by_cases hop : op.IsRetention
  · obtain ⟨keep, h⟩ := exec_retention hwf now hop
    exact h.wf hwf
  · obtain ⟨d⟩ := exec_delta hwf now hop
    exact d.wf hwf

end After

/-- What holds of the new rows and what a row step keeps holds of every row
after the operation. -/
theorem Delta.all_rows {P : JobRow → List EventStatus → Prop} {now : Time} {op : Op}
    {t t' : Tables} (d : Delta now op t t') (hwf : t.Wf)
    (hcreated : ∀ r ∈ d.new, P r (kindsOf d.evs r.id))
    (hstep : ∀ r ∈ t.jobs, ∀ r' kinds, RowStep now op r r' kinds → P r (t.trail r.id) →
      P r' (t.trail r.id ++ kinds))
    (h : ∀ r ∈ t.jobs, P r (t.trail r.id)) : ∀ r' ∈ t'.jobs, P r' (t'.trail r'.id) := by
  intro r' hr'
  rcases d.mem_jobs.mp hr' with ⟨r, hr, rfl⟩ | hnew
  · have hrow := d.rows r hr
    rw [hrow.immutable.1, d.trail]
    exact hstep r hr _ _ hrow (h r hr)
  · rw [d.trail_new hwf hnew]
    exact hcreated r' hnew

/-- The invariant rule of the queue.  It is enough to say what a new row
satisfies and what a row step keeps; a row predicate may read the trail of
its row. -/
theorem exec_rows {P : JobRow → List EventStatus → Prop} {t : Tables} (hwf : t.Wf)
    (now : Time) (op : Op) (hcreated : ∀ r kinds, Created r kinds → P r kinds)
    (hstep : ∀ r ∈ t.jobs, ∀ r' kinds, RowStep now op r r' kinds → P r (t.trail r.id) →
      P r' (t.trail r.id ++ kinds))
    (h : ∀ r ∈ t.jobs, P r (t.trail r.id)) :
    ∀ r' ∈ (exec t now op).jobs, P r' ((exec t now op).trail r'.id) := by
  by_cases hop : op.IsRetention
  · intro r' hr'
    obtain ⟨keep, hp⟩ := exec_retention hwf now hop
    obtain ⟨hmem, htrail⟩ := hp.trail hr'
    rw [htrail]
    exact h r' hmem
  · obtain ⟨d⟩ := exec_delta hwf now hop
    exact d.all_rows hwf (fun r hr => hcreated _ _ (d.created r hr)) hstep h

end ImgSync.Queue
