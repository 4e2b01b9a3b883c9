import ImgSync.Queue.Ops

/-!
# What does not depend on the ids of the events

The events draw their ids from a sequence when they are inserted, so transactions
that overlap get them in an order of their own.  `SameContent` leaves these ids out.
No operation reads them: `SameContent.exec` says that databases of the same content
stay so.
-/

namespace ImgSync.Queue

open ImgSync.Lib ImgSync.Worker

/-- An event without the id that it has drawn. -/
def EventRow.entry (e : EventRow) : EventRow := { e with id := 0 }

/-- Two databases that differ at most in the ids of their events. -/
structure SameContent (t t' : Tables) : Prop where
  jobs : t.jobs = t'.jobs
  jobSeq : t.jobSeq = t'.jobSeq
  events : t.events.map EventRow.entry = t'.events.map EventRow.entry

section Content

variable {t t' : Tables}

theorem SameContent.refl (t : Tables) : SameContent t t := ⟨rfl, rfl, rfl⟩

theorem SameContent.trans {t'' : Tables} (h : SameContent t t') (h' : SameContent t' t'') :
    SameContent t t'' :=
  ⟨h.jobs.trans h'.jobs, h.jobSeq.trans h'.jobSeq, h.events.trans h'.events⟩

theorem SameContent.wf (h : SameContent t t') (hwf : t'.Wf) : t.Wf where
  ids := h.jobs ▸ hwf.ids
  keys := h.jobs ▸ hwf.keys
  seq := by
    rw [h.jobs, h.jobSeq]
    exact hwf.seq
  fk := by
    intro e he
    have hmem : e.entry ∈ t'.events.map EventRow.entry := h.events ▸ List.mem_map_of_mem he
    obtain ⟨e', he', heq⟩ := List.mem_map.mp hmem
    obtain ⟨r, hr, hid⟩ := hwf.fk e' he'
    have hjob : e'.entry.jobId = e.entry.jobId := congrArg EventRow.jobId heq
    exact ⟨r, h.jobs ▸ hr, hid.trans hjob⟩

theorem SameContent.setJobs (h : SameContent t t') (rows : List JobRow) :
    SameContent { t with jobs := rows } { t' with jobs := rows } :=
  ⟨rfl, h.jobSeq, h.events⟩

theorem SameContent.insertEvent (h : SameContent t t') (now : Time) (traceId : String) (jobId : Nat)
    (status : EventStatus) (d : Detail) :
    SameContent (t.insertEvent now traceId jobId status d)
      (t'.insertEvent now traceId jobId status d) := by
  refine ⟨h.jobs, h.jobSeq, ?_⟩
  simp only [Tables.insertEvent, List.map_append, h.events]
  rfl

theorem SameContent.insertEvents (h : SameContent t t') (now : Time) (jobId : JobRow → Nat)
    (status : EventStatus) (d : Detail) (rows : List JobRow) :
    SameContent (rows.foldl (fun t r => t.insertEvent now r.traceId (jobId r) status d) t)
      (rows.foldl (fun t r => t.insertEvent now r.traceId (jobId r) status d) t') := by
  induction rows generalizing t t' with
  | nil => exact h
  | cons r rows ih => exact ih (h.insertEvent now r.traceId (jobId r) status d)

theorem SameContent.insertJob (h : SameContent t t') (now : Time) (n : NewJob) :
    SameContent (t.insertJob now n).1 (t'.insertJob now n).1 ∧
      (t.insertJob now n).2 = (t'.insertJob now n).2 := by
  rw [Tables.insertJob, Tables.insertJob, h.jobs, h.jobSeq]
  split
  · exact ⟨⟨rfl, rfl, h.events⟩, rfl⟩
  · exact ⟨⟨rfl, rfl, h.events⟩, rfl⟩

theorem SameContent.enqueue (h : SameContent t t') (now : Time) (a : EnqueueArgs) :
    SameContent (Queue.enqueue t now a).1 (Queue.enqueue t' now a).1 := by
  obtain ⟨hins, hid⟩ := h.insertJob now a.newJob
  rw [Queue.enqueue, Queue.enqueue]
  split
  · exact h
  split
  · exact h
  split
  · exact h
  rcases hj : t.insertJob now a.newJob with ⟨u, id⟩
  rcases hj' : t'.insertJob now a.newJob with ⟨u', id'⟩
  rw [hj, hj'] at hins hid
  obtain rfl : id = id' := hid
  cases id with
  | some id => exact hins.insertEvent now a.traceId id .enqueue _
  | none =>
    have hjobs : u.jobs = u'.jobs := hins.jobs
    simp only [hjobs]
    split
    · exact hins
    · exact h

theorem SameContent.insertAll (h : SameContent t t') (now : Time) (specs : List JobSpec) :
    SameContent (Queue.insertAll now t specs).1 (Queue.insertAll now t' specs).1 := by
  induction specs generalizing t t' with
  | nil => exact h
  | cons j rest ih => exact ih (h.insertJob now j.newJob).1

theorem SameContent.deleteJobs (h : SameContent t t') (p : JobRow → Bool) :
    SameContent (t.deleteJobs p) (t'.deleteJobs p) := by
  have hfilter : ∀ (q : Nat → Bool) (es : List EventRow),
      (es.filter fun e => q e.jobId).map EventRow.entry =
        (es.map EventRow.entry).filter fun e => q e.jobId := by
    intro q es
    rw [List.filter_map]
    rfl
  let kept : Nat → Bool := fun id => !t'.jobs.any fun r => p r && r.id == id
  refine ⟨by simp only [Tables.deleteJobs, h.jobs], h.jobSeq, ?_⟩
  simp only [Tables.deleteJobs, h.jobs]
  rw [hfilter kept, h.events]
  exact (hfilter kept _).symm

theorem SameContent.retentionLoop (h : SameContent t t') (pick : List JobRow → List JobRow)
    (now : Time) (seconds : Int) (batch fuel deleted : Nat) :
    SameContent (Queue.retentionLoop pick now seconds batch fuel t deleted).1
      (Queue.retentionLoop pick now seconds batch fuel t' deleted).1 := by
  induction fuel generalizing t t' deleted with
  | zero => exact h
  | succ fuel ih =>
    have hids : victims pick now seconds batch t = victims pick now seconds batch t' := by
      rw [victims, victims, h.jobs]
    have hdel := h.deleteJobs fun r => (victims pick now seconds batch t').contains r.id
    have hcount : (deleteBatch pick now seconds batch t).2 =
        (deleteBatch pick now seconds batch t').2 := by
      simp only [deleteBatch, hids, h.jobs, hdel.jobs]
    have hrows : SameContent (deleteBatch pick now seconds batch t).1
        (deleteBatch pick now seconds batch t').1 := by
      simp only [deleteBatch, hids]
      exact hdel
    rw [Queue.retentionLoop, Queue.retentionLoop]
    simp only [hcount]
    split
    · exact hrows
    · exact ih hrows _

theorem nextDue_congr (h : t.jobs = t'.jobs) (now : Time) (rowLocked : List Nat) :
    nextDue t now rowLocked = nextDue t' now rowLocked := by
  rw [nextDue, nextDue, h]

/-- No operation looks at the ids of the events. -/
theorem SameContent.exec (h : SameContent t t') (now : Time) (op : Op) :
    SameContent (Queue.exec t now op) (Queue.exec t' now op) := by
  cases op with
  | enqueue a => exact h.enqueue now a
  | snifferEnqueue j => exact (h.insertJob now j.newJob).1
  | enqueueBatch specs =>
    simp only [Queue.exec, enqueueBatch]
    split
    · exact h
    · exact h.insertAll now specs
  | leaseJob w rowLocked =>
    simp only [Queue.exec, leaseJob, nextDue_congr h.jobs]
    split
    · exact h
    · rw [h.jobs]
      exact h.setJobs _
  | outcome w st =>
    simp only [Queue.exec, st.exec_eq]
    split
    · simp only [guardedWrite, h.jobs]
      exact (h.setJobs _).insertEvents now (fun _ => st.job.id) _ _ _
    · exact h
  | sweep cfg locked =>
    simp only [Queue.exec, sweep]
    split
    · exact h
    · simp only [h.jobs]
      exact (h.setJobs _).insertEvents now (fun r => r.id) _ _ _
  | drainLease w =>
    simp only [Queue.exec, drainLease, h.jobs]
    exact h.setJobs _
  | retention cfg locked pick =>
    simp only [Queue.exec, retentionSweep]
    split
    · exact h
    split
    · exact h
    · rw [h.jobs]
      exact h.retentionLoop pick now _ _ _ _
  | rolledBack jobIds eventIds => exact ⟨h.jobs, by simp only [Queue.exec, h.jobSeq], h.events⟩

theorem SameContent.execAll (h : SameContent t t') (ops : List (Time × Op)) :
    SameContent (ops.foldl (fun t o => Queue.exec t o.1 o.2) t)
      (ops.foldl (fun t o => Queue.exec t o.1 o.2) t') := by
  induction ops generalizing t t' with
  | nil => exact h
  | cons o ops ih => exact ih (h.exec o.1 o.2)

end Content

end ImgSync.Queue
