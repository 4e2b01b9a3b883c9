import ImgSync.Queue.Maintenance

/-!
# Leasing a job

`LeaseJob` (`internal/worker/job.go`) picks the oldest pending row that is due
and marks it leased.  `drainLease` (`internal/worker/runner.go`) gives back
what a worker still holds when its loop ends.
-/

namespace ImgSync.Worker

open ImgSync.Lib ImgSync.Queue

/-- `worker.Job`, a snapshot of a `transfer_jobs` row at lease time: the Go
struct has one field for each column. -/
abbrev Job := JobRow

/-- `status='pending' AND next_run_at <= NOW()`, less the rows that `SKIP
LOCKED` passes over because another transaction holds them. -/
def leasable (now : Time) (rowLocked : List Nat) (r : JobRow) : Bool :=
  r.status == .pending && decide (r.nextRunAt ≤ now) && !rowLocked.contains r.id

/-- The row that comes first under `ORDER BY next_run_at, id`. -/
def earlier (a b : JobRow) : JobRow :=
  if a.nextRunAt < b.nextRunAt ∨ a.nextRunAt = b.nextRunAt ∧ a.id ≤ b.id then a else b

/-- `ORDER BY next_run_at, id ... LIMIT 1`. -/
def nextDue (t : Tables) (now : Time) (rowLocked : List Nat) : Option JobRow :=
  match t.jobs.filter (leasable now rowLocked) with
  | [] => none
  | r :: rest => some (rest.foldl earlier r)

/-- The columns that a lease sets. -/
def lease (now : Time) (lockedBy : String) (r : JobRow) : JobRow :=
  { r with
    status := .leased, lockedAt := some now, lockedBy := some lockedBy, updatedAt := now }

/-- `LeaseJob`.  The answer is the row as the statement returns it, or `none`
when no row is due. -/
def leaseJob (t : Tables) (now : Time) (lockedBy : String) (rowLocked : List Nat) :
    Tables × Option Job :=
  match nextDue t now rowLocked with
  | none => (t, none)
  | some r =>
    ({ t with jobs := updateWhere (fun x => x.id == r.id) (lease now lockedBy) t.jobs },
      some (lease now lockedBy r))

/-- `status='leased' AND locked_by=$1`. -/
def heldBy (lockedBy : String) (r : JobRow) : Bool :=
  r.status == .leased && r.lockedBy == some lockedBy

/-- `drainLease`: every row that `lockedBy` still holds goes back to
`pending`, without an event. -/
def drainLease (t : Tables) (now : Time) (lockedBy : String) : Tables :=
  { t with jobs := updateWhere (heldBy lockedBy) (JobRow.requeue now) t.jobs }

/-- The first row of a scan is one of the rows. -/
theorem foldl_earlier_mem (r : JobRow) (rest : List JobRow) :
    rest.foldl earlier r ∈ r :: rest := by
  induction rest generalizing r with
  | nil => exact List.mem_singleton_self r
  | cons x rest ih =>
    rw [List.foldl_cons]
    rcases List.mem_cons.mp (ih (earlier r x)) with h | h
    · rw [h, earlier]
      split
      · exact List.mem_cons_self
      · exact List.mem_cons_of_mem _ List.mem_cons_self
    · exact List.mem_cons_of_mem _ (List.mem_cons_of_mem _ h)

/-- The row that `LeaseJob` picks is due and in the table. -/
theorem nextDue_mem {t : Tables} {now : Time} {rowLocked : List Nat} {r : JobRow}
    (h : nextDue t now rowLocked = some r) :
    r ∈ t.jobs ∧ r.status = .pending ∧ r.nextRunAt ≤ now := by
  have hmem : r ∈ t.jobs.filter (leasable now rowLocked) := by
    rw [nextDue] at h
    split at h
    · exact absurd h (by simp)
    · rename_i x rest hrows
      rw [hrows, ← Option.some.inj h]
      exact foldl_earlier_mem x rest
  rw [List.mem_filter] at hmem
  obtain ⟨hr, hl⟩ := hmem
  simp only [leasable, Bool.and_eq_true, beq_iff_eq, decide_eq_true_eq] at hl
  exact ⟨hr, hl.1.1, hl.1.2⟩

end ImgSync.Worker
