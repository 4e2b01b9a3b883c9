import ImgSync.Queue.Clock
import ImgSync.Worker.Fencing

/-!
# The order in which jobs are dispatched

`LeaseJob` takes the first due row under `ORDER BY next_run_at, id`.  The order
of the table is `scanKey`, and `nextDue_iff` says that the lease takes the
leasable row with the least key.

The rows that can be dispatched before a waiting row `r` are the pending rows
`ahead` of it.  Every lease that is granted while `r` waits takes one of them
away.  A row gets ahead of `r` in one way only: a sweep or a drain puts a leased
row back, and the row still has the `next_run_at` under which it was leased.
`isAhead_of_rowStep` is that fact for one row; `step_ahead` counts, and
`dispatch_in_order` is the bound for a whole wait.
-/

namespace ImgSync.Worker

open ImgSync.Lib ImgSync.Queue

/-! ## The row that a lease takes -/

/-- The sort key of `ORDER BY next_run_at, id`. -/
def scanKey (r : JobRow) : Time ×ₗ Nat := toLex (r.nextRunAt, r.id)

theorem scanKey_le {a b : JobRow} :
    scanKey a ≤ scanKey b ↔ a.nextRunAt < b.nextRunAt ∨ a.nextRunAt = b.nextRunAt ∧ a.id ≤ b.id :=
  Prod.Lex.toLex_le_toLex

theorem scanKey_lt {a b : JobRow} :
    scanKey a < scanKey b ↔ a.nextRunAt < b.nextRunAt ∨ a.nextRunAt = b.nextRunAt ∧ a.id < b.id :=
  Prod.Lex.toLex_lt_toLex

theorem earlier_eq (a b : JobRow) : earlier a b = if scanKey a ≤ scanKey b then a else b := by
  simp only [earlier, scanKey_le]

/-- The first row of a scan has the least key. -/
theorem foldl_earlier_le (r : JobRow) (rest : List JobRow) {x : JobRow} (hx : x ∈ r :: rest) :
    scanKey (rest.foldl earlier r) ≤ scanKey x := by
  induction rest generalizing r x with
  | nil =>
    rw [List.mem_singleton.mp hx]
    exact le_rfl
  | cons y rest ih =>
    have hfirst : scanKey (earlier r y) ≤ scanKey r ∧ scanKey (earlier r y) ≤ scanKey y := by
      rw [earlier_eq]
      split_ifs with h
      · exact ⟨le_rfl, h⟩
      · exact ⟨(not_le.mp h).le, le_rfl⟩
    have hleast := ih (earlier r y) List.mem_cons_self
    rw [List.foldl_cons]
    rcases List.mem_cons.mp hx with rfl | hx
    · exact hleast.trans hfirst.1
    rcases List.mem_cons.mp hx with rfl | hx
    · exact hleast.trans hfirst.2
    · exact ih (earlier r y) (List.mem_cons_of_mem _ hx)

theorem nextDue_none {t : Tables} {now : Time} {rowLocked : List Nat} :
    nextDue t now rowLocked = none ↔ ∀ x ∈ t.jobs, leasable now rowLocked x = false := by
  have hempty : nextDue t now rowLocked = none ↔ t.jobs.filter (leasable now rowLocked) = [] := by
    rw [nextDue]
    split
    · rename_i heq
      exact iff_of_true rfl heq
    · rename_i heq
      exact iff_of_false (by simp) (by simp [heq])
  rw [hempty, List.filter_eq_nil_iff]
  simp only [Bool.not_eq_true]

theorem nextDue_leasable {t : Tables} {now : Time} {rowLocked : List Nat} {r : JobRow}
    (h : nextDue t now rowLocked = some r) :
    r ∈ t.jobs ∧ leasable now rowLocked r = true ∧
      ∀ x ∈ t.jobs, leasable now rowLocked x = true → scanKey r ≤ scanKey x := by
  rw [nextDue] at h
  split at h
  · exact absurd h (by simp)
  · rename_i y rest heq
    obtain rfl := Option.some.inj h
    have hmem : rest.foldl earlier y ∈ t.jobs.filter (leasable now rowLocked) := by
      rw [heq]
      exact foldl_earlier_mem y rest
    obtain ⟨hr, hl⟩ := List.mem_filter.mp hmem
    refine ⟨hr, hl, fun x hx hlx => foldl_earlier_le y rest ?_⟩
    rw [← heq]
    exact List.mem_filter.mpr ⟨hx, hlx⟩

/-- `LeaseJob` takes the leasable row with the least key. -/
theorem nextDue_iff {t : Tables} (hwf : t.Wf) {now : Time} {rowLocked : List Nat} {r : JobRow} :
    nextDue t now rowLocked = some r ↔ r ∈ t.jobs ∧ leasable now rowLocked r = true ∧
      ∀ x ∈ t.jobs, leasable now rowLocked x = true → scanKey r ≤ scanKey x := by
  refine ⟨nextDue_leasable, fun ⟨hr, hl, hleast⟩ => ?_⟩
  cases hnext : nextDue t now rowLocked with
  | none =>
    rw [nextDue_none.mp hnext r hr] at hl
    exact absurd hl (by decide)
  | some x =>
    -- The two rows have the same key, and so the same id.
    obtain ⟨hx, hlx, hxleast⟩ := nextDue_leasable hnext
    have hkey : scanKey x = scanKey r := le_antisymm (hxleast r hr hl) (hleast x hx hlx)
    have hid : x.id = r.id := congrArg (fun k => (ofLex k).2) hkey
    rw [eq_of_key_eq hwf.ids hx hr hid]

/-! ## The rows ahead of a waiting row -/

/-- Whether `x` is pending and comes before `r` in the scan of a lease. -/
def isAhead (r x : JobRow) : Bool := x.status == .pending && decide (scanKey x < scanKey r)

/-- The rows that are dispatched before `r`. -/
def ahead (r : JobRow) (t : Tables) : Nat := t.jobs.countP (isAhead r)

/-- Whether the operation takes the lease of the row away and puts it back into
the queue. -/
def requeues (now : Time) : Op → JobRow → Bool
  | .sweep cfg true => expired now cfg.thresholdSeconds
  | .drainLease w => heldBy w
  | _ => fun _ => false

/-- The number of rows that an operation puts back. -/
def requeued (t : Tables) (o : Time × Op) : Nat := t.jobs.countP (requeues o.1 o.2)

/-- One for a `LeaseJob` that returns a job. -/
def granted (t : Tables) (o : Time × Op) : Nat :=
  match o.2 with
  | .leaseJob w rowLocked => if (leaseJob t o.1 w rowLocked).2.isSome then 1 else 0
  | _ => 0

/-- The row `r` waits over the operation `o`: it is due and pending, no lease
finds it locked, and jobs that fail are put off. -/
structure Waits (r : JobRow) (t : Tables) (o : Time × Op) : Prop where
  row : r ∈ (exec t o.1 o.2).jobs
  due : r.nextRunAt ≤ o.1
  seen : ∀ w rowLocked, o.2 = .leaseJob w rowLocked → r.id ∉ rowLocked
  putOff : ∀ w job attempts backoffMs d, o.2 = .outcome w (.retry job attempts backoffMs d) →
    0 < backoffMs

section Ahead

variable {r x x' : JobRow} {now : Time} {op : Op} {kinds : List EventStatus} {t : Tables}

theorem isAhead_iff : isAhead r x = true ↔ x.status = .pending ∧ scanKey x < scanKey r := by
  rw [isAhead, Bool.and_eq_true, beq_iff_eq, decide_eq_true_eq]

/-- A row that is ahead after an operation was ahead before, or the operation
has put it back. -/
theorem isAhead_of_rowStep (h : RowStep now op x x' kinds) (hdue : r.nextRunAt ≤ now)
    (hput : ∀ w job attempts backoffMs d, op = .outcome w (.retry job attempts backoffMs d) →
      0 < backoffMs) (hahead : isAhead r x' = true) :
    isAhead r x = true ∨ requeues now op x = true := by
  rw [isAhead_iff] at hahead
  cases h with
  | keep => exact Or.inl (isAhead_iff.mpr hahead)
  | lease w rowLocked => exact absurd hahead.1 (by simp [lease])
  | drain w hh => exact Or.inr hh
  | expire cfg he => exact Or.inr he
  | succeed w job d => exact absurd hahead.1 (by simp [setSuccess])
  | finish w job kind attempts d =>
    exact absurd hahead.1 (by cases kind <;> simp [setTerminal, TerminalKind.jobStatus])
  | retry w job attempts backoffMs d =>
    -- The retry is due after `now`, and `r` is due already.
    have hpos := hput w job attempts backoffMs d rfl
    have hlt := scanKey_lt.mp hahead.2
    simp only [setRetry] at hlt
    rcases hlt with hlt | ⟨heq, _⟩ <;> linarith

/-- An inserted row is not ahead of a row that is there. -/
theorem not_ahead_new (d : Delta now op t (exec t now op)) (hwf : t.Wf) (hdue : r.nextRunAt ≤ now)
    (hr : r ∈ t.jobs) (hx : x ∈ d.new) : isAhead r x = false := by
  rw [← Bool.not_eq_true, isAhead_iff, scanKey_lt, (d.new_stamps hwf hx).nextRun]
  have hlt := hwf.seq r hr
  have hge := (d.newSeq x hx).1
  rintro ⟨_, hearlier | ⟨_, hid⟩⟩
  · exact absurd hdue (not_le.mpr hearlier)
  · omega

/-- What an operation other than retention does to the rows ahead. -/
theorem ahead_exec_le (d : Delta now op t (exec t now op)) (hwf : t.Wf) (hr : r ∈ t.jobs)
    (hdue : r.nextRunAt ≤ now)
    (hput : ∀ w job attempts backoffMs det, op = .outcome w (.retry job attempts backoffMs det) →
      0 < backoffMs) :
    ahead r (exec t now op) ≤ t.jobs.countP (isAhead r) + t.jobs.countP (requeues now op) := by
  have hnew : d.new.countP (isAhead r) = 0 :=
    List.countP_eq_zero.mpr fun x hx => by simp [not_ahead_new d hwf hdue hr hx]
  have hrows : t.jobs.countP (isAhead r ∘ d.f) ≤
      t.jobs.countP fun x => isAhead r x || requeues now op x := by
    refine List.countP_mono_left fun x hx hahead => ?_
    rw [Bool.or_eq_true]
    exact isAhead_of_rowStep (d.rows x hx) hdue hput hahead
  rw [ahead, d.jobs, List.countP_append, List.countP_map, hnew, Nat.add_zero]
  exact hrows.trans (countP_or_le _ _ _)

/-- A lease that is granted takes a row that is ahead of `r`, and puts nothing
ahead. -/
theorem ahead_lease {w : String} {rowLocked : List Nat} {job : Job}
    (hr : r ∈ t.jobs) (hp : r.status = .pending) (hdue : r.nextRunAt ≤ now)
    (hseen : r.id ∉ rowLocked) (hkept : r ∈ (leaseJob t now w rowLocked).1.jobs)
    (hjob : (leaseJob t now w rowLocked).2 = some job) :
    ahead r (leaseJob t now w rowLocked).1 < ahead r t := by
  have hleasable : leasable now rowLocked r = true := by
    simp [leasable, hp, hdue, hseen]
  rw [leaseJob] at hjob hkept ⊢
  cases hnext : nextDue t now rowLocked with
  | none => simp [hnext] at hjob
  | some y =>
    obtain ⟨hy, hyl, hleast⟩ := nextDue_leasable hnext
    simp only [hnext, updateWhere] at hkept ⊢
    -- The leased row is not `r`, for `r` is still pending.
    have hne : y.id ≠ r.id := by
      intro hid
      obtain ⟨x, hx, hxr⟩ := List.mem_map.mp hkept
      split_ifs at hxr with hxid
      · rw [← hxr] at hp
        exact absurd hp (by simp [lease])
      · rw [hxr, hid] at hxid
        exact hxid (beq_self_eq_true _)
    have hlt : scanKey y < scanKey r :=
      lt_of_le_of_ne (hleast r hr hleasable) fun h => hne (congrArg (fun k => (ofLex k).2) h)
    have hyp : y.status = .pending := (nextDue_mem hnext).2.1
    rw [ahead, ahead, List.countP_map]
    refine countP_lt_countP hy (isAhead_iff.mpr ⟨hyp, hlt⟩) (by simp [isAhead, lease]) ?_
    intro x hx hahead
    simp only [Function.comp_apply] at hahead
    split_ifs at hahead with hxid
    · exact absurd (isAhead_iff.mp hahead).1 (by simp [lease])
    · exact hahead

/-- One operation while `r` waits. -/
theorem step_ahead {o : Time × Op} (hwf : t.Wf) (hr : r ∈ t.jobs) (hp : r.status = .pending)
    (h : Waits r t o) :
    ahead r (exec t o.1 o.2) + granted t o ≤ ahead r t + requeued t o := by
  obtain ⟨now, op⟩ := o
  by_cases hret : op.IsRetention
  · -- Retention drops terminal rows, and none of them is ahead.
    obtain ⟨keep, hpruned⟩ := exec_retention hwf now hret
    have hnone : granted t (now, op) = 0 := by cases op <;> first | rfl | exact absurd hret id
    rw [hnone, ahead, hpruned.jobs, Nat.add_zero]
    exact List.filter_sublist.countP_le.trans (Nat.le_add_right _ _)
  obtain ⟨d⟩ := exec_delta hwf now hret
  by_cases hgrant : granted t (now, op) = 0
  · rw [hgrant, Nat.add_zero]
    exact ahead_exec_le d hwf hr h.due h.putOff
  · cases op with
    | leaseJob w rowLocked =>
      simp only [granted, ite_eq_right_iff, one_ne_zero, imp_false, not_not] at hgrant
      obtain ⟨job, hjob⟩ := Option.isSome_iff_exists.mp hgrant
      have hlt : ahead r (exec t now (.leaseJob w rowLocked)) < ahead r t :=
        ahead_lease hr hp h.due (h.seen w rowLocked rfl) h.row hjob
      simp only [granted, hjob, Option.isSome_some, if_true]
      omega
    | enqueue | snifferEnqueue | enqueueBatch | outcome | sweep | drainLease | retention
    | rolledBack => exact absurd rfl hgrant

end Ahead

/-- Jobs are dispatched in the order of `next_run_at` and `id`.  Take any run of
the queue, and a row that is due and pending and stays so over further
operations of any clients, none of which finds it locked.  The leases that are
granted while it waits are no more than the rows that were ahead of it and the
leases that sweeps and drains took away in the meantime.  So without a sweep or
a drain it is overtaken by nobody. -/
theorem dispatch_in_order (ops later : List (Time × Op)) (r : JobRow)
    (hr : r ∈ (execAll ops).jobs) (hp : r.status = .pending)
    (hwaits : AllSteps (fun t o => exec t o.1 o.2) (Waits r) (execAll ops) later) :
    tally (fun t o => exec t o.1 o.2) granted (execAll ops) later ≤
      ahead r (execAll ops) + tally (fun t o => exec t o.1 o.2) requeued (execAll ops) later := by
  have hwf : (execAll ops).Wf := (execAll_audited ops).wf
  have hcount := tally_le (fun t => t.Wf ∧ r ∈ t.jobs) (ahead r) granted requeued
    (fun t o h hw => ⟨⟨exec_wf h.1 o.1 o.2, hw.row⟩, step_ahead h.1 h.2 hp hw⟩) ⟨hwf, hr⟩ hwaits
  omega

/-- Three jobs, of which the first is leased. -/
def threeJobs : List (Time × Op) :=
  [(10, .snifferEnqueue ⟨"a", "/a", "/x", "localfs", "localfs"⟩),
    (11, .snifferEnqueue ⟨"b", "/b", "/y", "localfs", "localfs"⟩),
    (12, .snifferEnqueue ⟨"c", "/c", "/z", "localfs", "localfs"⟩),
    (13, .leaseJob "v" [])]

/-- The worker of the first job drains it, and two leases follow. -/
def threeJobsLater : List (Time × Op) :=
  [(14, .drainLease "v"), (15, .leaseJob "w" []), (16, .leaseJob "w" [])]

/-- The third job waits for two leases.  One row was ahead of it, and the drain
has put another one there. -/
theorem dispatch_in_order_drained :
    ∃ r ∈ (execAll threeJobs).jobs, r.status = .pending ∧
      tally (fun t o => exec t o.1 o.2) granted (execAll threeJobs) threeJobsLater = 2 ∧
      2 ≤ ahead r (execAll threeJobs) +
        tally (fun t o => exec t o.1 o.2) requeued (execAll threeJobs) threeJobsLater := by
  have hr : (⟨3, "c", "/c", "/z", "localfs", "localfs", "{}", .pending, 0, 5, none, none, 12, 12,
      12⟩ : JobRow) ∈ (execAll threeJobs).jobs := by decide
  refine ⟨_, hr, rfl, by decide, ?_⟩
  refine dispatch_in_order threeJobs threeJobsLater _ hr rfl ⟨?_, ?_, ?_, trivial⟩
  · exact ⟨by decide, by decide, fun w rl h => (nomatch h), fun w job a b d h => (nomatch h)⟩
  · refine ⟨by decide, by decide, ?_, fun w job a b d h => (nomatch h)⟩
    intro w rl h
    cases h
    exact List.not_mem_nil
  · refine ⟨by decide, by decide, ?_, fun w job a b d h => (nomatch h)⟩
    intro w rl h
    cases h
    exact List.not_mem_nil

end ImgSync.Worker
