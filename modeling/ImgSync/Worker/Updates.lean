import ImgSync.Lib.RowLocks
import ImgSync.Queue.Content
import ImgSync.Worker.Fencing

/-!
# Concurrent updates, row lock by row lock

An outcome write, the sweeper's `UPDATE` and a drain are one step each in
`Queue.exec`.  Here they run the way the database runs them at READ COMMITTED, any
number at once and among the other statements: each goes through the rows of its
snapshot, waits for the row locks of the others, checks its `WHERE` clause again
on what has been committed meanwhile, and commits what it has locked
(`ImgSync.Lib.RowLocks`).

The three conditions have `status='leased'` in common, and all three statements end
it.  So no commit makes a row qualify for another of them, and only a lease can.
Two things keep a lease from doing so:

* A worker does not lease while a statement of its own runs.
* A lease takes less time than the threshold of the sweeper, so the row that it
  leases is too young for a sweep that is under way.

`updates_serialize` says that every run is then a run of `exec` in the order of the
commits, and that every statement reports the number of rows that it does there.
The event ids are drawn in some other order, so they are left out.
-/

namespace ImgSync.Worker.Updates

open ImgSync.Lib ImgSync.Queue

/-! ## The statements -/

inductive Stmt where
  /-- The writable CTE of an outcome. -/
  | outcome (w : String) (st : Statement)
  /-- The `UPDATE` of `Sweep`, under the advisory lock. -/
  | sweep (cfg : SweeperConfig)
  /-- The `UPDATE` of `drainLease`. -/
  | drain (w : String)

/-- The atomic operation. -/
def Stmt.op : Stmt → Op
  | .outcome w st => .outcome w st
  | .sweep cfg => .sweep cfg true
  | .drain w => .drainLease w

/-- The `WHERE` clause. -/
def Stmt.hits (now : Time) : Stmt → JobRow → Bool
  | .outcome w st => leaseGuard st.job.id w
  | .sweep cfg => expired now cfg.thresholdSeconds
  | .drain w => heldBy w

/-- The `SET` clause. -/
def Stmt.set (now : Time) : Stmt → JobRow → JobRow
  | .outcome _ st => st.set now
  | .sweep _ | .drain _ => JobRow.requeue now

/-- The event that goes with each updated row. -/
def Stmt.event : Stmt → Option (EventStatus × Detail)
  | .outcome _ st => some (st.event, st.detail)
  | .sweep _ => some (.expire, expireDetail)
  | .drain _ => none

/-- A parameter that does not fit its column makes the statement fail. -/
def Stmt.inRange : Stmt → Bool
  | .outcome _ st => st.inRange
  | .sweep _ | .drain _ => true

/-- The worker that runs the statement. -/
def Stmt.worker : Stmt → Option String
  | .outcome w _ | .drain w => some w
  | .sweep _ => none

/-- The number of rows that the atomic operation reports. -/
def Stmt.affected (t : Tables) (now : Time) : Stmt → Nat
  | .outcome w st => (st.exec t now w).2
  | .sweep cfg => (Queue.sweep t now cfg true).2
  | .drain w => (t.jobs.filter (heldBy w)).length

/-! ## The calls -/

inductive Answer where
  | affected (n : Nat)
  | failed
  deriving DecidableEq

/-- Where a call is.  `now` is the time of its transaction, and `stmt` its statement. -/
inductive Phase where
  | idle
  | running (now : Time) (stmt : Stmt) (scan : Scan Nat)
  | returned (now : Time) (stmt : Stmt) (answer : Answer)

/-- The rows that the call has locked. -/
def Phase.locked : Phase → List Nat
  | .running _ _ scan => scan.locked
  | .idle | .returned _ _ _ => []

section Model

variable {n : Nat}

/-- The committed tables and the calls. -/
structure Server (n : Nat) where
  tables : Tables
  clock : Time
  calls : Fin n → Phase

/-- The time `age` is how long ago the transaction has begun. -/
inductive Action (n : Nat) where
  | tick (d : Nat)
  /-- The statement takes its snapshot. -/
  | begin (i : Fin n) (age : Nat) (stmt : Stmt)
  /-- The scan comes to its next row. -/
  | visit (i : Fin n)
  /-- The events, with the ids that they have drawn, and the commit.  A `lost` answer is
  an error for the caller. -/
  | commit (i : Fin n) (eventIds : JobRow → Nat) (lost : Bool)
  | fail (i : Fin n)
  /-- The commit of another operation. -/
  | other (age : Nat) (op : Op)

def Server.move (s : Server n) (i : Fin n) (ph : Phase) : Server n :=
  { s with calls := Function.update s.calls i ph }

/-- Whether a call other than `i` has locked the row. -/
def Server.busy (s : Server n) (i : Fin n) (id : Nat) : Bool :=
  decide (∃ j, j ≠ i ∧ id ∈ (s.calls j).locked)

/-- The tables after the commit of a statement: the locked rows are rewritten, and each of
them gets its event. -/
def commitTables (t : Tables) (now : Time) (stmt : Stmt) (scan : Scan Nat)
    (eventIds : JobRow → Nat) : Tables :=
  let rows := t.jobs.filter fun r => scan.locked.contains r.id
  { t with
    jobs := scan.commit JobRow.id (stmt.set now) t.jobs
    events := t.events ++ match stmt.event with
      | none => []
      | some (ev, d) => rows.map fun r => ⟨eventIds r, r.traceId, r.id, now, ev, d⟩ }

/-- The operations that `Stmt` runs row by row. -/
def isUpdate : Op → Bool
  | .outcome _ _ | .sweep _ _ | .drainLease _ => true
  | _ => false

def step (s : Server n) : Action n → Server n
  | .tick d => { s with clock := s.clock + d }
  | .begin i age stmt =>
    match s.calls i with
    | .idle =>
      if stmt.inRange then
        s.move i (.running (s.clock - age) stmt
          (.start JobRow.id (stmt.hits (s.clock - age)) s.tables.jobs))
      else s.move i (.returned (s.clock - age) stmt .failed)
    | _ => s
  | .visit i =>
    match s.calls i with
    | .running now stmt scan =>
      -- The statement waits for a row that another one has locked.
      if scan.todo.head?.any fun id => s.busy i id then s
      else s.move i (.running now stmt (scan.visit JobRow.id (stmt.hits now) s.tables.jobs))
    | _ => s
  | .commit i eventIds lost =>
    match s.calls i with
    | .running now stmt scan =>
      if scan.todo.isEmpty then
        let answer := if lost then .failed else .affected scan.locked.length
        { s.move i (.returned now stmt answer) with
          tables := commitTables s.tables now stmt scan eventIds }
      else s
    | _ => s
  | .fail i =>
    match s.calls i with
    | .running now stmt _ => s.move i (.returned now stmt .failed)
    | _ => s
  | .other age op =>
    if isUpdate op then s else { s with tables := exec s.tables (s.clock - age) op }

def initial (t : Tables) (clock : Time) : Server n := ⟨t, clock, fun _ => .idle⟩

def reach (t : Tables) (clock : Time) (as : List (Action n)) : Server n :=
  as.foldl step (initial t clock)

/-- The operation that a step commits. -/
def op? (s : Server n) : Action n → Option (Time × Op)
  | .commit i _ _ =>
    match s.calls i with
    | .running now stmt scan => if scan.todo.isEmpty then some (now, stmt.op) else none
    | _ => none
  | .other age op => if isUpdate op then none else some (s.clock - age, op)
  | _ => none

/-- The operations that a run commits, in the order of their commits. -/
def committed (t : Tables) (clock : Time) (as : List (Action n)) : List (Time × Op) :=
  trace step op? (initial t clock) as

/-- The lease of a worker does not overlap with a statement of the same worker, and it has
not begun longer before a sweep that is under way than the threshold. -/
def Orderly (s : Server n) : Action n → Prop
  | .other age (.leaseJob w _) => ∀ i, match s.calls i with
    | .running now stmt _ =>
      stmt.worker ≠ some w ∧ match stmt with
        | .sweep cfg => now - secondsInterval cfg.thresholdSeconds ≤ s.clock - age
        | _ => True
    | _ => True
  | _ => True

end Model

/-! ## What the statements have in common -/

section Statements

variable {now : Time} {stmt : Stmt} {r : JobRow}

theorem Stmt.leased_of_hits (h : stmt.hits now r = true) : r.status = .leased := by
  cases stmt with
  | outcome w st => exact (leaseGuard_iff.mp h).2.1
  | sweep cfg =>
    simp only [Stmt.hits, expired, Bool.and_eq_true, beq_iff_eq] at h
    exact h.1
  | drain w =>
    simp only [Stmt.hits, heldBy, Bool.and_eq_true, beq_iff_eq] at h
    exact h.1

/-- The statements end the lease, so a row that one has rewritten qualifies for none. -/
theorem Stmt.hits_set (now now' : Time) (stmt stmt' : Stmt) (r : JobRow) :
    stmt.hits now (stmt'.set now' r) = false := by
  refine Bool.eq_false_iff.mpr fun hhit => ?_
  have hleased := Stmt.leased_of_hits hhit
  cases stmt' with
  | outcome w st => exact st.set_status now' r hleased
  | sweep cfg => cases hleased
  | drain w => cases hleased

/-- The events of a statement, without their ids. -/
def Stmt.entries (now : Time) (stmt : Stmt) (rows : List JobRow) : List EventRow :=
  match stmt.event with
  | none => []
  | some (ev, d) => rows.map fun r => ⟨0, r.traceId, r.id, now, ev, d⟩

theorem entries_insertEvents (t : Tables) (now : Time) (jobId : JobRow → Nat) (ev : EventStatus)
    (d : Detail) (rows : List JobRow) :
    (rows.foldl (fun t r => t.insertEvent now r.traceId (jobId r) ev d) t).events.map
        EventRow.entry =
      t.events.map EventRow.entry ++ rows.map fun r => ⟨0, r.traceId, jobId r, now, ev, d⟩ := by
  induction rows generalizing t with
  | nil => simp
  | cons r rows ih =>
    rw [List.foldl_cons, ih]
    simp [Tables.insertEvent, EventRow.entry]

theorem jobs_insertEvents (t : Tables) (now : Time) (jobId : JobRow → Nat) (ev : EventStatus)
    (d : Detail) (rows : List JobRow) :
    (rows.foldl (fun t r => t.insertEvent now r.traceId (jobId r) ev d) t).jobs = t.jobs ∧
      (rows.foldl (fun t r => t.insertEvent now r.traceId (jobId r) ev d) t).jobSeq =
        t.jobSeq := by
  induction rows generalizing t with
  | nil => exact ⟨rfl, rfl⟩
  | cons r rows ih => exact ih _

/-- The atomic operation, column by column: it rewrites the rows that qualify and inserts
their events. -/
theorem Stmt.exec_op (hrange : stmt.inRange = true) (t : Tables) (now : Time) :
    (exec t now stmt.op).jobs = updateWhere (stmt.hits now) (stmt.set now) t.jobs ∧
    (exec t now stmt.op).jobSeq = t.jobSeq ∧
    (exec t now stmt.op).events.map EventRow.entry =
      t.events.map EventRow.entry ++ stmt.entries now (t.jobs.filter (stmt.hits now)) ∧
    stmt.affected t now = (t.jobs.filter (stmt.hits now)).length := by
  cases stmt with
  | outcome w st =>
    simp only [Stmt.op, exec, Stmt.affected, st.exec_eq,
      if_pos (show st.inRange = true from hrange), guardedWrite]
    refine ⟨(jobs_insertEvents ..).1, (jobs_insertEvents ..).2, ?_, rfl⟩
    rw [entries_insertEvents]
    refine congrArg _ (List.map_congr_left fun r hr => ?_)
    have hid : r.id = st.job.id := (leaseGuard_iff.mp (List.mem_filter.mp hr).2).1
    rw [hid]
  | sweep cfg =>
    refine ⟨(jobs_insertEvents ..).1, (jobs_insertEvents ..).2, ?_, rfl⟩
    exact entries_insertEvents ..
  | drain w => exact ⟨rfl, rfl, by simp [Stmt.op, exec, drainLease, Stmt.entries, Stmt.event], rfl⟩

end Statements

/-! ## What the locks guarantee -/

/-- A running statement has a parameter for each column, and its locks cover its rows. -/
structure Sound (t : Tables) (now : Time) (stmt : Stmt) (scan : Scan Nat) : Prop where
  range : stmt.inRange = true
  covers : Covers JobRow.id (stmt.hits now) t.jobs scan

structure Inv {n : Nat} (s : Server n) : Prop where
  wf : s.tables.Wf
  sound : ∀ i now stmt scan, s.calls i = .running now stmt scan → Sound s.tables now stmt scan
  apart : ∀ i j, i ≠ j → ∀ id ∈ (s.calls i).locked, id ∉ (s.calls j).locked

/-- The commit is the atomic operation, up to the ids of the events. -/
theorem Sound.commit {t : Tables} {now : Time} {stmt : Stmt} {scan : Scan Nat}
    (h : Sound t now stmt scan) (hwf : t.Wf) (hend : scan.todo = []) (eventIds : JobRow → Nat) :
    SameContent (commitTables t now stmt scan eventIds) (exec t now stmt.op) ∧
      scan.locked.length = stmt.affected t now := by
  obtain ⟨hjobs, hseq, hevents, haffected⟩ := stmt.exec_op h.range t now
  have hrows : (t.jobs.filter fun r => scan.locked.contains r.id) =
      t.jobs.filter (stmt.hits now) :=
    List.filter_congr fun r hr => h.covers.locked_iff hwf.ids hend hr
  refine ⟨⟨?_, hseq.symm, ?_⟩, ?_⟩
  · rw [hjobs]
    exact h.covers.commit_eq hwf.ids hend (stmt.set now)
  · rw [hevents, commitTables, hrows, List.map_append]
    refine congrArg _ ?_
    rw [Stmt.entries]
    split
    · rfl
    · simp only [List.map_map]
      rfl
  · rw [haffected]
    exact h.covers.length_locked hwf.ids hend

section Steps

variable {n : Nat} {s : Server n} {i : Fin n}

theorem Inv.move (h : Inv s) (i : Fin n) {ph : Phase}
    (hsound : ∀ now stmt scan, ph = .running now stmt scan → Sound s.tables now stmt scan)
    (hapart : ∀ j, j ≠ i → ∀ id ∈ ph.locked, id ∉ (s.calls j).locked) : Inv (s.move i ph) where
  wf := h.wf
  sound := by
    intro j now stmt scan hj
    by_cases hji : j = i
    · subst hji
      simp only [Server.move, Function.update_self] at hj
      exact hsound now stmt scan hj
    · simp only [Server.move, Function.update_of_ne hji] at hj
      exact h.sound j now stmt scan hj
  apart := by
    intro j k hjk id hj hk
    by_cases hji : j = i
    · subst hji
      simp only [Server.move, Function.update_self, Function.update_of_ne hjk.symm] at hj hk
      exact hapart k hjk.symm id hj hk
    · simp only [Server.move, Function.update_of_ne hji] at hj
      by_cases hki : k = i
      · subst hki
        simp only [Server.move, Function.update_self] at hk
        exact hapart j hji id hk hj
      · simp only [Server.move, Function.update_of_ne hki] at hk
        exact h.apart j k hjk id hj hk

/-- A call that has nothing locked. -/
theorem Inv.unlock (h : Inv s) (i : Fin n) {ph : Phase}
    (hsound : ∀ now stmt scan, ph = .running now stmt scan → Sound s.tables now stmt scan)
    (hnone : ph.locked = []) : Inv (s.move i ph) := by
  refine h.move i hsound fun j _ id hid => ?_
  rw [hnone] at hid
  exact absurd hid List.not_mem_nil

theorem Inv.visit (h : Inv s) {now : Time} {stmt : Stmt} {scan : Scan Nat}
    (hi : s.calls i = .running now stmt scan)
    (hfree : ¬(scan.todo.head?.any fun id => s.busy i id) = true) :
    Inv (s.move i (.running now stmt (scan.visit JobRow.id (stmt.hits now) s.tables.jobs))) := by
  have hsound := h.sound i now stmt scan hi
  refine h.move i ?_ ?_
  · intro now' stmt' scan' heq
    cases heq
    exact ⟨hsound.range, hsound.covers.visit⟩
  · intro j hji id hid hj
    have hold : id ∈ scan.locked → False := by
      intro hmem
      refine h.apart i j hji.symm id ?_ hj
      rw [hi]
      exact hmem
    simp only [Phase.locked, Scan.visit] at hid
    split at hid
    · exact hold hid
    · rename_i k rest htodo
      split at hid
      · rcases List.mem_append.mp hid with hmem | hmem
        · exact hold hmem
        · obtain rfl := List.mem_singleton.mp hmem
          refine hfree ?_
          rw [htodo]
          simp only [List.head?_cons, Option.any_some, Server.busy, decide_eq_true_eq]
          exact ⟨j, hji, hj⟩
      · exact hold hid

/-- The commit of one statement keeps what the locks promise the others. -/
theorem Inv.commit (h : Inv s) {now : Time} {stmt : Stmt} {scan : Scan Nat}
    (hi : s.calls i = .running now stmt scan) (hend : scan.todo = []) (eventIds : JobRow → Nat)
    (answer : Answer) :
    Inv { s.move i (.returned now stmt answer) with
      tables := commitTables s.tables now stmt scan eventIds } := by
  have hsound := h.sound i now stmt scan hi
  have hmoved : Inv (s.move i (.returned now stmt answer)) :=
    h.unlock i (fun _ _ _ heq => by cases heq) rfl
  refine ⟨?_, ?_, hmoved.apart⟩
  · exact (hsound.commit h.wf hend eventIds).1.wf (exec_wf h.wf now stmt.op)
  · intro j now' stmt' scan' hj
    have hold := hmoved.sound j now' stmt' scan' hj
    refine ⟨hold.range, hold.covers.commit_other h.wf.ids hsound.covers ?_ ?_⟩
    · have hji : j ≠ i := by
        rintro rfl
        simp only [Server.move, Function.update_self] at hj
        cases hj
      intro id hid hlocked
      simp only [Server.move, Function.update_of_ne hji] at hj
      refine h.apart j i hji id ?_ ?_
      · rw [hj]
        exact hid
      · rw [hi]
        exact hlocked
    · exact fun r _ => Stmt.hits_set now' now stmt' stmt r

/-- A leased row that another operation meets stays as it is. -/
theorem leased_kept {t : Tables} (hwf : t.Wf) (now : Time) {op : Op} (hop : isUpdate op = false)
    {r : JobRow} (hr : r ∈ t.jobs) (hleased : r.status = .leased) : r ∈ (exec t now op).jobs := by
  by_cases hret : op.IsRetention
  · obtain ⟨keep, hp⟩ := exec_retention hwf now hret
    rw [hp.jobs, List.mem_filter]
    refine ⟨hr, ?_⟩
    by_contra hgone
    have hterm := hp.terminal r hr (by simpa using hgone)
    rw [hleased] at hterm
    cases hterm
  · obtain ⟨d⟩ := exec_delta hwf now hret
    refine d.mem_jobs.mpr (Or.inl ⟨r, hr, ?_⟩)
    have hstep := d.rows r hr
    generalize d.f r = r', kindsOf d.evs r.id = kinds at hstep
    cases hstep with
    | keep => rfl
    | lease w rowLocked hp =>
      rw [hleased] at hp
      cases hp
    | drain | expire | succeed | finish | retry => cases hop

/-- A row that qualifies after another operation did so before. -/
theorem hits_before {now : Time} {stmt : Stmt} {scan : Scan Nat} (hwf : s.tables.Wf)
    (hi : s.calls i = .running now stmt scan) {age : Nat} {op : Op}
    (hord : Orderly s (.other age op)) {r : JobRow}
    (hr : r ∈ (exec s.tables (s.clock - age) op).jobs) (hhit : stmt.hits now r = true) :
    r ∈ s.tables.jobs := by
  have hleased := Stmt.leased_of_hits hhit
  by_cases hlease : ∃ w rowLocked, op = .leaseJob w rowLocked
  · obtain ⟨w, rowLocked, rfl⟩ := hlease
    rcases leaseJob_cases s.tables (s.clock - age) w rowLocked with hnone | ⟨x, -, -, hsome⟩
    · rwa [exec, hnone] at hr
    · rw [exec, hsome] at hr
      rcases mem_leased_jobs hr with ⟨y, -, -, rfl⟩ | ⟨hkept, -⟩
      · -- The freshly leased row belongs to another worker, or it is too young.
        have hi' := hord i
        rw [hi] at hi'
        obtain ⟨hworker, hyoung⟩ := hi'
        exfalso
        cases stmt with
        | outcome v st =>
          have hby : some w = some v := (leaseGuard_iff.mp hhit).2.2
          exact hworker hby.symm
        | drain v =>
          simp only [Stmt.hits, heldBy, lease, Bool.and_eq_true, beq_iff_eq] at hhit
          exact hworker hhit.2.symm
        | sweep cfg =>
          simp only [Stmt.hits, expired, lease, Bool.and_eq_true, decide_eq_true_eq] at hhit
          exact absurd hyoung (not_le.mpr hhit.2)
      · exact hkept
  · exact exec_leased hwf _ (fun w rl heq => hlease ⟨w, rl, heq⟩) hr hleased

theorem Inv.other (h : Inv s) {age : Nat} {op : Op} (hop : isUpdate op = false)
    (hord : Orderly s (.other age op)) :
    Inv { s with tables := exec s.tables (s.clock - age) op } where
  wf := exec_wf h.wf _ op
  sound := by
    intro j now stmt scan hj
    have hsound := h.sound j now stmt scan hj
    refine ⟨hsound.range, hsound.covers.keep ?_ ?_⟩
    · exact fun r hr _ hhit => leased_kept h.wf _ hop hr (Stmt.leased_of_hits hhit)
    · exact fun r hr hhit => hits_before h.wf hj hord hr hhit
  apart := h.apart

theorem step_inv (s : Server n) (a : Action n) (h : Inv s) (hord : Orderly s a) :
    Inv (step s a) := by
  cases a with
  | tick d => exact ⟨h.wf, h.sound, h.apart⟩
  | begin i age stmt =>
    simp only [step]
    split
    · split
      · rename_i hrange
        refine h.unlock i ?_ rfl
        intro now' stmt' scan' heq
        cases heq
        exact ⟨hrange, covers_start h.wf.ids⟩
      · exact h.unlock i (fun _ _ _ heq => by cases heq) rfl
    · exact h
  | visit i =>
    simp only [step]
    split
    · rename_i now stmt scan hi
      split
      · exact h
      · exact h.visit hi ‹_›
    · exact h
  | commit i eventIds lost =>
    simp only [step]
    split
    · rename_i now stmt scan hi
      split
      · exact h.commit hi (List.isEmpty_iff.mp ‹_›) eventIds _
      · exact h
    · exact h
  | fail i =>
    simp only [step]
    split
    · exact h.unlock i (fun _ _ _ heq => by cases heq) rfl
    · exact h
  | other age op =>
    simp only [step]
    split
    · exact h
    · exact h.other (Bool.eq_false_iff.mpr ‹_›) hord

end Steps

/-! ## Runs -/

section Runs

variable {n : Nat} {s : Server n} {i : Fin n}

theorem reach_inv {t : Tables} (hwf : t.Wf) {clock : Time} {as : List (Action n)}
    (hord : AllSteps step Orderly (initial t clock) as) : Inv (reach t clock as) :=
  foldl_all Inv step_inv
    ⟨hwf, fun _ _ _ _ heq => (by cases heq), fun _ _ _ _ hid => absurd hid List.not_mem_nil⟩ hord

/-- A step changes the tables by the operation that it commits. -/
theorem step_content (h : Inv s) (a : Action n) :
    SameContent (step s a).tables
      ((op? s a).toList.foldl (fun t o => exec t o.1 o.2) s.tables) := by
  cases a with
  | tick | begin | visit | fail =>
    simp only [step]
    repeat' split
    all_goals exact .refl _
  | commit i eventIds lost =>
    simp only [step, op?]
    split
    · rename_i now stmt scan hi
      split
      · rename_i hend
        exact ((h.sound i now stmt scan hi).commit h.wf (List.isEmpty_iff.mp hend) eventIds).1
      · exact .refl _
    · exact .refl _
  | other age op =>
    simp only [step, op?]
    split <;> exact .refl _

theorem committed_concat (t : Tables) (clock : Time) (as : List (Action n)) (a : Action n) :
    committed t clock (as ++ [a]) =
      committed t clock as ++ (op? (reach t clock as) a).toList := by
  rw [committed, trace_append, trace, trace, List.append_nil]
  rfl

theorem reach_content {t : Tables} (hwf : t.Wf) {clock : Time} {as : List (Action n)}
    (hord : AllSteps step Orderly (initial t clock) as) :
    SameContent (reach t clock as).tables
      ((committed t clock as).foldl (fun t o => exec t o.1 o.2) t) := by
  induction as using List.reverseRecOn with
  | nil => exact .refl t
  | append_singleton as a ih =>
    obtain ⟨hbefore, -⟩ := allSteps_append.mp hord
    have hlast : reach t clock (as ++ [a]) = step (reach t clock as) a :=
      List.foldl_concat _ _ _ _
    rw [hlast, committed_concat, List.foldl_append]
    exact (step_content (reach_inv hwf hbefore) a).trans ((ih hbefore).execAll _)

/-- A step that makes a call report a number of rows is its commit. -/
theorem returned_affected {now : Time} {stmt : Stmt} {k : Nat} {a : Action n}
    (h : (step s a).calls i = .returned now stmt (.affected k)) :
    s.calls i = .returned now stmt (.affected k) ∨ ∃ scan eventIds,
      s.calls i = .running now stmt scan ∧ scan.todo = [] ∧ a = .commit i eventIds false ∧
        k = scan.locked.length := by
  have hmove : ∀ (j : Fin n) (ph : Phase), ph ≠ .returned now stmt (.affected k) →
      (s.move j ph).calls i = .returned now stmt (.affected k) →
        s.calls i = .returned now stmt (.affected k) := by
    intro j ph hph hcall
    by_cases hij : i = j
    · subst hij
      simp only [Server.move, Function.update_self] at hcall
      exact absurd hcall hph
    · simpa only [Server.move, Function.update_of_ne hij] using hcall
  cases a with
  | tick d => exact Or.inl h
  | begin j age stmt' =>
    simp only [step] at h
    repeat' split at h
    · exact Or.inl (hmove _ _ (by simp) h)
    · exact Or.inl (hmove _ _ (by simp) h)
    · exact Or.inl h
  | visit j =>
    simp only [step] at h
    repeat' split at h
    · exact Or.inl h
    · exact Or.inl (hmove _ _ (by simp) h)
    · exact Or.inl h
  | commit j eventIds lost =>
    simp only [step] at h
    split at h
    · rename_i now' stmt' scan hj
      split at h
      · rename_i hend
        by_cases hij : i = j
        · subst hij
          simp only [Server.move, Function.update_self] at h
          cases lost with
          | true => simp at h
          | false =>
            simp only [Bool.false_eq_true, if_false, Phase.returned.injEq,
              Answer.affected.injEq] at h
            obtain ⟨rfl, rfl, rfl⟩ := h
            exact Or.inr ⟨scan, eventIds, hj, List.isEmpty_iff.mp hend, rfl, rfl⟩
        · simp only [Server.move, Function.update_of_ne hij] at h
          exact Or.inl h
      · exact Or.inl h
    · exact Or.inl h
  | fail j =>
    simp only [step] at h
    split at h
    · exact Or.inl (hmove _ _ (by simp) h)
    · exact Or.inl h
  | other age op =>
    simp only [step] at h
    split at h <;> exact Or.inl h

theorem affected_congr {stmt : Stmt} (hrange : stmt.inRange = true) {t t' : Tables}
    (h : SameContent t t') (now : Time) : stmt.affected t now = stmt.affected t' now := by
  rw [(stmt.exec_op hrange t now).2.2.2, (stmt.exec_op hrange t' now).2.2.2, h.jobs]

/-- The rows that a call reports are those of its atomic operation, which stands in the
sequence where the call has committed. -/
theorem affected_of_committed {t : Tables} (hwf : t.Wf) {clock : Time} {as : List (Action n)}
    (hord : AllSteps step Orderly (initial t clock) as) {now : Time} {stmt : Stmt} {k : Nat}
    (h : (reach t clock as).calls i = .returned now stmt (.affected k)) :
    ∃ pre eventIds after, pre ++ [.commit i eventIds false] <+: as ∧
      committed t clock as = committed t clock pre ++ (now, stmt.op) :: after ∧
      stmt.affected ((committed t clock pre).foldl (fun t o => exec t o.1 o.2) t) now = k := by
  induction as using List.reverseRecOn with
  | nil => cases h
  | append_singleton as a ih =>
    obtain ⟨hbefore, -⟩ := allSteps_append.mp hord
    have hlast : reach t clock (as ++ [a]) = step (reach t clock as) a :=
      List.foldl_concat _ _ _ _
    rw [hlast] at h
    rw [committed_concat]
    rcases returned_affected h with hold | ⟨scan, eventIds, hi, hend, rfl, rfl⟩
    · obtain ⟨pre, eventIds, after, hpre, heq, hk⟩ := ih hbefore hold
      exact ⟨pre, eventIds, _, hpre.trans (List.prefix_append as [a]),
        by rw [heq, List.append_assoc, List.cons_append], hk⟩
    · have hinv := reach_inv hwf hbefore
      have hsound := hinv.sound i now stmt scan hi
      refine ⟨as, eventIds, [], List.prefix_rfl, ?_, ?_⟩
      · simp only [op?, hi, hend, List.isEmpty_nil, if_true, Option.toList_some]
      · rw [(hsound.commit hinv.wf hend eventIds).2]
        exact (affected_congr hsound.range (reach_content hwf hbefore) now).symm

end Runs

/-- Concurrent updates behave as atomic ones.  In every orderly run of any number of outcome
writes, sweeps and drains among the other operations, the committed tables are, up to the
ids of the events, those of the committed operations one after the other.  A statement that
reports a number of rows has its atomic operation in that sequence, at the place of its
commit, and reports what the operation reports there.  If the answer of the commit gets lost,
the operation stands in the sequence and the statement reports an error.  No two statements
have the same row locked. -/
theorem updates_serialize {n : Nat} (t : Tables) (hwf : t.Wf) (clock : Time) (as : List (Action n))
    (hord : AllSteps step Orderly (initial t clock) as) :
    SameContent (reach t clock as).tables
        ((committed t clock as).foldl (fun t o => exec t o.1 o.2) t) ∧
    (∀ i now stmt k, (reach t clock as).calls i = .returned now stmt (.affected k) →
      ∃ pre eventIds after, pre ++ [.commit i eventIds false] <+: as ∧
        committed t clock as = committed t clock pre ++ (now, stmt.op) :: after ∧
        stmt.affected ((committed t clock pre).foldl (fun t o => exec t o.1 o.2) t) now = k) ∧
    ∀ i j, i ≠ j → ∀ id ∈ ((reach t clock as).calls i).locked,
      id ∉ ((reach t clock as).calls j).locked :=
  ⟨reach_content hwf hord, fun _ _ _ _ h => affected_of_committed hwf hord h,
    (reach_inv hwf hord).apart⟩

/-- A lease of "pod-w0" from the beginning of time. -/
def oldLease : List (Time × Op) :=
  [(0, .snifferEnqueue ⟨"images-1", "a.png", "b.png", "localfs", "localfs"⟩),
    (0, .leaseJob "pod-w0" [])]

/-- The sweep `i` has locked the row when the success write `j` of its worker takes its
snapshot.  The write waits, and finds the row swept. -/
def lateOutcome (i j : Fin 2) : List (Action 2) :=
  [.begin i 0 (.sweep ⟨0⟩), .visit i,
    .begin j 0 (.outcome "pod-w0" (.success firstLease (.fields []))), .visit j,
    .commit i (fun _ => 7) false, .visit j, .commit j (fun _ => 8) false]

/-- The late write reports that it has updated nothing, as its atomic operation does after
the sweep. -/
theorem updates_serialize_late :
    let run := lateOutcome ⟨0, by decide⟩ ⟨1, by decide⟩
    let write : Stmt := .outcome "pod-w0" (.success firstLease (.fields []))
    ((reach (execAll oldLease) 400000000 run).tables.jobs.map JobRow.status = [.pending] ∧
      (reach (execAll oldLease) 400000000 run).tables.events.map EventRow.status = [.expire]) ∧
    SameContent (reach (execAll oldLease) 400000000 run).tables
      ((committed (execAll oldLease) 400000000 run).foldl (fun t o => exec t o.1 o.2)
        (execAll oldLease)) ∧
    (reach (execAll oldLease) 400000000 run).calls ⟨1, by decide⟩ =
      .returned 400000000 write (.affected 0) ∧
    ∃ pre eventIds after, pre ++ [.commit ⟨1, by decide⟩ eventIds false] <+: run ∧
      committed (execAll oldLease) 400000000 run =
        committed (execAll oldLease) 400000000 pre ++ (400000000, write.op) :: after ∧
      write.affected ((committed (execAll oldLease) 400000000 pre).foldl
        (fun t o => exec t o.1 o.2) (execAll oldLease)) 400000000 = 0 := by
  intro run write
  have hwf : (execAll oldLease).Wf := (execAll_audited oldLease).wf
  have hord : AllSteps step Orderly (initial (execAll oldLease) 400000000) run := by
    simp only [run, lateOutcome, AllSteps, Orderly, and_self]
  have hwrite : (reach (execAll oldLease) 400000000 run).calls ⟨1, by decide⟩ =
      .returned 400000000 write (.affected 0) := rfl
  obtain ⟨hcontent, hcounts, -⟩ := updates_serialize _ hwf 400000000 run hord
  exact ⟨by decide, hcontent, hwrite, hcounts _ _ _ _ hwrite⟩

end ImgSync.Worker.Updates
