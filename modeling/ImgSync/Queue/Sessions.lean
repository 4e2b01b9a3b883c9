import ImgSync.Queue.Ops

/-!
# Concurrent enqueue calls

`ImgSync.Queue.Enqueue` has the enqueue calls as one step each.  Here every
SQL statement of `jobs.Enqueue` and of the sniffer's `Enqueuer` is a step of
its own, at READ COMMITTED.  Any number of calls run at once, next to the
statements of workers and sweepers, and every call can fail at any statement,
the commit included, which rolls its transaction back.

* A transaction keeps its rows and events to itself until it commits.
* The sequences are not transactional: an id that was drawn is gone.
* `INSERT ... ON CONFLICT DO NOTHING` forms a tuple with an id of the
  sequence.  It then waits while another transaction has a row with the key
  of the tuple.  Only then it looks for a conflict, with the committed rows
  and with the rows of its own transaction.
* The `SELECT` of the conflict path sees what is committed when it starts.

Behind the model stands `Knows`: what a call knows before each statement.
`ImgSync.Queue.Agreement` proves that it is so.
-/

namespace ImgSync.Queue.Sessions

open ImgSync.Worker

inductive Call where
  | enqueue (a : EnqueueArgs)
  | snifferEnqueue (j : JobSpec)
  | enqueueBatch (specs : List JobSpec)

/-- What a call returns. -/
inductive Answer where
  /-- `jobs.Enqueue`. -/
  | row (id : Nat) (inserted : Bool)
  /-- `Enqueuer.Enqueue`. -/
  | inserted (b : Bool)
  /-- `Enqueuer.EnqueueBatch`. -/
  | count (n : Nat)
  /-- An error. -/
  | failed

/-- How many rows a call says that it has inserted. -/
def Answer.inserts : Answer → Nat
  | .row _ b | .inserted b => if b then 1 else 0
  | .count n => n
  | .failed => 0

/-- An open transaction: its `NOW()`, and what only it can see. -/
structure Tx where
  now : Time
  jobs : List JobRow
  events : List EventRow

/-- The statement that comes next. -/
inductive Phase where
  | start
  /-- The `INSERT`, which has these tuples to go. -/
  | inserting (tx : Tx) (tuples : List NewJob)
  /-- The `INSERT`, which has drawn an id for the tuple `n`. -/
  | checking (tx : Tx) (id : Nat) (n : NewJob) (rest : List NewJob)
  /-- The insert of the `enqueue` event for the new row. -/
  | noting (tx : Tx) (id : Nat)
  /-- The `SELECT` of the conflict path. -/
  | lookup (tx : Tx)
  | committing (tx : Tx) (answer : Answer)
  /-- `rows` are the rows that the call has committed. -/
  | returned (answer : Answer) (rows : List JobRow)

structure State (n : Nat) where
  tables : Tables
  phases : Fin n → Phase

inductive Action (n : Nat) where
  | begin (i : Fin n) (now : Time)
  | draw (i : Fin n)
  | insert (i : Fin n)
  | note (i : Fin n)
  | lookup (i : Fin n)
  | commit (i : Fin n)
  | fail (i : Fin n)
  /-- A statement of a worker, of the sweeper or of a drain. -/
  | other (now : Time) (op : Op)

/-- The call whose step it is. -/
def Action.call : Action n → Option (Fin n)
  | .begin i _ | .draw i | .insert i | .note i | .lookup i | .commit i | .fail i => some i
  | .other _ _ => none

def NewJob.key (n : NewJob) : String × String := (n.traceId, n.dst)

/-- The key of the call's row. -/
def EnqueueArgs.key (a : EnqueueArgs) : String × String := (a.traceId, a.dst)

/-- The tuples of the call's `INSERT`. -/
def Call.tuples : Call → List NewJob
  | .enqueue a => [a.newJob]
  | .snifferEnqueue j => [j.newJob]
  | .enqueueBatch specs => specs.map JobSpec.newJob

/-- The checks in front of `BeginTx`.  The sniffer has none, and an empty
batch issues no query. -/
def Call.refused : Call → Option Answer
  | .enqueue a =>
    if a.traceId == "" || a.src == "" || a.dst == "" then some .failed
    else if a.srcProtocol == "" || a.dstProtocol == "" then some .failed
    else none
  | .snifferEnqueue _ => none
  | .enqueueBatch specs => if specs.isEmpty then some (.count 0) else none

/-- What follows the `INSERT`: `RETURNING id` has the new row or
`pgx.ErrNoRows`, and the sniffer reads `RowsAffected`. -/
def Call.inserted (tx : Tx) : Call → Phase
  | .enqueue _ =>
    match tx.jobs with
    | [] => .lookup tx
    | r :: _ => .noting tx r.id
  | .snifferEnqueue _ => .committing tx (.inserted (tx.jobs.length == 1))
  | .enqueueBatch _ => .committing tx (.count tx.jobs.length)

/-- What follows a tuple of the `INSERT`. -/
def Call.afterTuple (call : Call) (tx : Tx) (rest : List NewJob) : Phase :=
  if rest.isEmpty then call.inserted tx else .inserting tx rest

/-- The rows of an open transaction. -/
def Phase.rows : Phase → List JobRow
  | .inserting tx _ | .checking tx _ _ _ | .noting tx _ | .lookup tx | .committing tx _ => tx.jobs
  | .start | .returned _ _ => []

/-- The ids of an open transaction, with the one of a tuple that waits. -/
def Phase.ids : Phase → List Nat
  | .checking tx id _ _ => tx.jobs.map JobRow.id ++ [id]
  | ph => ph.rows.map JobRow.id

/-- The rows that the call has committed. -/
def Phase.reported : Phase → List JobRow
  | .returned _ rows => rows
  | _ => []

/-- Whether another transaction has a row with the key. -/
def State.inFlight {n : Nat} (s : State n) (i : Fin n) (key : String × String) : Bool :=
  decide (∃ j, j ≠ i ∧ key ∈ (s.phases j).rows.map JobRow.key)

section Model

variable {n : Nat} (calls : Fin n → Call)

def State.move (s : State n) (i : Fin n) (ph : Phase) : State n :=
  { s with phases := Function.update s.phases i ph }

def step (s : State n) : Action n → State n
  | .begin i now =>
    match s.phases i with
    | .start =>
      match (calls i).refused with
      | some answer => s.move i (.returned answer [])
      | none => s.move i (.inserting ⟨now, [], []⟩ (calls i).tuples)
    | _ => s
  | .draw i =>
    match s.phases i with
    | .inserting tx (m :: rest) =>
      { tables := { s.tables with jobSeq := s.tables.jobSeq + 1 }
        phases := Function.update s.phases i (.checking tx s.tables.jobSeq m rest) }
    | _ => s
  | .insert i =>
    match s.phases i with
    | .checking tx id m rest =>
      if !int4 m.maxAttempts then s.move i (.returned .failed [])
      else if s.inFlight i (NewJob.key m) then s
      else
        let conflict := (s.tables.jobs ++ tx.jobs).any fun r => r.key == NewJob.key m
        let tx := if conflict then tx else { tx with jobs := tx.jobs ++ [m.row tx.now id] }
        s.move i ((calls i).afterTuple tx rest)
    | _ => s
  | .note i =>
    match s.phases i, calls i with
    | .noting tx id, .enqueue a =>
      let event : EventRow :=
        ⟨s.tables.eventSeq, a.traceId, id, tx.now, .enqueue, .payload a.newJob.payload⟩
      { tables := { s.tables with eventSeq := s.tables.eventSeq + 1 }
        phases := Function.update s.phases i
          (.committing { tx with events := tx.events ++ [event] } (.row id true)) }
    | _, _ => s
  | .lookup i =>
    match s.phases i, calls i with
    | .lookup tx, .enqueue a =>
      match (s.tables.jobs ++ tx.jobs).find? fun r => r.key == EnqueueArgs.key a with
      | some r => s.move i (.committing tx (.row r.id false))
      | none => s.move i (.returned .failed [])
    | _, _ => s
  | .commit i =>
    match s.phases i with
    | .committing tx answer =>
      { tables := { s.tables with
          jobs := s.tables.jobs ++ tx.jobs, events := s.tables.events ++ tx.events }
        phases := Function.update s.phases i (.returned answer tx.jobs) }
    | _ => s
  | .fail i =>
    match s.phases i with
    | .returned _ _ => s
    | _ => s.move i (.returned .failed [])
  | .other now op => if op.updates then { s with tables := exec s.tables now op } else s

def initial (t : Tables) : State n where
  tables := t
  phases := fun _ => .start

/-- The state that a run reaches. -/
def reach (t : Tables) (as : List (Action n)) : State n := as.foldl (step calls) (initial t)

end Model

/-! ## What a call knows -/

/-- The committed table has a row with this key and this id. -/
def Stored (t : Tables) (key : String × String) (id : Nat) : Prop :=
  ∃ r ∈ t.jobs, r.key = key ∧ r.id = id

/-- The rows that were there still are, under their keys and ids. -/
def Grows (t t' : Tables) : Prop := ∀ key id, Stored t key id → Stored t' key id

theorem Grows.of_append {t t' : Tables} {new : List JobRow} (h : t'.jobs = t.jobs ++ new) :
    Grows t t' := by
  rintro key id ⟨r, hr, hkey⟩
  exact ⟨r, h ▸ List.mem_append_left _ hr, hkey⟩

theorem Grows.of_same {t t' : Tables} (h : t'.jobs = t.jobs) : Grows t t' :=
  Grows.of_append (h.trans (List.append_nil _).symm)

/-- What the answer of a call says about the rows that it inserts. -/
structure Reports (call : Call) (t : Tables) (answer : Answer) (rows : List JobRow) : Prop where
  count : rows.length = answer.inserts
  keys : ∀ r ∈ rows, r.key ∈ call.tuples.map NewJob.key
  id : ∀ a id b, call = .enqueue a → answer = .row id b →
    (∃ r ∈ rows, r.key = EnqueueArgs.key a ∧ r.id = id) ∨ Stored t (EnqueueArgs.key a) id

theorem Reports.grow {call : Call} {t t' : Tables} {answer : Answer} {rows : List JobRow}
    (h : Reports call t answer rows) (hg : Grows t t') : Reports call t' answer rows where
  count := h.count
  keys := h.keys
  id a id b hcall hans := by
    rcases h.id a id b hcall hans with hrow | hstored
    · exact Or.inl hrow
    · exact Or.inr (hg _ _ hstored)

/-- An answer that speaks of no row. -/
theorem Reports.nothing {call : Call} {t : Tables} {answer : Answer} (hcount : answer.inserts = 0)
    (hid : ∀ id b, answer ≠ .row id b) : Reports call t answer [] where
  count := hcount.symm
  keys _ hr := by cases hr
  id _ id b _ hans := absurd hans (hid id b)

/-- A transaction in the middle of its `INSERT`, with `todo` tuples to go. -/
structure Underway (call : Call) (tx : Tx) (todo : List NewJob) : Prop where
  events : tx.events = []
  keys : ∀ r ∈ tx.jobs, r.key ∈ call.tuples.map NewJob.key
  tuples : ∀ m ∈ todo, m ∈ call.tuples
  count : tx.jobs.length + todo.length ≤ call.tuples.length

/-- What a call knows before each statement. -/
def Knows (call : Call) (t : Tables) : Phase → Prop
  | .start => True
  | .inserting tx tuples => Underway call tx tuples
  | .checking tx _ m rest => Underway call tx (m :: rest)
  | .noting tx id => tx.events = [] ∧ ∃ a r, call = .enqueue a ∧ tx.jobs = [r] ∧ r.id = id ∧
      r.key = EnqueueArgs.key a
  | .lookup tx => tx.events = [] ∧ tx.jobs = [] ∧ ∃ a id, call = .enqueue a ∧
      Stored t (EnqueueArgs.key a) id
  | .committing tx answer => Reports call t answer tx.jobs ∧
      ∀ e ∈ tx.events, ∃ r ∈ tx.jobs, r.id = e.jobId
  | .returned answer rows => Reports call t answer rows ∧ ∀ r ∈ rows, Stored t r.key r.id

theorem Knows.grow {call : Call} {t t' : Tables} {ph : Phase} (h : Knows call t ph)
    (hg : Grows t t') : Knows call t' ph := by
  cases ph with
  | start => trivial
  | inserting | checking | noting => exact h
  | lookup tx =>
    obtain ⟨hev, hjobs, a, id, hcall, hstored⟩ := h
    exact ⟨hev, hjobs, a, id, hcall, hg _ _ hstored⟩
  | committing tx answer => exact ⟨h.1.grow hg, h.2⟩
  | returned answer rows => exact ⟨h.1.grow hg, fun r hr => hg _ _ (h.2 r hr)⟩

/-! ## The end of an `INSERT` -/

section AfterTuple

variable {call : Call} {tx : Tx} {m : NewJob} {rest : List NewJob}

theorem Underway.skip (h : Underway call tx (m :: rest)) : Underway call tx rest where
  events := h.events
  keys := h.keys
  tuples m' hm' := h.tuples m' (List.mem_cons_of_mem _ hm')
  count := by
    have := h.count
    rw [List.length_cons] at this
    omega

theorem Underway.add (h : Underway call tx (m :: rest)) (id : Nat) :
    Underway call { tx with jobs := tx.jobs ++ [m.row tx.now id] } rest where
  events := h.events
  keys r hr := by
    rcases List.mem_append.mp hr with hr | hr
    · exact h.keys r hr
    · rw [List.mem_singleton.mp hr]
      exact List.mem_map_of_mem (h.tuples m List.mem_cons_self)
  tuples m' hm' := h.tuples m' (List.mem_cons_of_mem _ hm')
  count := by
    have := h.count
    rw [List.length_cons] at this
    show (tx.jobs ++ [m.row tx.now id]).length + _ ≤ _
    rw [List.length_append, List.length_singleton]
    omega

/-- A call that stops before its first statement inserts nothing. -/
theorem Call.refused_reports {answer : Answer} (h : call.refused = some answer) (t : Tables) :
    Reports call t answer [] := by
  have hanswer : answer = .failed ∨ answer = .count 0 := by
    cases call with
    | enqueue a =>
      simp only [Call.refused] at h
      split at h
      · exact Or.inl (Option.some.inj h).symm
      split at h
      · exact Or.inl (Option.some.inj h).symm
      · cases h
    | snifferEnqueue j => cases h
    | enqueueBatch specs =>
      simp only [Call.refused] at h
      split at h
      · exact Or.inr (Option.some.inj h).symm
      · cases h
  rcases hanswer with rfl | rfl
  · exact Reports.nothing rfl (by simp)
  · exact Reports.nothing rfl (by simp)

theorem rows_afterTuple (call : Call) (tx : Tx) (rest : List NewJob) :
    (call.afterTuple tx rest).rows = tx.jobs ∧
      (call.afterTuple tx rest).ids = tx.jobs.map JobRow.id ∧
      (call.afterTuple tx rest).reported = [] := by
  unfold Call.afterTuple
  split
  · cases call with
    | enqueue a =>
      simp only [Call.inserted]
      split <;> exact ⟨rfl, rfl, rfl⟩
    | snifferEnqueue j => exact ⟨rfl, rfl, rfl⟩
    | enqueueBatch specs => exact ⟨rfl, rfl, rfl⟩
  · exact ⟨rfl, rfl, rfl⟩

/-- A call that has nothing to insert knows that the row is there. -/
theorem knows_afterTuple {t : Tables} (h : Underway call tx rest)
    (hrow : tx.jobs = [] → ∀ a, call = .enqueue a → ∃ id, Stored t (EnqueueArgs.key a) id) :
    Knows call t (call.afterTuple tx rest) := by
  unfold Call.afterTuple
  split
  · have hcount := h.count
    cases call with
    | enqueue a =>
      simp only [Call.inserted]
      split
      · rename_i hnil
        obtain ⟨id, hid⟩ := hrow hnil a rfl
        exact ⟨h.events, hnil, a, id, rfl, hid⟩
      · rename_i r l hcons
        have hl : l = [] := by
          rw [hcons] at hcount
          simp only [List.length_cons, Call.tuples, List.length_nil] at hcount
          exact List.length_eq_zero_iff.mp (by omega)
        subst hl
        have hkey := h.keys r (hcons ▸ List.mem_singleton_self r)
        exact ⟨h.events, a, r, rfl, hcons, rfl, List.mem_singleton.mp hkey⟩
    | snifferEnqueue j =>
      refine ⟨⟨?_, h.keys, fun _ _ _ hcall => by cases hcall⟩, by rw [h.events]; simp⟩
      have hle : tx.jobs.length ≤ 1 := by
        simp only [Call.tuples, List.length_singleton] at hcount
        omega
      simp only [Answer.inserts, beq_iff_eq]
      split <;> omega
    | enqueueBatch specs =>
      exact ⟨⟨rfl, h.keys, fun _ _ _ hcall => by cases hcall⟩, by rw [h.events]; simp⟩
  · exact h

end AfterTuple

end ImgSync.Queue.Sessions
