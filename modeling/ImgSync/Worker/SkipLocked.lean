import ImgSync.Worker.Order

/-!
# Concurrent leases, row lock by row lock

`leaseJob` is the statement of `LeaseJob` as one step, with the rows that other
transactions hold as an argument.  Here the statement runs the way the database
runs it at READ COMMITTED, any number of calls at once:

* It takes a snapshot and scans the due rows of the snapshot in the order of
  `next_run_at` and `id`.
* `FOR UPDATE SKIP LOCKED` tries to lock the row that the scan has come to.  A
  row that another transaction has locked is passed over.  The `WHERE` clause is
  then checked again on the row as it is now committed, and the row is passed
  over if it is gone or does not qualify any more.  `LIMIT 1` ends the scan with
  the first row that is locked.
* The `UPDATE` writes that row, and the commit makes it visible.  Until then the
  row is locked, and a statement of another client that would change it waits.

`skip_locked_refines` says that this is the atomic `leaseJob`: the committed
tables are those of a run of `Queue.exec`, lease by lease, and the calls return
what `leaseJob` returns.  A call that returns no job has found every row that was
due locked, gone or not due any more.  What is proved of runs of `exec` therefore
holds of the statements as the database interleaves them.

The answer of a commit may get lost.  The lease has taken effect, and the call
returns an error.
-/

namespace ImgSync.Worker.SkipLocked

open ImgSync.Lib ImgSync.Queue

/-! ## The calls -/

/-- What `LeaseJob` returns. -/
inductive Answer where
  | job (j : Job)
  /-- `pgx.ErrNoRows`. -/
  | empty
  /-- `"lease: %w"`. -/
  | failed (text : GoString)
  deriving DecidableEq

/-- Where a call of `LeaseJob` is.  `now` is the time of its transaction,
`snapshot` are the due rows that its scan goes through, and the first `passed`
of them are behind it. -/
inductive Phase where
  | idle
  | scanning (now : Time) (snapshot : List JobRow) (passed : Nat)
  | locked (now : Time) (snapshot : List JobRow) (passed : Nat) (row : JobRow)
  | returned (answer : Answer)
  deriving DecidableEq

/-- The row that the transaction of the call has locked. -/
def Phase.lockedRow : Phase → Option JobRow
  | .locked _ _ _ row => some row
  | _ => none

/-- The rows of the scan: `status='pending' AND next_run_at <= NOW()` in the
order of the statement. -/
def dueRows (t : Tables) (now : Time) : List JobRow :=
  (t.jobs.filter (leasable now [])).insertionSort fun a b => scanKey a ≤ scanKey b

/-- `fmt.Errorf("lease: %w", err)`. -/
def leaseErr (text : GoString) : Answer := .failed (goString "lease: " ++ text)

section Model

variable {n : Nat}

/-- The committed tables and the calls. -/
structure Server (n : Nat) where
  tables : Tables
  clock : Time
  calls : Fin n → Phase

inductive Action (n : Nat) where
  | tick (d : Nat)
  | begin (i : Fin n)
  /-- The scan comes to its next row.  `busy` are the rows that transactions of
  other clients have locked. -/
  | probe (i : Fin n) (busy : List Nat)
  /-- The `UPDATE` and the commit.  A `lost` answer is an error for the caller. -/
  | commit (i : Fin n) (lost : Option GoString)
  | fail (i : Fin n) (text : GoString)
  /-- A statement of another client. -/
  | other (op : Op)

def Server.move (s : Server n) (i : Fin n) (ph : Phase) : Server n :=
  { s with calls := Function.update s.calls i ph }

/-- Whether a call has locked the row. -/
def Server.holds (s : Server n) (id : Nat) : Bool :=
  decide (∃ j, (s.calls j).lockedRow.map JobRow.id = some id)

/-- The row under the id, if the statement can lock it and it still qualifies. -/
def Server.lockable (s : Server n) (now : Time) (busy : List Nat) (id : Nat) : Option JobRow :=
  if s.holds id || busy.contains id then none
  else s.tables.jobs.find? fun r => r.id == id && leasable now [] r

/-- A statement waits while it would change a row that a call has locked. -/
def Server.admits (s : Server n) (op : Op) : Bool :=
  decide (∀ j, (s.calls j).lockedRow.all fun r => (exec s.tables s.clock op).jobs.contains r)

/-- Whether the operation is a lease. -/
def isLease : Op → Bool
  | .leaseJob _ _ => true
  | _ => false

variable (names : Fin n → String)

/-- One step.  The call `i` is made by the worker `names i`. -/
def step (s : Server n) : Action n → Server n
  | .tick d => { s with clock := s.clock + d }
  | .begin i =>
    match s.calls i with
    | .idle => s.move i (.scanning s.clock (dueRows s.tables s.clock) 0)
    | _ => s
  | .probe i busy =>
    match s.calls i with
    | .scanning now snapshot passed =>
      match snapshot[passed]? with
      | none => s.move i (.returned .empty)
      | some r =>
        match s.lockable now busy r.id with
        | none => s.move i (.scanning now snapshot (passed + 1))
        | some row => s.move i (.locked now snapshot passed row)
    | _ => s
  | .commit i lost =>
    match s.calls i with
    | .locked now _ _ row =>
      let answer := match lost with
        | none => .job (lease now (names i) row)
        | some text => leaseErr text
      { s.move i (.returned answer) with
        tables := { s.tables with
          jobs := updateWhere (fun x => x.id == row.id) (lease now (names i)) s.tables.jobs } }
    | _ => s
  | .fail i text =>
    match s.calls i with
    | .returned _ => s
    | _ => s.move i (.returned (leaseErr text))
  | .other op =>
    if !isLease op && s.admits op then { s with tables := exec s.tables s.clock op } else s

def initial (t : Tables) (clock : Time) : Server n where
  tables := t
  clock := clock
  calls := fun _ => .idle

def reach (t : Tables) (clock : Time) (as : List (Action n)) : Server n :=
  as.foldl (step names) (initial t clock)

/-! ## The atomic leases of a run -/

/-- The rows that a lease concedes to others: the scan has passed them, or they
are not as the snapshot has them.  If the leased row itself has changed since
the snapshot, it comes out of order. -/
def conceded (t : Tables) (snapshot : List JobRow) (passed : Nat) (row : JobRow) : List Nat :=
  (t.jobs.filter fun x => x.id != row.id &&
    ((snapshot.take passed).any (fun y => y.id == x.id) || !snapshot.contains x ||
      !snapshot.contains row)).map JobRow.id

/-- The operation that a step commits. -/
def op? (s : Server n) : Action n → Option (Time × Op)
  | .commit i _ =>
    match s.calls i with
    | .locked now snapshot passed row =>
      some (now, .leaseJob (names i) (conceded s.tables snapshot passed row))
    | _ => none
  | .other op => if !isLease op && s.admits op then some (s.clock, op) else none
  | _ => none

/-- The operations that a run commits, in the order of their commits. -/
def committed (t : Tables) (clock : Time) (as : List (Action n)) : List (Time × Op) :=
  trace (step names) (op? names) (initial t clock) as

end Model

/-! ## What the row locks guarantee -/

/-- The snapshot of an open scan. -/
def Phase.snapshot : Phase → List JobRow
  | .scanning _ snapshot _ | .locked _ snapshot _ _ => snapshot
  | .idle | .returned _ => []

/-- A snapshot in the order of the scan, each row once. -/
structure InOrder (snapshot : List JobRow) : Prop where
  keys : snapshot.Pairwise fun a b => scanKey a < scanKey b
  ids : (snapshot.map JobRow.id).Nodup

/-- The row that a call has locked is committed as the call has seen it. -/
structure Holds (t : Tables) (now : Time) (snapshot : List JobRow) (passed : Nat) (row : JobRow) :
    Prop where
  mem : row ∈ t.jobs
  leasable : leasable now [] row = true
  reached : snapshot[passed]?.map JobRow.id = some row.id

structure Inv {n : Nat} (s : Server n) : Prop where
  wf : s.tables.Wf
  holds : ∀ i now snapshot passed row, s.calls i = .locked now snapshot passed row →
    Holds s.tables now snapshot passed row
  alone : ∀ i j r r', (s.calls i).lockedRow = some r → (s.calls j).lockedRow = some r' →
    r.id = r'.id → i = j
  order : ∀ i, InOrder (s.calls i).snapshot

theorem lockedRow_eq {ph : Phase} {r : JobRow} :
    ph.lockedRow = some r ↔ ∃ now snapshot passed, ph = .locked now snapshot passed r := by
  constructor
  · intro h
    cases ph with
    | locked now snapshot passed row =>
      obtain rfl := Option.some.inj h
      exact ⟨now, snapshot, passed, rfl⟩
    | idle | scanning | returned => cases h
  · rintro ⟨now, snapshot, passed, rfl⟩
    rfl

theorem inOrder_nil : InOrder [] := ⟨List.Pairwise.nil, List.nodup_nil⟩

theorem inOrder_dueRows {t : Tables} (hwf : t.Wf) (now : Time) : InOrder (dueRows t now) := by
  have hids : ((dueRows t now).map JobRow.id).Nodup :=
    ((List.perm_insertionSort _ _).map _).nodup_iff.mpr
      (hwf.ids.sublist (List.filter_sublist.map _))
  have : Std.Total fun a b : JobRow => scanKey a ≤ scanKey b := ⟨fun _ _ => le_total _ _⟩
  have : IsTrans JobRow fun a b => scanKey a ≤ scanKey b := ⟨fun _ _ _ => le_trans⟩
  have hsorted : (dueRows t now).Pairwise fun a b => scanKey a ≤ scanKey b :=
    List.pairwise_insertionSort _ _
  -- The keys are distinct, for they end in the id.
  refine ⟨(hsorted.and (List.pairwise_map.mp hids)).imp fun h => lt_of_le_of_ne h.1 fun heq => ?_,
    hids⟩
  exact h.2 (congrArg (fun k => (ofLex k).2) heq)

section Steps

variable {n : Nat} {names : Fin n → String} {s : Server n} {i : Fin n}

theorem Inv.orderOf (h : Inv s) {ph : Phase} (hi : s.calls i = ph) : InOrder ph.snapshot :=
  hi ▸ h.order i

/-- A call moves to a phase without a row lock. -/
theorem Inv.unlock (h : Inv s) (i : Fin n) {ph : Phase} (hlock : ph.lockedRow = none)
    (horder : InOrder ph.snapshot) : Inv (s.move i ph) := by
  have hcalls : ∀ j r, ((s.move i ph).calls j).lockedRow = some r →
      (s.calls j).lockedRow = some r ∧ j ≠ i := by
    intro j r hj
    by_cases hji : j = i
    · subst hji
      simp only [Server.move, Function.update_self, hlock] at hj
      exact absurd hj (by simp)
    · simp only [Server.move, Function.update_of_ne hji] at hj
      exact ⟨hj, hji⟩
  refine ⟨h.wf, fun j now snapshot passed row hj => ?_, fun j k r r' hj hk => ?_, fun j => ?_⟩
  · obtain ⟨-, hji⟩ := hcalls j row (by rw [hj]; rfl)
    simp only [Server.move, Function.update_of_ne hji] at hj
    exact h.holds j now snapshot passed row hj
  · exact h.alone j k r r' (hcalls j r hj).1 (hcalls k r' hk).1
  · by_cases hji : j = i
    · subst hji
      simpa only [Server.move, Function.update_self] using horder
    · simpa only [Server.move, Function.update_of_ne hji] using h.order j

/-- The row that a scan locks. -/
theorem lockable_eq_some {now : Time} {busy : List Nat} {id : Nat} {row : JobRow}
    (h : s.lockable now busy id = some row) :
    s.holds id = false ∧ row ∈ s.tables.jobs ∧ row.id = id ∧ leasable now [] row = true := by
  rw [Server.lockable] at h
  split at h
  · exact absurd h (by simp)
  · rename_i hfree
    rw [Bool.or_eq_true, not_or] at hfree
    have hfound := List.find?_some h
    rw [Bool.and_eq_true, beq_iff_eq] at hfound
    exact ⟨Bool.not_eq_true _ ▸ hfree.1, List.mem_of_find?_eq_some h, hfound.1, hfound.2⟩

/-- A scan locks the row that it has come to. -/
theorem Inv.lock (h : Inv s) {now : Time} {snapshot : List JobRow} {passed : Nat}
    {busy : List Nat} {y row : JobRow} (hi : s.calls i = .scanning now snapshot passed)
    (hy : snapshot[passed]? = some y) (hrow : s.lockable now busy y.id = some row) :
    Inv (s.move i (.locked now snapshot passed row)) := by
  obtain ⟨hfree, hmem, hid, hleasable⟩ := lockable_eq_some hrow
  -- No other call has locked a row with this id.
  have hothers : ∀ j r, (s.calls j).lockedRow = some r → r.id ≠ row.id := by
    intro j r hj heq
    rw [Server.holds, decide_eq_false_iff_not] at hfree
    exact hfree ⟨j, by rw [hj, Option.map_some, heq, hid]⟩
  refine ⟨h.wf, fun j now' snapshot' passed' r hj => ?_, fun j k r r' hj hk heq => ?_, fun j => ?_⟩
  · by_cases hji : j = i
    · subst hji
      simp only [Server.move, Function.update_self, Phase.locked.injEq] at hj
      obtain ⟨rfl, rfl, rfl, rfl⟩ := hj
      exact ⟨hmem, hleasable, by rw [hy, Option.map_some, hid]⟩
    · simp only [Server.move, Function.update_of_ne hji] at hj
      exact h.holds j now' snapshot' passed' r hj
  · by_cases hji : j = i <;> by_cases hki : k = i
    · rw [hji, hki]
    · subst hji
      simp only [Server.move, Function.update_self, Phase.lockedRow, Option.some.injEq] at hj
      simp only [Server.move, Function.update_of_ne hki] at hk
      exact absurd (hj ▸ heq.symm) (hothers k r' hk)
    · subst hki
      simp only [Server.move, Function.update_self, Phase.lockedRow, Option.some.injEq] at hk
      simp only [Server.move, Function.update_of_ne hji] at hj
      exact absurd (hk ▸ heq) (hothers j r hj)
    · simp only [Server.move, Function.update_of_ne hji, Function.update_of_ne hki] at hj hk
      exact h.alone j k r r' hj hk heq
  · by_cases hji : j = i
    · subst hji
      have horder : InOrder snapshot := h.orderOf hi
      simp only [Server.move, Function.update_self]
      exact horder
    · simpa only [Server.move, Function.update_of_ne hji] using h.order j

/-- The tables change, and the locked rows stay. -/
theorem Inv.tables (h : Inv s) {t : Tables} (hwf : t.Wf)
    (hkept : ∀ j r, (s.calls j).lockedRow = some r → r ∈ t.jobs) :
    Inv { s with tables := t } where
  wf := hwf
  holds := fun j now snapshot passed row hj =>
    { h.holds j now snapshot passed row hj with
      mem := hkept j row (by rw [hj]; rfl) }
  alone := h.alone
  order := h.order

/-! ## A commit is an atomic lease -/

/-- The locked row comes first among the rows of the snapshot that the scan has
not passed. -/
theorem Holds.first {t : Tables} {now : Time} {snapshot : List JobRow} {passed : Nat}
    {row x : JobRow} (h : Holds t now snapshot passed row) (horder : InOrder snapshot)
    (hrow : row ∈ snapshot) (hx : x ∈ snapshot)
    (hpassed : ∀ y ∈ snapshot.take passed, y.id ≠ x.id) : scanKey row ≤ scanKey x := by
  obtain ⟨y, hy, hid⟩ := Option.map_eq_some_iff.mp h.reached
  obtain rfl : y = row := eq_of_key_eq horder.ids (List.mem_of_getElem? hy) hrow hid
  obtain ⟨hlt, heq⟩ := List.getElem?_eq_some_iff.mp hy
  have hsplit : snapshot = snapshot.take passed ++ y :: snapshot.drop (passed + 1) := by
    rw [← heq, List.getElem_cons_drop, List.take_append_drop]
  rw [hsplit, List.mem_append, List.mem_cons] at hx
  rcases hx with hx | rfl | hx
  · exact absurd rfl (hpassed x hx)
  · exact le_rfl
  · have hkeys := horder.keys
    rw [hsplit, List.pairwise_append, List.pairwise_cons] at hkeys
    exact (hkeys.2.1.1 x hx).le

theorem mem_conceded {t : Tables} {snapshot : List JobRow} {passed : Nat} {row : JobRow}
    {id : Nat} : id ∈ conceded t snapshot passed row ↔ ∃ x ∈ t.jobs, x.id = id ∧ x.id ≠ row.id ∧
      ((∃ y ∈ snapshot.take passed, y.id = x.id) ∨ x ∉ snapshot ∨ row ∉ snapshot) := by
  simp only [conceded, List.mem_map, List.mem_filter, Bool.and_eq_true, bne_iff_ne, ne_eq,
    Bool.or_eq_true, List.any_eq_true, beq_iff_eq, Bool.not_eq_true', List.contains_eq_mem,
    decide_eq_false_iff_not, or_assoc]
  constructor
  · rintro ⟨x, ⟨hx, hne, hwhy⟩, rfl⟩
    exact ⟨x, hx, rfl, hne, hwhy⟩
  · rintro ⟨x, hx, rfl, hne, hwhy⟩
    exact ⟨x, ⟨hx, hne, hwhy⟩, rfl⟩

theorem leasable_iff {now : Time} {rowLocked : List Nat} {r : JobRow} :
    leasable now rowLocked r = true ↔ leasable now [] r = true ∧ r.id ∉ rowLocked := by
  simp [leasable]

/-- The statement that holds its row is the atomic lease that finds the conceded
rows locked. -/
theorem Holds.leaseJob_eq {t : Tables} (hwf : t.Wf) {now : Time} {snapshot : List JobRow}
    {passed : Nat} {row : JobRow} (h : Holds t now snapshot passed row)
    (horder : InOrder snapshot) (w : String) :
    leaseJob t now w (conceded t snapshot passed row) =
      ({ t with jobs := updateWhere (fun x => x.id == row.id) (lease now w) t.jobs },
        some (lease now w row)) := by
  have hnext : nextDue t now (conceded t snapshot passed row) = some row := by
    refine (nextDue_iff hwf).mpr ⟨h.mem, leasable_iff.mpr ⟨h.leasable, ?_⟩, fun x hx hlx => ?_⟩
    · intro hrow
      obtain ⟨x, -, hid, hne, -⟩ := mem_conceded.mp hrow
      exact hne hid
    · by_cases hid : x.id = row.id
      · rw [eq_of_key_eq hwf.ids hx h.mem hid]
      · have hnot : ¬((∃ y ∈ snapshot.take passed, y.id = x.id) ∨ x ∉ snapshot ∨ row ∉ snapshot) :=
          fun hwhy => (leasable_iff.mp hlx).2 (mem_conceded.mpr ⟨x, hx, rfl, hid, hwhy⟩)
        rw [not_or, not_or, not_not, not_not] at hnot
        obtain ⟨hpassed, hxs, hrows⟩ := hnot
        exact h.first horder hrows hxs fun y hy heq => hpassed ⟨y, hy, heq⟩
  rw [leaseJob, hnext]

/-- A commit leaves the rows that other calls have locked alone. -/
theorem Inv.commit (h : Inv s) {now : Time} {snapshot : List JobRow} {passed : Nat} {row : JobRow}
    (hi : s.calls i = .locked now snapshot passed row) (w : String) (answer : Answer) :
    Inv { s.move i (.returned answer) with
      tables := { s.tables with
        jobs := updateWhere (fun x => x.id == row.id) (lease now w) s.tables.jobs } } := by
  have hrow := h.holds i now snapshot passed row hi
  have horder : InOrder snapshot := h.orderOf hi
  have heq := congrArg Prod.fst (hrow.leaseJob_eq h.wf horder w)
  have hwf : (exec s.tables now (.leaseJob w (conceded s.tables snapshot passed row))).Wf :=
    exec_wf h.wf now _
  rw [exec, heq] at hwf
  have hmoved : Inv (s.move i (.returned answer)) := h.unlock i rfl inOrder_nil
  refine hmoved.tables hwf fun j r hj => ?_
  have hji : j ≠ i := by
    rintro rfl
    simp only [Server.move, Function.update_self, Phase.lockedRow, reduceCtorEq] at hj
  simp only [Server.move, Function.update_of_ne hji] at hj
  obtain ⟨now', snapshot', passed', hj'⟩ := lockedRow_eq.mp hj
  have hne : r.id ≠ row.id := fun hid => hji (h.alone j i r row hj (by rw [hi]; rfl) hid)
  refine List.mem_map.mpr ⟨r, (h.holds j now' snapshot' passed' r hj').mem, ?_⟩
  rw [if_neg (by simpa using hne)]

/-- One step keeps the invariant. -/
theorem Inv.step (h : Inv s) (a : Action n) : Inv (step names s a) := by
  cases a with
  | tick d => exact ⟨h.wf, h.holds, h.alone, h.order⟩
  | begin i =>
    simp only [SkipLocked.step]
    split
    · exact h.unlock i rfl (inOrder_dueRows h.wf s.clock)
    · exact h
  | probe i busy =>
    simp only [SkipLocked.step]
    split
    · rename_i now snapshot passed hi
      have horder : InOrder snapshot := h.orderOf hi
      split
      · exact h.unlock i rfl inOrder_nil
      · rename_i y hy
        split
        · exact h.unlock i rfl horder
        · rename_i row hrow
          exact h.lock hi hy hrow
    · exact h
  | commit i lost =>
    simp only [SkipLocked.step]
    split
    · rename_i hi
      exact h.commit hi (names i) _
    · exact h
  | fail i text =>
    simp only [SkipLocked.step]
    split
    · exact h
    · exact h.unlock i rfl inOrder_nil
  | other op =>
    simp only [SkipLocked.step]
    split
    · rename_i hadmits
      rw [Bool.and_eq_true, Server.admits, decide_eq_true_eq] at hadmits
      refine h.tables (exec_wf h.wf s.clock op) fun j r hj => ?_
      have hkept := hadmits.2 j
      rw [hj, Option.all_some, List.contains_iff_mem] at hkept
      exact hkept
    · exact h

theorem inv_initial {t : Tables} (hwf : t.Wf) (clock : Time) :
    Inv (initial t clock : Server n) where
  wf := hwf
  holds := fun _ _ _ _ _ hi => by cases hi
  alone := fun _ _ _ _ hi => by cases hi
  order := fun _ => inOrder_nil

theorem reach_inv {t : Tables} (hwf : t.Wf) (clock : Time) (as : List (Action n)) :
    Inv (reach names t clock as) :=
  foldl_invariant Inv (fun _ a h => h.step a) (inv_initial hwf clock) as

/-- A step changes the tables by the operation that it commits. -/
theorem Inv.step_tables (h : Inv s) (a : Action n) :
    (SkipLocked.step names s a).tables =
      (op? names s a).toList.foldl (fun t o => exec t o.1 o.2) s.tables := by
  cases a with
  | tick d => rfl
  | begin i =>
    simp only [SkipLocked.step, op?]
    split <;> rfl
  | probe i busy =>
    simp only [SkipLocked.step, op?]
    split
    · split
      · rfl
      · split <;> rfl
    · rfl
  | commit i lost =>
    simp only [SkipLocked.step, op?]
    split
    · rename_i now snapshot passed row hi
      have horder : InOrder snapshot := h.orderOf hi
      have heq := (h.holds i now snapshot passed row hi).leaseJob_eq h.wf horder (names i)
      rw [Option.toList_some, List.foldl_cons, List.foldl_nil, exec, heq]
    · rfl
  | fail i text =>
    simp only [SkipLocked.step, op?]
    split <;> rfl
  | other op =>
    simp only [SkipLocked.step, op?]
    split <;> rfl

/-! ## Runs -/

/-- The committed tables are those of the run of the committed operations. -/
theorem reach_tables {t : Tables} (hwf : t.Wf) (clock : Time) (as : List (Action n)) :
    (reach names t clock as).tables =
      (committed names t clock as).foldl (fun t o => exec t o.1 o.2) t :=
  foldl_trace Inv (fun _ a h => ⟨h.step a, h.step_tables a⟩) (inv_initial hwf clock) as

theorem committed_concat (t : Tables) (clock : Time) (as : List (Action n)) (a : Action n) :
    committed names t clock (as ++ [a]) =
      committed names t clock as ++ (op? names (reach names t clock as) a).toList := by
  rw [committed, trace_append, trace, trace, List.append_nil]
  rfl

theorem reach_concat (t : Tables) (clock : Time) (as : List (Action n)) (a : Action n) :
    reach names t clock (as ++ [a]) = step names (reach names t clock as) a :=
  List.foldl_concat _ _ _ _

variable (names s i) in
/-- How an action moves the call `i`. -/
inductive Moves : Action n → Phase → Prop
  | begin (hi : s.calls i = .idle) :
    Moves (.begin i) (.scanning s.clock (dueRows s.tables s.clock) 0)
  | pass {now snapshot passed busy r} (hi : s.calls i = .scanning now snapshot passed)
    (hr : snapshot[passed]? = some r) (hnot : s.lockable now busy r.id = none) :
    Moves (.probe i busy) (.scanning now snapshot (passed + 1))
  | lock {now snapshot passed busy row} (hi : s.calls i = .scanning now snapshot passed) :
    Moves (.probe i busy) (.locked now snapshot passed row)
  | empty {now snapshot passed busy} (hi : s.calls i = .scanning now snapshot passed)
    (hend : snapshot[passed]? = none) : Moves (.probe i busy) (.returned .empty)
  | commit {now snapshot passed row} (hi : s.calls i = .locked now snapshot passed row) :
    Moves (.commit i none) (.returned (.job (lease now (names i) row)))
  | lost {now snapshot passed row text} (hi : s.calls i = .locked now snapshot passed row) :
    Moves (.commit i (some text)) (.returned (leaseErr text))
  | fail {text} (hi : ∀ answer, s.calls i ≠ .returned answer) :
    Moves (.fail i text) (.returned (leaseErr text))

theorem calls_move {j : Fin n} {ph : Phase} {a : Action n} (h : j = i → Moves names s i a ph) :
    (s.move j ph).calls i = s.calls i ∨ Moves names s i a ((s.move j ph).calls i) := by
  by_cases hji : j = i
  · have hmoves := h hji
    subst hji
    simp only [Server.move, Function.update_self]
    exact Or.inr hmoves
  · simp only [Server.move, Function.update_of_ne (Ne.symm hji)]
    exact Or.inl trivial

/-- A step leaves a call alone or moves it. -/
theorem step_calls (a : Action n) :
    (step names s a).calls i = s.calls i ∨ Moves names s i a ((step names s a).calls i) := by
  cases a with
  | tick d => exact Or.inl rfl
  | begin j =>
    simp only [step]
    split
    · rename_i hj
      refine calls_move ?_
      rintro rfl
      exact .begin hj
    · exact Or.inl rfl
  | probe j busy =>
    simp only [step]
    split
    · rename_i hj
      split
      · rename_i hend
        refine calls_move ?_
        rintro rfl
        exact .empty hj hend
      · rename_i hr
        split
        · rename_i hnot
          refine calls_move ?_
          rintro rfl
          exact .pass hj hr hnot
        · refine calls_move ?_
          rintro rfl
          exact .lock hj
    · exact Or.inl rfl
  | commit j lost =>
    simp only [step]
    split
    · rename_i hj
      cases lost with
      | none =>
        refine calls_move ?_
        rintro rfl
        exact .commit hj
      | some text =>
        refine calls_move ?_
        rintro rfl
        exact .lost hj
    · exact Or.inl rfl
  | fail j text =>
    simp only [step]
    split
    · exact Or.inl rfl
    · rename_i hj
      refine calls_move ?_
      rintro rfl
      exact .fail hj
  | other op =>
    simp only [step]
    split <;> exact Or.inl rfl

/-- A call that has returned does not move. -/
theorem Moves.not_returned {a : Action n} {ph : Phase} (h : Moves names s i a ph)
    (answer : Answer) : s.calls i ≠ .returned answer := by
  cases h with
  | begin hi | pass hi | lock hi | empty hi | commit hi | lost hi => simp [hi]
  | fail hi => exact hi answer

theorem returned_step {answer : Answer} (h : s.calls i = .returned answer) (a : Action n) :
    (step names s a).calls i = .returned answer := by
  rcases step_calls a with heq | hmoves
  · rw [heq, h]
  · exact absurd h (hmoves.not_returned answer)

/-! ## Answers -/

/-- The job that a call has returned is the answer of its atomic lease, which stands in
the sequence where the call has committed. -/
theorem returned_of_committed {t : Tables} (hwf : t.Wf) (clock : Time) (as : List (Action n))
    {job : Job} (h : (reach names t clock as).calls i = .returned (.job job)) :
    ∃ pre now rowLocked after, pre ++ [.commit i none] <+: as ∧
      committed names t clock as =
        committed names t clock pre ++ (now, .leaseJob (names i) rowLocked) :: after ∧
      (leaseJob ((committed names t clock pre).foldl (fun t o => exec t o.1 o.2) t) now (names i)
        rowLocked).2 = some job := by
  induction as using List.reverseRecOn with
  | nil => cases h
  | append_singleton as a ih =>
    rw [reach_concat] at h
    rw [committed_concat]
    rcases step_calls a with hold | hmoves
    · obtain ⟨pre, now, rowLocked, after, hpre, heq, hjob⟩ := ih (hold.symm.trans h)
      exact ⟨pre, now, rowLocked, _, hpre.trans (List.prefix_append as [a]),
        by rw [heq, List.append_assoc, List.cons_append], hjob⟩
    · rw [h] at hmoves
      cases hmoves with
      | @commit now snapshot passed row hi =>
        have hinv : Inv (reach names t clock as) := reach_inv hwf clock as
        have heq := (hinv.holds i now snapshot passed row hi).leaseJob_eq hinv.wf (hinv.orderOf hi)
          (names i)
        refine ⟨as, now, conceded (reach names t clock as).tables snapshot passed row, [],
          List.prefix_rfl, ?_, ?_⟩
        · simp only [op?, hi, Option.toList_some]
        · rw [← reach_tables hwf clock as, heq]

/-- The caller has the job, or an error in its place. -/
def Returned (ph : Phase) (job : Job) : Prop :=
  ph = .returned (.job job) ∨ ∃ text, ph = .returned (leaseErr text)

/-- The last operation of a step that commits a lease, and what its call returns. -/
theorem Inv.returned_lease (h : Inv s) {a : Action n} {now : Time} {w : String}
    {rowLocked : List Nat} (hop : op? names s a = some (now, .leaseJob w rowLocked)) :
    ∃ i job, names i = w ∧ (leaseJob s.tables now w rowLocked).2 = some job ∧
      Returned ((SkipLocked.step names s a).calls i) job := by
  cases a with
  | tick | begin | probe | fail => cases hop
  | other op =>
    rw [op?] at hop
    split at hop
    · rename_i hadmits
      cases hop
      exact absurd hadmits (by simp [isLease])
    · cases hop
  | commit i lost =>
    rw [op?] at hop
    split at hop
    · rename_i now' snapshot passed row hi
      cases hop
      have heq := (h.holds i now snapshot passed row hi).leaseJob_eq h.wf (h.orderOf hi) (names i)
      refine ⟨i, lease now (names i) row, rfl, by rw [heq], ?_⟩
      simp only [SkipLocked.step, hi, Server.move, Function.update_self]
      cases lost with
      | none => exact Or.inl rfl
      | some text => exact Or.inr ⟨text, rfl⟩
    · cases hop

/-- Every committed lease is the lease of a call that has returned its job, unless
the answer is lost. -/
theorem committed_of_returned {t : Tables} (hwf : t.Wf) (clock : Time) (as : List (Action n))
    {before after : List (Time × Op)} {now : Time} {w : String} {rowLocked : List Nat}
    (h : committed names t clock as = before ++ (now, .leaseJob w rowLocked) :: after) :
    ∃ i job, names i = w ∧
      (leaseJob (before.foldl (fun t o => exec t o.1 o.2) t) now w rowLocked).2 = some job ∧
      Returned ((reach names t clock as).calls i) job := by
  induction as using List.reverseRecOn generalizing after with
  | nil => exact absurd h.symm (by simp [committed, trace])
  | append_singleton as a ih =>
    have hstays : ∀ after', committed names t clock as =
        before ++ (now, .leaseJob w rowLocked) :: after' → ∃ i job, names i = w ∧
          (leaseJob (before.foldl (fun t o => exec t o.1 o.2) t) now w rowLocked).2 = some job ∧
          Returned ((reach names t clock (as ++ [a])).calls i) job := by
      intro after' heq
      obtain ⟨i, job, hname, hjob, hret⟩ := ih heq
      refine ⟨i, job, hname, hjob, ?_⟩
      rw [reach_concat]
      rcases hret with hret | ⟨text, hret⟩
      · exact Or.inl (returned_step hret a)
      · exact Or.inr ⟨text, returned_step hret a⟩
    rw [committed_concat] at h
    cases hop : op? names (reach names t clock as) a with
    | none =>
      rw [hop, Option.toList_none, List.append_nil] at h
      exact hstays after h
    | some o =>
      rw [hop, Option.toList_some] at h
      rcases List.eq_nil_or_concat after with rfl | ⟨after', o', rfl⟩
      · -- The lease is the operation of the last step.
        obtain ⟨rfl, hlast⟩ := List.append_inj' h rfl
        obtain rfl := (List.cons.inj hlast).1
        rw [reach_concat, ← reach_tables hwf clock as]
        exact (reach_inv hwf clock as).returned_lease hop
      · rw [List.concat_eq_append, ← List.cons_append, ← List.append_assoc] at h
        exact hstays after' (List.append_inj' h rfl).1

/-! ## A scan that finds nothing -/

/-- The statement cannot have the row: another transaction has locked it, or it is
gone, or it does not qualify any more. -/
def Server.Unavailable (s : Server n) (now : Time) (busy : List Nat) (id : Nat) : Prop :=
  s.holds id = true ∨ id ∈ busy ∨ ∀ r ∈ s.tables.jobs, r.id = id → leasable now [] r = false

theorem unavailable_of_lockable {now : Time} {busy : List Nat} {id : Nat}
    (h : s.lockable now busy id = none) : s.Unavailable now busy id := by
  rw [Server.lockable] at h
  split at h
  · rename_i hlocked
    rcases Bool.or_eq_true_iff.mp hlocked with hholds | hbusy
    · exact Or.inl hholds
    · exact Or.inr (Or.inl (List.contains_iff_mem.mp hbusy))
  · refine Or.inr (Or.inr fun r hr hid => ?_)
    have hnot := List.find?_eq_none.mp h r hr
    simpa [hid] using hnot

theorem mem_dueRows {t : Tables} {now : Time} {r : JobRow} :
    r ∈ dueRows t now ↔ r ∈ t.jobs ∧ leasable now [] r = true := by
  rw [dueRows, (List.perm_insertionSort _ _).mem_iff, List.mem_filter]

variable (names) in
/-- The scan that the call has begun after `before` has come to the row and could
not have it. -/
def PassedOver (t : Tables) (clock : Time) (as : List (Action n)) (i : Fin n)
    (before : List (Action n)) (r : JobRow) : Prop :=
  ∃ mid busy, before <+: mid ∧ mid ++ [.probe i busy] <+: as ∧
    (reach names t clock mid).Unavailable (reach names t clock before).clock busy r.id

variable (names) in
/-- The call has begun after `before`, and its scan is past the first rows. -/
structure Scanned (t : Tables) (clock : Time) (as : List (Action n)) (i : Fin n)
    (before : List (Action n)) (snapshot : List JobRow) (passed : Nat) : Prop where
  began : before ++ [.begin i] <+: as
  idle : (reach names t clock before).calls i = .idle
  due : snapshot = dueRows (reach names t clock before).tables (reach names t clock before).clock
  behind : ∀ r ∈ snapshot.take passed, PassedOver names t clock as i before r

variable (names) in
/-- What a phase says of the run so far. -/
def History (t : Tables) (clock : Time) (as : List (Action n)) (i : Fin n) : Phase → Prop
  | .scanning now snapshot passed => ∃ before, Scanned names t clock as i before snapshot passed ∧
      now = (reach names t clock before).clock
  | .returned .empty =>
    ∃ before snapshot, Scanned names t clock as i before snapshot snapshot.length
  | _ => True

variable {t : Tables} {clock : Time} {as : List (Action n)}

theorem Scanned.concat {before : List (Action n)} {snapshot : List JobRow} {passed : Nat}
    (h : Scanned names t clock as i before snapshot passed) (a : Action n) :
    Scanned names t clock (as ++ [a]) i before snapshot passed where
  began := h.began.trans (List.prefix_append as [a])
  idle := h.idle
  due := h.due
  behind := by
    intro r hr
    obtain ⟨mid, busy, hmid, hprobe, hwhy⟩ := h.behind r hr
    exact ⟨mid, busy, hmid, hprobe.trans (List.prefix_append as [a]), hwhy⟩

theorem History.concat {ph : Phase} (h : History names t clock as i ph) (a : Action n) :
    History names t clock (as ++ [a]) i ph := by
  cases ph with
  | idle | locked => trivial
  | scanning now snapshot passed =>
    obtain ⟨before, hscan, hnow⟩ := h
    exact ⟨before, hscan.concat a, hnow⟩
  | returned answer =>
    cases answer with
    | job | failed => trivial
    | empty =>
      obtain ⟨before, snapshot, hscan⟩ := h
      exact ⟨before, snapshot, hscan.concat a⟩

/-- Every call knows its own scan. -/
theorem reach_history (as : List (Action n)) :
    History names t clock as i ((reach names t clock as).calls i) := by
  induction as using List.reverseRecOn with
  | nil => trivial
  | append_singleton as a ih =>
    rw [reach_concat]
    rcases step_calls a with heq | hmoves
    · rw [heq]
      exact ih.concat a
    · generalize (step names (reach names t clock as) a).calls i = ph at hmoves
      cases hmoves with
      | lock | commit | lost | fail => trivial
      | begin hi => exact ⟨as, ⟨List.prefix_rfl, hi, rfl, by simp⟩, rfl⟩
      | pass hi hr hnot =>
        rw [hi] at ih
        obtain ⟨before, hscan, rfl⟩ := ih
        refine ⟨before, { hscan.concat _ with behind := fun x hx => ?_ }, rfl⟩
        rw [List.take_add_one, hr, List.mem_append] at hx
        rcases hx with hx | hx
        · exact (hscan.concat _).behind x hx
        · -- The row that the scan has just passed.
          obtain rfl := List.mem_singleton.mp hx
          exact ⟨as, _, (List.prefix_append _ _).trans hscan.began, List.prefix_rfl,
            unavailable_of_lockable hnot⟩
      | @empty now snapshot passed busy hi hend =>
        rw [hi] at ih
        obtain ⟨before, hscan, -⟩ := ih
        refine ⟨before, snapshot, { hscan.concat _ with behind := fun x hx => ?_ }⟩
        rw [List.take_length, ← List.take_of_length_le (List.getElem?_eq_none_iff.mp hend)] at hx
        exact (hscan.concat _).behind x hx

end Steps

/-- Concurrent `LeaseJob` statements behave as atomic ones, in every run of any
number of calls among the statements of other clients.

The committed tables are those of the committed operations one after the other.
Every job that a call returns is the answer of its atomic lease in that sequence, at
the place where the call has committed.  Every lease of the sequence is the lease of a
call that has returned its job, or an error if the answer of the commit got lost: the
row is then leased and no caller has it.  A call that returns no job has come to every
row that was due when it began, and has found it locked by another transaction, gone, or
not due any more.

No two calls have the same row locked.  And a call that has locked a row has taken
the first row of its snapshot, in the order of the scan, that it did not pass over
and that nobody has changed since. -/
theorem skip_locked_refines {n : Nat} (names : Fin n → String) (t : Tables) (hwf : t.Wf)
    (clock : Time) (as : List (Action n)) :
    (reach names t clock as).tables =
        (committed names t clock as).foldl (fun t o => exec t o.1 o.2) t ∧
    (∀ i job, (reach names t clock as).calls i = .returned (.job job) →
      ∃ pre now rowLocked after, pre ++ [.commit i none] <+: as ∧
        committed names t clock as =
          committed names t clock pre ++ (now, .leaseJob (names i) rowLocked) :: after ∧
        (leaseJob ((committed names t clock pre).foldl (fun t o => exec t o.1 o.2) t) now (names i)
          rowLocked).2 = some job) ∧
    (∀ before now w rowLocked after,
      committed names t clock as = before ++ (now, .leaseJob w rowLocked) :: after →
        ∃ i job, names i = w ∧
          (leaseJob (before.foldl (fun t o => exec t o.1 o.2) t) now w rowLocked).2 = some job ∧
          Returned ((reach names t clock as).calls i) job) ∧
    (∀ i, (reach names t clock as).calls i = .returned .empty →
      ∃ before, before ++ [.begin i] <+: as ∧ (reach names t clock before).calls i = .idle ∧
        ∀ r ∈ (reach names t clock before).tables.jobs,
          leasable (reach names t clock before).clock [] r = true →
            PassedOver names t clock as i before r) ∧
    (∀ i j r r', ((reach names t clock as).calls i).lockedRow = some r →
      ((reach names t clock as).calls j).lockedRow = some r' → r.id = r'.id → i = j) ∧
    ∀ i now snapshot passed row,
      (reach names t clock as).calls i = .locked now snapshot passed row → row ∈ snapshot →
        ∀ x ∈ (reach names t clock as).tables.jobs, x ∈ snapshot →
          (∀ y ∈ snapshot.take passed, y.id ≠ x.id) → scanKey row ≤ scanKey x := by
  have hinv : Inv (reach names t clock as) := reach_inv hwf clock as
  refine ⟨reach_tables hwf clock as, fun i job h => returned_of_committed hwf clock as h,
    fun before now w rowLocked after h => committed_of_returned hwf clock as h,
    fun i h => ?_, hinv.alone, fun i now snapshot passed row hi hrow x _ hx hpassed => ?_⟩
  · have hhistory : History names t clock as i ((reach names t clock as).calls i) :=
      reach_history as
    rw [h] at hhistory
    obtain ⟨before, snapshot, hscan⟩ := hhistory
    refine ⟨before, hscan.began, hscan.idle, fun r hr hdue => hscan.behind r ?_⟩
    rw [List.take_length, hscan.due]
    exact mem_dueRows.mpr ⟨hr, hdue⟩
  · exact (hinv.holds i now snapshot passed row hi).first (hinv.orderOf hi) hrow hx hpassed

/-- Three workers lease at once.  All scans begin with the same row.  The call `j`
passes it over, and the call `k` finds both rows locked. -/
def rivalLeases (i j k : Fin 3) : List (Action 3) :=
  [.begin i, .begin j, .probe i [], .probe j [], .probe j [], .begin k, .probe k [], .probe k [],
    .probe k [], .commit j none, .tick 3, .commit i none]

/-- The later commit has the earlier job, and the third call goes empty. -/
theorem skip_locked_refines_rivals :
    let run := rivalLeases ⟨0, by decide⟩ ⟨1, by decide⟩ ⟨2, by decide⟩
    let names := ![ "u", "w", "x"]
    (execAll threeJobs).Wf ∧
    (reach names (execAll threeJobs) 20 run).tables.jobs.map
        (fun r => (r.id, r.status, r.lockedBy)) =
      [(1, .leased, some "v"), (2, .leased, some "u"), (3, .leased, some "w")] ∧
    (reach names (execAll threeJobs) 20 run).tables =
      (committed names (execAll threeJobs) 20 run).foldl
        (fun t o => exec t o.1 o.2) (execAll threeJobs) ∧
    (reach names (execAll threeJobs) 20 run).calls ⟨2, by decide⟩ = .returned .empty ∧
    ∃ before, before ++ [.begin ⟨2, by decide⟩] <+: run ∧
      ∀ r ∈ (reach names (execAll threeJobs) 20 before).tables.jobs,
        leasable (reach names (execAll threeJobs) 20 before).clock [] r = true →
          PassedOver names (execAll threeJobs) 20 run ⟨2, by decide⟩ before r := by
  intro run names
  have hwf : (execAll threeJobs).Wf := (execAll_audited threeJobs).wf
  have hempty : (reach names (execAll threeJobs) 20 run).calls ⟨2, by decide⟩ =
      .returned .empty := by decide +kernel
  obtain ⟨htables, -, -, hscan, -⟩ := skip_locked_refines names _ hwf 20 run
  obtain ⟨before, hbegan, -, hover⟩ := hscan _ hempty
  refine ⟨hwf, ?_, htables, hempty, before, hbegan, hover⟩
  decide +kernel

end ImgSync.Worker.SkipLocked
