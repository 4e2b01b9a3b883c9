import ImgSync.Worker.Skip

/-!
# How often a job is leased

The attempts of a row do not count its leases: a lease that a sweep or a drain
takes away costs no attempt, and neither does one that ends in a success.  This
module counts the leases next to the run, and the drains, which leave no event.

`Balanced` is the account of one job.  Every lease has ended with an event, has
been drained, or is still held.  `lease_accounting` reads it together with the
retry budget of the row: a job is leased at most `max_attempts` times, and once
more for every expired and every drained lease.
-/

namespace ImgSync.Worker

open ImgSync.Lib ImgSync.Queue

/-! ## The counters -/

/-- The job that an operation leases. -/
def leaseOf (t : Tables) (now : Time) : Op → Option Nat
  | .leaseJob w rowLocked => (leaseJob t now w rowLocked).2.map JobRow.id
  | _ => none

/-- Whether an operation drains the lease of the job. -/
def drainsJob (t : Tables) (id : Nat) : Op → Bool
  | .drainLease w => t.jobs.any fun r => r.id == id && heldBy w r
  | _ => false

/-- For each job the number of its leases and of its drained leases. -/
structure Ledger where
  leases : Nat → Nat
  drains : Nat → Nat

def Ledger.empty : Ledger := ⟨fun _ => 0, fun _ => 0⟩

def Ledger.record (l : Ledger) (t : Tables) (now : Time) (op : Op) : Ledger where
  leases := fun id => l.leases id + if leaseOf t now op = some id then 1 else 0
  drains := fun id => l.drains id + if drainsJob t id op then 1 else 0

/-- A step of the system with its entry in the ledger. -/
def count (c : System × Ledger) (a : Time × Action) : System × Ledger :=
  (step c.1 a, ((operation c.1 a.2).map (c.2.record c.1.tables a.1)).getD c.2)

/-- The ledger of a run. -/
def ledger (acts : List (Time × Action)) : Ledger :=
  (acts.foldl count (System.init, Ledger.empty)).2

/-! ## The account of a job -/

/-- Whether an event ends a lease. -/
def EndsLease : EventStatus → Bool
  | .enqueue | .lease => false
  | .success | .skip | .fail | .expire | .dead => true

/-- The number of leases that have ended with an event. -/
def endings (trail : List EventStatus) : Nat := trail.countP EndsLease

/-- One for a row that is leased. -/
def held (r : JobRow) : Nat := if r.status = .leased then 1 else 0

/-- Every lease of the job has ended with an event, has been drained, or is
held. -/
def Balanced (l : Ledger) (r : JobRow) (trail : List EventStatus) : Prop :=
  l.leases r.id = endings trail + l.drains r.id + held r

/-- Every row is in balance, and an id that has not been used has not been
leased. -/
structure Accounts (t : Tables) (l : Ledger) : Prop where
  rows : ∀ r ∈ t.jobs, Balanced l r (t.trail r.id)
  fresh : ∀ id, t.jobSeq ≤ id → l.leases id = 0 ∧ l.drains id = 0

theorem endings_append (trail kinds : List EventStatus) :
    endings (trail ++ kinds) = endings trail + endings kinds :=
  List.countP_append

theorem Created.balanced {l : Ledger} {r : JobRow} {kinds : List EventStatus}
    (h : Created r kinds) (hl : l.leases r.id = 0 ∧ l.drains r.id = 0) : Balanced l r kinds := by
  have hkinds : endings kinds = 0 := by
    rcases h.kinds with rfl | rfl <;> rfl
  rw [Balanced, hl.1, hl.2, hkinds, held, h.pending]
  rfl

/-- Outside of leases and drains a lease ends with exactly one event. -/
theorem endings_rowStep {now : Time} {op : Op} {r r' : JobRow} {kinds : List EventStatus}
    (h : RowStep now op r r' kinds) (hlease : ∀ w rowLocked, op ≠ .leaseJob w rowLocked)
    (hdrain : ∀ w, op ≠ .drainLease w) : endings kinds + held r' = held r := by
  cases h with
  | keep => simp [endings]
  | lease w rowLocked => exact absurd rfl (hlease w rowLocked)
  | drain w => exact absurd rfl (hdrain w)
  | expire cfg he =>
    rw [expired, Bool.and_eq_true, beq_iff_eq] at he
    simp [endings, EndsLease, held, JobRow.requeue, he.1]
  | succeed w job d hg => simp [endings, EndsLease, held, setSuccess, leased_of_guard hg]
  | finish w job kind attempts d hg =>
    cases kind <;>
      simp [endings, EndsLease, held, setTerminal, TerminalKind.jobStatus,
        TerminalKind.eventStatus, leased_of_guard hg]
  | retry w job attempts backoffMs d hg =>
    simp [endings, EndsLease, held, setRetry, leased_of_guard hg]

section Exec

variable {t : Tables} {l : Ledger} {now : Time}

/-- An operation that neither leases nor drains. -/
theorem Accounts.other (h : Accounts t l) (hwf : t.Wf) {op : Op}
    (hlease : ∀ w rowLocked, op ≠ .leaseJob w rowLocked) (hdrain : ∀ w, op ≠ .drainLease w) :
    Accounts (exec t now op) l := by
  by_cases hret : op.IsRetention
  · obtain ⟨keep, hpruned⟩ := exec_retention hwf now hret
    refine ⟨fun r hr => ?_, fun id hid => h.fresh id (hpruned.seq ▸ hid)⟩
    obtain ⟨hmem, htrail⟩ := hpruned.trail hr
    rw [htrail]
    exact h.rows r hmem
  · obtain ⟨d⟩ := exec_delta hwf now hret
    refine ⟨d.all_rows hwf (fun r hr => ?_) (fun r _ r' kinds hstep hr => ?_) h.rows,
      fun id hid => h.fresh id (d.seq.trans hid)⟩
    · exact Created.balanced (d.created r hr) (h.fresh r.id (d.newSeq r hr).1)
    · have hends := endings_rowStep hstep hlease hdrain
      rw [Balanced] at hr ⊢
      rw [hstep.immutable.1, endings_append]
      omega

/-- An update of the rows that `p` picks, without events.  The balance moves by
what the update does to the held leases. -/
theorem Accounts.update {l' : Ledger} (h : Accounts t l) (hwf : t.Wf) {p : JobRow → Bool}
    {f : JobRow → JobRow} (hid : ∀ r, (f r).id = r.id)
    (hpick : ∀ r ∈ t.jobs, p r = true →
      l'.leases r.id + l.drains r.id + held r = l.leases r.id + l'.drains r.id + held (f r))
    (hrest : ∀ id, (∀ r ∈ t.jobs, p r = true → r.id ≠ id) →
      l'.leases id = l.leases id ∧ l'.drains id = l.drains id) :
    Accounts { t with jobs := updateWhere p f t.jobs } l' := by
  refine ⟨fun r' hr' => ?_, fun id hseq => ?_⟩
  · obtain ⟨r, hr, rfl⟩ := List.mem_map.mp hr'
    have hbal := h.rows r hr
    rw [Balanced] at hbal ⊢
    cases hp : p r with
    | true =>
      have hmove := hpick r hr hp
      simp only [if_true, hid, Tables.trail] at hbal ⊢
      omega
    | false =>
      have hothers : ∀ x ∈ t.jobs, p x = true → x.id ≠ r.id := by
        intro x hx hpx heq
        rw [eq_of_key_eq hwf.ids hx hr heq, hp] at hpx
        exact absurd hpx (by decide)
      simp only [Bool.false_eq_true, if_false, hrest r.id hothers]
      exact hbal
  · have hunused : ∀ r ∈ t.jobs, p r = true → r.id ≠ id := by
      intro r hr _ heq
      have hlt := hwf.seq r hr
      have hge : t.jobSeq ≤ id := hseq
      omega
    rw [(hrest id hunused).1, (hrest id hunused).2]
    exact h.fresh id hseq

theorem Accounts.lease (h : Accounts t l) (hwf : t.Wf) (w : String) (rowLocked : List Nat) :
    Accounts (exec t now (.leaseJob w rowLocked)) (l.record t now (.leaseJob w rowLocked)) := by
  rw [exec]
  rcases leaseJob_cases t now w rowLocked with hnone | ⟨r, hr, hp, hsome⟩
  · have hsame : l.record t now (.leaseJob w rowLocked) = l := by
      simp [Ledger.record, leaseOf, drainsJob, hnone]
    rw [hnone, hsame]
    exact h
  · rw [hsome]
    refine h.update hwf (fun _ => rfl) (fun x hx hpx => ?_) (fun id hne => ?_)
    · obtain rfl := eq_of_key_eq hwf.ids hx hr (beq_iff_eq.mp hpx)
      simp [Ledger.record, leaseOf, drainsJob, hsome, held, hp, Worker.lease]
      omega
    · have hid : r.id ≠ id := hne r hr (beq_self_eq_true _)
      simp [Ledger.record, leaseOf, drainsJob, hsome, Worker.lease, hid]

theorem Accounts.drain (h : Accounts t l) (hwf : t.Wf) (w : String) :
    Accounts (exec t now (.drainLease w)) (l.record t now (.drainLease w)) := by
  refine h.update hwf (fun _ => rfl) (fun r hr hh => ?_) (fun id hne => ?_)
  · have hdrains : drainsJob t r.id (.drainLease w) = true :=
      List.any_eq_true.mpr ⟨r, hr, by simp [hh]⟩
    rw [heldBy, Bool.and_eq_true, beq_iff_eq] at hh
    simp [Ledger.record, leaseOf, hdrains, held, JobRow.requeue, hh.1]
    omega
  · have hdrains : drainsJob t id (.drainLease w) = false := by
      rw [← Bool.not_eq_true]
      intro hany
      obtain ⟨r, hr, hboth⟩ := List.any_eq_true.mp hany
      rw [Bool.and_eq_true, beq_iff_eq] at hboth
      exact hne r hr hboth.2 hboth.1
    simp [Ledger.record, leaseOf, hdrains]

theorem Accounts.exec (h : Accounts t l) (hwf : t.Wf) (now : Time) (op : Op) :
    Accounts (Queue.exec t now op) (l.record t now op) := by
  cases op with
  | leaseJob w rowLocked => exact h.lease hwf w rowLocked
  | drainLease w => exact h.drain hwf w
  | enqueue | snifferEnqueue | enqueueBatch | outcome | sweep | retention | rolledBack =>
    exact h.other hwf (by simp) (by simp)

end Exec

theorem count_accounts (c : System × Ledger) (a : Time × Action)
    (h : c.1.tables.Wf ∧ Accounts c.1.tables c.2) :
    (count c a).1.tables.Wf ∧ Accounts (count c a).1.tables (count c a).2 := by
  obtain ⟨now, act⟩ := a
  simp only [count, step_tables_eq]
  cases operation c.1 act with
  | none => exact h
  | some op => exact ⟨exec_wf h.1 now op, h.2.exec h.1 now op⟩

/-- The ledger does not change the run. -/
theorem foldl_count_fst (c : System × Ledger) (acts : List (Time × Action)) :
    (acts.foldl count c).1 = acts.foldl step c.1 := by
  induction acts generalizing c with
  | nil => rfl
  | cons a acts ih => exact ih (count c a)

/-- The accounts of every run. -/
theorem ledger_accounts (acts : List (Time × Action)) :
    Accounts (reach acts).tables (ledger acts) := by
  let Inv : System × Ledger → Prop := fun c => c.1.tables.Wf ∧ Accounts c.1.tables c.2
  have hstart : Inv (System.init, Ledger.empty) :=
    ⟨Tables.wf_empty, by simp [System.init, Tables.empty], fun _ _ => ⟨rfl, rfl⟩⟩
  have hrun := (foldl_invariant Inv count_accounts hstart acts).2
  rw [foldl_count_fst] at hrun
  exact hrun

/-! ## Leases and attempts -/

/-- One for a job whose last lease costs no attempt: it is still held, or it
ended in a success or a skip. -/
def unspent : JobStatus → Nat
  | .leased | .succeeded | .skipped => 1
  | .pending | .dead => 0

theorem endings_eq (trail : List EventStatus) :
    endings trail = trail.count .fail + trail.count .dead + trail.count .expire +
      (trail.count .success + trail.count .skip) := by
  induction trail with
  | nil => rfl
  | cons e trail ih =>
    rw [endings, List.countP_cons] at *
    cases e <;> simp [EndsLease] <;> omega

/-- A trail has at most one success or skip, and it has one exactly when the
status says so. -/
theorem Closed.unspent_eq {r : JobRow} {trail : List EventStatus} (h : Closed r.status trail) :
    trail.count .success + trail.count .skip + held r = unspent r.status := by
  obtain ⟨before, hbefore, rfl⟩ := h
  have hnone : ∀ e : EventStatus, e.Terminal = true → before.count e = 0 := by
    intro e he
    refine List.count_eq_zero.mpr fun hmem => ?_
    rw [hbefore e hmem] at he
    exact absurd he (by decide)
  rw [List.count_append, List.count_append, hnone .success rfl, hnone .skip rfl, held]
  cases r.status <;> rfl

/-- The leases of every job of every run.  Each of them has cost an attempt, has
expired, has been drained, or is the last one and costs nothing.  So a job is
leased at most `max_attempts` times, and once more for every expired and every
drained lease. -/
theorem lease_accounting (acts : List (Time × Action)) :
    ∀ r ∈ (reach acts).tables.jobs,
      ((ledger acts).leases r.id : Int) =
        r.attempts + ((reach acts).tables.trail r.id).count .expire + (ledger acts).drains r.id +
          unspent r.status ∧
      ((ledger acts).leases r.id : Int) ≤
        r.maxAttempts + ((reach acts).tables.trail r.id).count .expire +
          (ledger acts).drains r.id := by
  intro r hr
  have hbal := (ledger_accounts acts).rows r hr
  have hunspent := Closed.unspent_eq ((reach_audited acts).rows r hr)
  have hbudget := (reach_inv acts).rows r hr
  have hatt := hbudget.attempts
  rw [Balanced, endings_eq] at hbal
  have hexact : ((ledger acts).leases r.id : Int) =
      r.attempts + ((reach acts).tables.trail r.id).count .expire + (ledger acts).drains r.id +
        unspent r.status := by omega
  refine ⟨hexact, ?_⟩
  -- A lease that costs nothing leaves an attempt to spare.
  have hspare : r.attempts + unspent r.status ≤ r.maxAttempts := by
    cases hs : r.status with
    | dead => simpa [unspent] using (hbudget.spent hs).2
    | pending | leased | succeeded | skipped =>
      have hlt := hbudget.spare (by simp [hs])
      simp only [unspent]
      omega
  omega

/-- The second lease of `releaseRun` follows an expired one, and no attempt has
been spent. -/
theorem lease_accounting_released :
    secondLease ∈ (reach releaseRun).tables.jobs ∧ (ledger releaseRun).leases 1 = 2 ∧
      secondLease.attempts = 0 ∧ ((reach releaseRun).tables.trail 1).count .expire = 1 ∧
      ((ledger releaseRun).leases 1 : Int) ≤ 6 := by
  have hmem : secondLease ∈ (reach releaseRun).tables.jobs := by decide
  obtain ⟨hexact, hbound⟩ := lease_accounting releaseRun secondLease hmem
  have hexpire : ((reach releaseRun).tables.trail secondLease.id).count .expire = 1 := by decide
  have hdrains : (ledger releaseRun).drains secondLease.id = 0 := by decide
  rw [hexpire, hdrains] at hexact hbound
  refine ⟨hmem, ?_, rfl, hexpire, hbound⟩
  exact Int.ofNat.inj hexact

end ImgSync.Worker
