import ImgSync.Sweeper.Run
import ImgSync.Lib.Slots

/-!
# A sweep recovers exactly the overdue leases

The module proves three things about every run of the server.

* A call that commits has recovered the rows that are overdue at that moment,
  although its `UPDATE` ran earlier.  The row locks keep the rows that it
  found, and a lease that starts later is not overdue at the time at which the
  transaction began (`expired_exec`).
* No other step of a call touches the tables.  The advisory lock leaves one
  call at a time between its `UPDATE` and its `COMMIT`.
* Every lease ends at most once, so it has at most one expire event, and none
  if it was finished or drained before.
-/

namespace ImgSync.Sweeper

open ImgSync.Lib ImgSync.Queue ImgSync.Worker

/-! ## What the other writers leave alone -/

section Others

variable {now clock : Time} {seconds : Int} {op : Op} {t t' : Tables} {r r' : JobRow}
  {kinds : List EventStatus}

theorem expired_of_not_leased (h : r.status ≠ .leased) : expired now seconds r = false := by
  unfold expired
  rw [beq_eq_false_iff_ne.mpr h, Bool.false_and]

/-- No statement makes a row overdue at an instant that is not after it. -/
theorem rowStep_not_expired (h : RowStep clock op r r' kinds) (hclock : now ≤ clock)
    (hsec : 0 ≤ seconds) (he : expired now seconds r = false) :
    expired now seconds r' = false := by
  cases h with
  | keep => exact he
  | lease w rowLocked hp hd =>
    show (true && decide (clock < now - secondsInterval seconds)) = false
    have hnonneg : 0 ≤ secondsInterval seconds := Int.mul_nonneg hsec (by decide)
    rw [Bool.true_and, decide_eq_false_iff_not, not_lt]
    exact (sub_le_self now hnonneg).trans hclock
  | drain | expire | succeed | retry =>
    exact expired_of_not_leased (by simp [JobRow.requeue, setSuccess, setRetry])
  | finish w job kind attempts d hg =>
    apply expired_of_not_leased
    cases kind <;> simp [setTerminal, TerminalKind.jobStatus]

theorem leased_of_expired (h : expired now seconds r = true) : r.status = .leased := by
  by_contra hne
  rw [expired_of_not_leased hne] at h
  cases h

/-- A statement that leaves the overdue rows in place leaves the list of the
overdue rows as it is. -/
theorem delta_expired (d : Delta clock op t t') (hwf : t.Wf) (hclock : now ≤ clock)
    (hsec : 0 ≤ seconds) (hrows : ∀ r ∈ t.jobs.filter (expired now seconds), r ∈ t'.jobs) :
    t'.jobs.filter (expired now seconds) = t.jobs.filter (expired now seconds) := by
  refine d.filter_eq (fun r hr he => ?_)
    (fun r hr he => rowStep_not_expired (d.rows r hr) hclock hsec he) fun r hr => ?_
  · have hmem := hrows r (List.mem_filter.mpr ⟨hr, he⟩)
    have hmem' : d.f r ∈ t'.jobs := d.mem_jobs.mpr (Or.inl ⟨r, hr, rfl⟩)
    exact eq_of_key_eq (d.wf hwf).ids hmem' hmem (d.rows r hr).immutable.1
  · have hstatus : r.status ≠ .leased := by rw [(d.created r hr).pending]; decide
    exact expired_of_not_leased hstatus

theorem pruned_expired {keep : Nat → Bool} (h : Pruned t t' keep) :
    t'.jobs.filter (expired now seconds) = t.jobs.filter (expired now seconds) := by
  rw [h.jobs, List.filter_filter]
  refine List.filter_congr fun r hr => ?_
  cases he : expired now seconds r with
  | false => rw [Bool.false_and]
  | true =>
    rw [Bool.true_and]
    by_contra hkeep
    have hterm := h.terminal r hr (Bool.eq_false_of_not_eq_true hkeep)
    rw [leased_of_expired he] at hterm
    cases hterm

theorem expired_exec (hwf : t.Wf) (hclock : now ≤ clock) (hsec : 0 ≤ seconds)
    (hrows : ∀ r ∈ t.jobs.filter (expired now seconds), r ∈ (exec t clock op).jobs) :
    (exec t clock op).jobs.filter (expired now seconds) =
      t.jobs.filter (expired now seconds) := by
  by_cases hop : op.IsRetention
  · obtain ⟨keep, hp⟩ := exec_retention hwf clock hop
    exact pruned_expired hp
  · obtain ⟨d⟩ := exec_delta hwf clock hop
    exact delta_expired d hwf hclock hsec hrows

/-- Only a sweep writes an expire event. -/
theorem rowStep_expire (h : RowStep clock op r r' kinds) (hk : .expire ∈ kinds) :
    isSweep op = true := by
  cases h with
  | expire => rfl
  | finish w job kind attempts d hg => cases kind <;> simp [TerminalKind.eventStatus] at hk
  | _ => simp at hk

theorem expire_exec (hwf : t.Wf) (hop : isSweep op = false) {e : EventRow}
    (he : e ∈ (exec t clock op).events) (hexp : e.status = .expire) : e ∈ t.events := by
  by_cases hret : op.IsRetention
  · obtain ⟨keep, hp⟩ := exec_retention hwf clock hret
    rw [hp.events] at he
    exact List.mem_of_mem_filter he
  · obtain ⟨d⟩ := exec_delta hwf clock hret
    rw [d.events, List.mem_append] at he
    rcases he with he | he
    · exact he
    · exfalso
      obtain ⟨r, hr, hid⟩ := d.fk e he
      have hkind : .expire ∈ kindsOf d.evs r.id := by
        rw [← hexp, kindsOf]
        exact List.mem_map_of_mem (List.mem_filter.mpr ⟨he, by simp [hid]⟩)
      rcases List.mem_append.mp hr with hr | hr
      · rw [rowStep_expire (d.rows r hr) hkind] at hop
        cases hop
      · rcases (d.created r hr).kinds with hk | hk <;> rw [hk] at hkind <;> simp at hkind

end Others

/-! ## The ledger -/

/-- What the ledger says about the tables.  A lease is logged at most once,
the lease that a job has now is not logged, and every expire event is. -/
structure Balanced (t : Tables) (g : Ledger) : Prop where
  once : (g.log.map Entry.lease).Nodup
  past : ∀ x ∈ g.log, x.number ≤ g.leases x.job
  live : ∀ x ∈ g.log, x.job ∈ leasedIds t → x.number < g.leases x.job
  logged : ∀ e ∈ t.events, e.status = .expire → ∃ x ∈ g.log, x.job = e.jobId ∧ x.ending = .expired e

section Ledger

variable {t t' : Tables} {g : Ledger}

theorem nodup_leasedIds (hwf : t.Wf) : (leasedIds t).Nodup :=
  hwf.ids.sublist (List.filter_sublist.map _)

theorem mem_leasedIds {id : Nat} :
    id ∈ leasedIds t ↔ ∃ r ∈ t.jobs, r.status = .leased ∧ r.id = id := by
  unfold leasedIds
  simp only [List.mem_map, List.mem_filter, beq_iff_eq, and_assoc]

/-- The log grows by leases that the jobs have now. -/
theorem nodup_append_live (h : Balanced t g) {ids : List Nat} (hnodup : ids.Nodup)
    (hids : ∀ id ∈ ids, id ∈ leasedIds t) {new : List Entry}
    (hnew : new.map Entry.lease = ids.map fun id => (id, g.leases id)) :
    ((g.log ++ new).map Entry.lease).Nodup := by
  rw [List.map_append, hnew, List.nodup_append]
  refine ⟨h.once, ?_, ?_⟩
  · exact hnodup.map fun a b hab => (Prod.mk.inj hab).1
  · intro a ha b hb hab
    obtain ⟨x, hx, rfl⟩ := List.mem_map.mp ha
    obtain ⟨id, hid, rfl⟩ := List.mem_map.mp hb
    obtain ⟨hjob, hnumber⟩ := Prod.mk.inj hab
    have hlt := h.live x hx (hjob ▸ hids id hid)
    rw [hjob] at hlt
    omega

theorem Balanced.note (h : Balanced t g) (hwf : t.Wf) (ending : Ending)
    (hevents : ∀ e ∈ t'.events, e.status = .expire → e ∈ t.events) :
    Balanced t' (g.note t t' ending) := by
  have hgrow : ∀ id, g.leases id ≤ (g.note t t' ending).leases id := by
    intro id
    simp only [Ledger.note]
    split
    · exact Nat.le_succ _
    · exact le_rfl
  refine ⟨?_, ?_, ?_, ?_⟩
  · have hended : ((leasedIds t).filter fun id => id ∉ leasedIds t').Nodup :=
      (nodup_leasedIds hwf).filter _
    refine nodup_append_live h hended (fun id hid => List.mem_of_mem_filter hid) ?_
    rw [List.map_map]
    rfl
  · intro x hx
    rcases List.mem_append.mp hx with hx | hx
    · exact (h.past x hx).trans (hgrow _)
    · obtain ⟨id, _, rfl⟩ := List.mem_map.mp hx
      exact hgrow id
  · intro x hx hjob
    rcases List.mem_append.mp hx with hx | hx
    · by_cases hold : x.job ∈ leasedIds t
      · exact (h.live x hx hold).trans_le (hgrow _)
      · -- The job has been leased again by this statement.
        show x.number < if _ then _ else _
        rw [if_pos ⟨hjob, hold⟩]
        exact Nat.lt_succ_of_le (h.past x hx)
    · obtain ⟨id, hid, rfl⟩ := List.mem_map.mp hx
      exact absurd hjob (by simpa using (List.mem_filter.mp hid).2)
  · intro e he hexp
    obtain ⟨x, hx, hlog⟩ := h.logged e (hevents e he hexp) hexp
    exact ⟨x, List.mem_append_left _ hx, hlog⟩

/-- A sweep logs the leases of the rows that it recovers. -/
theorem Balanced.expire (h : Balanced t g) {evs : List EventRow}
    (hnodup : (evs.map EventRow.jobId).Nodup)
    (hlive : ∀ e ∈ evs, e.jobId ∈ leasedIds t ∧ e.jobId ∉ leasedIds t')
    (hshrink : ∀ id ∈ leasedIds t', id ∈ leasedIds t)
    (hevents : t'.events = t.events ++ evs) : Balanced t' (g.expire evs) := by
  refine ⟨?_, ?_, ?_, ?_⟩
  · refine nodup_append_live h hnodup ?_ ?_
    · intro id hid
      obtain ⟨e, he, rfl⟩ := List.mem_map.mp hid
      exact (hlive e he).1
    · rw [List.map_map, List.map_map]
      rfl
  · intro x hx
    rcases List.mem_append.mp hx with hx | hx
    · exact h.past x hx
    · obtain ⟨e, _, rfl⟩ := List.mem_map.mp hx
      exact le_rfl
  · intro x hx hjob
    rcases List.mem_append.mp hx with hx | hx
    · exact h.live x hx (hshrink _ hjob)
    · obtain ⟨e, he, rfl⟩ := List.mem_map.mp hx
      exact absurd hjob (hlive e he).2
  · intro e he hexp
    rw [hevents, List.mem_append] at he
    rcases he with he | he
    · obtain ⟨x, hx, hlog⟩ := h.logged e he hexp
      exact ⟨x, List.mem_append_left _ hx, hlog⟩
    · exact ⟨_, List.mem_append_right _ (List.mem_map_of_mem he), rfl, rfl⟩

end Ledger

/-! ## The transaction of a call -/

/-- The call is between its advisory lock and the end of its transaction. -/
def Phase.Holding : Phase → Prop
  | .locked _ | .updated _ _ _ => True
  | _ => False

/-- The time at which the transaction of the call began. -/
def Phase.began? : Phase → Option Time
  | .begun now | .locked now | .updated now _ _ => some now
  | _ => none

/-- The columns of an event without the id, which the sequence chooses. -/
def content (e : EventRow) : String × Nat × Time × EventStatus × Detail :=
  (e.traceId, e.jobId, e.ts, e.status, e.detail)

/-- The content of the expire event of a row. -/
def expireContent (now : Time) (r : JobRow) : String × Nat × Time × EventStatus × Detail :=
  (r.traceId, r.id, now, .expire, expireDetail)

/-- What the call knows after its `UPDATE`: the rows are still the overdue
ones, and the events belong to the first of them. -/
structure Staged (cfg : SweeperConfig) (t : Tables) (now : Time) (rows : List JobRow)
    (evs : List EventRow) : Prop where
  found : rows = t.jobs.filter (expired now cfg.thresholdSeconds)
  events : evs.map content = (rows.take evs.length).map (expireContent now)

structure Inv (cfg : SweeperConfig) (s : Server) : Prop where
  wf : s.tables.Wf
  began : ∀ (i : Nat) (ph : Phase) (now : Time), s.sweeps[i]? = some ph →
    ph.began? = some now → now ≤ s.clock
  holds : ∀ (i : Nat) (ph : Phase), s.sweeps[i]? = some ph → ph.Holding →
    Holds s.locks i sweeperLockKey
  staged : ∀ (i : Nat) now rows evs, s.sweeps[i]? = some (.updated now rows evs) →
    Staged cfg s.tables now rows evs
  ledger : Balanced s.tables s.ledger

section Calls

variable {cfg : SweeperConfig} {s s' : Server} {i : Nat} {ph ph' : Phase} {now : Time}
  {rows : List JobRow} {evs : List EventRow}

theorem thresholdSeconds_nonneg (cfg : SweeperConfig) : 0 ≤ cfg.thresholdSeconds := by
  unfold SweeperConfig.thresholdSeconds Duration.seconds
  split
  · decide
  · rename_i hpos
    exact Int.tdiv_nonneg (not_le.mp hpos).le (by decide)

/-- The constraints read the rows, the events and the sequence of the jobs. -/
theorem wf_congr {t t' : Tables} (hwf : t.Wf) (hjobs : t'.jobs = t.jobs)
    (hevents : t'.events = t.events) (hseq : t'.jobSeq = t.jobSeq) : t'.Wf := by
  obtain ⟨ids, keys, seq, fk⟩ := hwf
  exact ⟨by rw [hjobs]; exact ids, by rw [hjobs]; exact keys, by rw [hjobs, hseq]; exact seq,
    by rw [hjobs, hevents]; exact fk⟩

theorem balanced_congr {t t' : Tables} {g : Ledger} (h : Balanced t g) (hjobs : t'.jobs = t.jobs)
    (hevents : t'.events = t.events) : Balanced t' g := by
  have hleased : leasedIds t' = leasedIds t := by rw [leasedIds, hjobs, leasedIds]
  obtain ⟨once, past, live, logged⟩ := h
  exact ⟨once, past, by rw [hleased]; exact live, by rw [hevents]; exact logged⟩

/-- A step of the call `i` that leaves the tables alone. -/
theorem Inv.move (h : Inv cfg s) (hsweeps : s'.sweeps = s.sweeps.set i ph')
    (hjobs : s'.tables.jobs = s.tables.jobs)
    (hevents : s'.tables.events = s.tables.events) (hseq : s'.tables.jobSeq = s.tables.jobSeq)
    (hclock : s'.clock = s.clock) (hledger : s'.ledger = s.ledger)
    (hlocks : KeepsOthers i s.locks s'.locks)
    (hbegan : ∀ now, ph'.began? = some now → now ≤ s.clock)
    (hholds : ph'.Holding → Holds s'.locks i sweeperLockKey)
    (hstaged : ∀ now rows evs, ph' = .updated now rows evs → Staged cfg s.tables now rows evs) :
    Inv cfg s' := by
  have hcases : ∀ j x, s'.sweeps[j]? = some x →
      j = i ∧ x = ph' ∨ j ≠ i ∧ s.sweeps[j]? = some x := by
    intro j x hj
    rw [hsweeps] at hj
    exact getElem?_set_cases hj
  refine ⟨wf_congr h.wf hjobs hevents hseq, ?_, ?_, ?_, ?_⟩
  · intro j x now hj hx
    rw [hclock]
    rcases hcases j x hj with ⟨_, rfl⟩ | ⟨_, hj⟩
    · exact hbegan now hx
    · exact h.began j x now hj hx
  · intro j x hj hx
    rcases hcases j x hj with ⟨rfl, rfl⟩ | ⟨hne, hj⟩
    · exact hholds hx
    · exact hlocks j sweeperLockKey hne (h.holds j x hj hx)
  · intro j now rows evs hj
    have hold : Staged cfg s.tables now rows evs := by
      rcases hcases j _ hj with ⟨_, hx⟩ | ⟨_, hj⟩
      · exact hstaged now rows evs hx.symm
      · exact h.staged j now rows evs hj
    exact ⟨by rw [hjobs]; exact hold.found, hold.events⟩
  · rw [hledger]
    exact balanced_congr h.ledger hjobs hevents

/-- The call returns without a commit. -/
theorem Inv.finish (h : Inv cfg s) (i count : Nat) (err : Option GoString) :
    Inv cfg (s.finish i count err) := by
  refine h.move rfl rfl rfl rfl rfl rfl (keepsOthers_endSession _ _) ?_ ?_ ?_
  · intro now hnow
    cases hnow
  · intro hh
    exact hh.elim
  · intro now rows evs heq
    cases heq

/-- All events are inserted. -/
theorem Staged.complete (h : Staged cfg s.tables now rows evs) (hdone : rows[evs.length]? = none) :
    evs.map content = rows.map (expireContent now) := by
  have hevents := h.events
  rwa [List.take_of_length_le (List.getElem?_eq_none_iff.mp hdone)] at hevents

theorem Staged.jobIds (h : Staged cfg s.tables now rows evs) (hdone : rows[evs.length]? = none) :
    evs.map EventRow.jobId = rows.map JobRow.id := by
  have hids := congrArg (List.map fun c => c.2.1) (h.complete hdone)
  rwa [List.map_map, List.map_map] at hids

/-- The ids of the `UPDATE` pick the overdue rows. -/
theorem Staged.commit_jobs (h : Staged cfg s.tables now rows evs) (hwf : s.tables.Wf) :
    (s.commit now rows evs).tables.jobs =
      updateWhere (expired now cfg.thresholdSeconds) (JobRow.requeue now) s.tables.jobs := by
  refine List.map_congr_left fun x hx => ?_
  have hpick : (rows.any fun r => r.id == x.id) = expired now cfg.thresholdSeconds x := by
    rw [Bool.eq_iff_iff, List.any_eq_true]
    constructor
    · rintro ⟨r, hr, hid⟩
      rw [h.found] at hr
      obtain ⟨hmem, he⟩ := List.mem_filter.mp hr
      rwa [eq_of_key_eq hwf.ids hx hmem (beq_iff_eq.mp hid).symm]
    · intro he
      refine ⟨x, ?_, beq_self_eq_true _⟩
      rw [h.found]
      exact List.mem_filter.mpr ⟨hx, he⟩
  simp only [hpick]

theorem Staged.commit_wf (h : Staged cfg s.tables now rows evs) (hwf : s.tables.Wf)
    (hdone : rows[evs.length]? = none) : (s.commit now rows evs).tables.Wf := by
  have hpairs : evs.map (fun e => (e.jobId, e.status)) =
      (s.tables.jobs.filter (expired now cfg.thresholdSeconds)).map
        fun r => (r.id, EventStatus.expire) := by
    have hcols := congrArg (List.map fun c => (c.2.1, c.2.2.2.1)) (h.complete hdone)
    rw [List.map_map, List.map_map, h.found] at hcols
    exact hcols
  obtain ⟨d⟩ := expire_delta hwf cfg (h.commit_jobs hwf) rfl rfl hpairs
  exact d.wf hwf

/-- A job that is leased after the commit was leased before, and is not one of
the recovered rows. -/
theorem Staged.leased_commit (h : Staged cfg s.tables now rows evs) (hwf : s.tables.Wf) {id : Nat}
    (hid : id ∈ leasedIds (s.commit now rows evs).tables) :
    id ∈ leasedIds s.tables ∧ id ∉ rows.map JobRow.id := by
  obtain ⟨r', hr', hleased, rfl⟩ := mem_leasedIds.mp hid
  rw [h.commit_jobs hwf] at hr'
  obtain ⟨r, hr, heq⟩ := List.mem_map.mp hr'
  cases he : expired now cfg.thresholdSeconds r with
  | true =>
    rw [he, if_pos rfl] at heq
    rw [← heq] at hleased
    cases hleased
  | false =>
    rw [he, if_neg (by decide)] at heq
    subst heq
    refine ⟨mem_leasedIds.mpr ⟨r, hr, hleased, rfl⟩, ?_⟩
    intro hmem
    obtain ⟨x, hx, hid⟩ := List.mem_map.mp hmem
    rw [h.found] at hx
    obtain ⟨hxmem, hxe⟩ := List.mem_filter.mp hx
    rw [eq_of_key_eq hwf.ids hr hxmem hid.symm, hxe] at he
    cases he

theorem Inv.commit (h : Inv cfg s) (hi : s.sweeps[i]? = some (.updated now rows evs))
    (hdone : rows[evs.length]? = none) (count : Nat) (err : Option GoString) :
    Inv cfg ((s.commit now rows evs).finish i count err) := by
  have hstaged := h.staged i now rows evs hi
  have hids := hstaged.jobIds hdone
  -- No other call is in its transaction: it would hold the same lock.
  have halone : ∀ j x, s.sweeps[j]? = some x → x.Holding → j = i :=
    fun j x hj hx => (h.holds j x hj hx).unique (h.holds i _ hi trivial)
  refine ⟨hstaged.commit_wf h.wf hdone, ?_, ?_, ?_, ?_⟩
  · intro j x now' hj hx
    rcases getElem?_set_cases hj with ⟨_, rfl⟩ | ⟨_, hj⟩
    · cases hx
    · exact h.began j x now' hj hx
  · intro j x hj hx
    rcases getElem?_set_cases hj with ⟨_, rfl⟩ | ⟨hne, hj⟩
    · exact hx.elim
    · exact absurd (halone j x hj hx) hne
  · intro j now' rows' evs' hj
    rcases getElem?_set_cases hj with ⟨_, heq⟩ | ⟨hne, hj⟩
    · cases heq
    · exact absurd (halone j _ hj trivial) hne
  · refine h.ledger.expire ?_ ?_ (fun id hid => (hstaged.leased_commit h.wf hid).1) rfl
    · rw [hids, hstaged.found]
      exact h.wf.ids.sublist (List.filter_sublist.map _)
    · intro e he
      have hmem : e.jobId ∈ rows.map JobRow.id := by
        rw [← hids]
        exact List.mem_map_of_mem he
      refine ⟨?_, fun hid => (hstaged.leased_commit h.wf hid).2 hmem⟩
      obtain ⟨r, hr, hid⟩ := List.mem_map.mp hmem
      rw [hstaged.found] at hr
      obtain ⟨hr, hexp⟩ := List.mem_filter.mp hr
      exact mem_leasedIds.mpr ⟨r, hr, leased_of_expired hexp, hid⟩

theorem Inv.sweepStep (h : Inv cfg s) (hi : s.sweeps[i]? = some ph) (answer : Answer) :
    Inv cfg (Sweeper.sweepStep cfg s i ph answer) := by
  have hbegan := fun now => h.began i ph now hi
  cases ph with
  | idle =>
    cases answer with
    | error fault text => exact h.finish i _ _
    | lost text => exact h.finish i _ _
    | ok =>
      refine h.move rfl rfl rfl rfl rfl rfl (.refl _ _) ?_ ?_ ?_
      · intro now hnow
        exact (Option.some.inj hnow).ge
      · intro hh
        exact hh.elim
      · intro now rows evs heq
        cases heq
  | begun now =>
    cases answer with
    | error fault text => exact h.finish i _ _
    | lost text => exact h.finish i _ _
    | ok =>
      simp only [Sweeper.sweepStep]
      split
      · rename_i hlocked
        refine h.move rfl rfl rfl rfl rfl rfl (keepsOthers_tryLock _ _ _) ?_ ?_ ?_
        · exact hbegan
        · exact fun _ => holds_of_tryLock hlocked
        · intro now rows evs heq
          cases heq
      · exact h.finish i _ _
  | locked now =>
    cases answer with
    | error fault text => exact h.finish i _ _
    | lost text => exact h.finish i _ _
    | ok =>
      refine h.move rfl rfl rfl rfl rfl rfl (.refl _ _) hbegan ?_ ?_
      · exact fun _ => h.holds i _ hi trivial
      · intro now rows evs heq
        cases heq
        exact ⟨rfl, rfl⟩
  | updated now rows evs =>
    simp only [Sweeper.sweepStep]
    split
    · rename_i r hr
      refine h.move rfl rfl rfl rfl rfl rfl (.refl _ _) hbegan ?_ ?_
      · exact fun _ => h.holds i _ hi trivial
      · intro now' rows' evs' heq
        cases heq
        have hstaged := h.staged i now rows evs hi
        refine ⟨hstaged.found, ?_⟩
        rw [List.map_append, List.length_append, List.length_singleton, List.take_add_one, hr,
          List.map_append, hstaged.events]
        rfl
    · exact h.finish i _ _
    · exact h.finish i _ _
    · rename_i hdone
      exact h.commit hi hdone _ _
    · exact h.finish i _ _
    · rename_i hdone
      exact h.commit hi hdone _ _
  | returned count err => exact h

/-- A statement of another writer that the row locks admit. -/
theorem Inv.other (h : Inv cfg s) {op : Op} (hop : isSweep op = false)
    (hadmits : s.admits op = true) : Inv cfg { s with
      tables := exec s.tables s.clock op
      ledger := s.ledger.note s.tables (exec s.tables s.clock op) (endingOf op) } := by
  refine ⟨exec_wf h.wf _ _, h.began, h.holds, ?_, ?_⟩
  · intro i now rows evs hi
    obtain ⟨hfound, hevents⟩ := h.staged i now rows evs hi
    refine ⟨?_, hevents⟩
    have hrows : ∀ r ∈ s.tables.jobs.filter (expired now cfg.thresholdSeconds),
        r ∈ (exec s.tables s.clock op).jobs := by
      intro r hr
      have hcall := List.all_eq_true.mp hadmits _ (List.mem_of_getElem? hi)
      rw [← hfound] at hr
      exact List.contains_iff_mem.mp (List.all_eq_true.mp hcall r hr)
    have hclock : now ≤ s.clock := h.began i _ now hi rfl
    rw [hfound]
    exact (expired_exec h.wf hclock (thresholdSeconds_nonneg cfg) hrows).symm
  · exact h.ledger.note h.wf _ fun e he hexp => expire_exec h.wf hop he hexp

theorem Inv.step (h : Inv cfg s) (a : Action) : Inv cfg (Sweeper.step cfg s a) := by
  cases a with
  | tick d =>
    refine ⟨h.wf, ?_, h.holds, h.staged, h.ledger⟩
    intro i ph now hi hph
    have hle : now ≤ s.clock := h.began i ph now hi hph
    exact hle.trans (Int.le_add_of_nonneg_right (Int.natCast_nonneg d))
  | other op =>
    simp only [Sweeper.step]
    split
    · rename_i hguard
      rw [Bool.and_eq_true, Bool.not_eq_true'] at hguard
      exact h.other hguard.1 hguard.2
    · exact h
  | call =>
    -- The new call is in none of the phases that the invariant speaks about.
    have hold : ∀ (i : Nat) ph, (s.sweeps ++ [Phase.idle])[i]? = some ph →
        ph = .idle ∨ s.sweeps[i]? = some ph := by
      intro i ph hi
      rcases Nat.lt_or_ge i s.sweeps.length with hlt | hge
      · rw [List.getElem?_append_left hlt] at hi
        exact Or.inr hi
      · rw [List.getElem?_append_right hge] at hi
        exact Or.inl (List.mem_singleton.mp (List.mem_of_getElem? hi))
    refine ⟨h.wf, ?_, ?_, ?_, h.ledger⟩
    · intro i ph now hi hph
      rcases hold i ph hi with rfl | hi
      · cases hph
      · exact h.began i ph now hi hph
    · intro i ph hi hph
      rcases hold i ph hi with rfl | hi
      · exact hph.elim
      · exact h.holds i ph hi hph
    · intro i now rows evs hi
      rcases hold i _ hi with heq | hi
      · cases heq
      · exact h.staged i now rows evs hi
  | sweep i answer =>
    simp only [Sweeper.step]
    split
    · exact h
    · rename_i ph hi
      exact h.sweepStep hi answer

end Calls

theorem reach_inv (cfg : SweeperConfig) (clock : Time) (as : List Action) :
    Inv cfg (reach cfg clock as) := by
  refine foldl_invariant (Inv cfg) (fun _ a h => h.step a) ?_ as
  refine ⟨Tables.wf_empty, ?_, ?_, ?_, List.nodup_nil, ?_, ?_, ?_⟩
  · intro i ph now hi
    cases hi
  · intro i ph hi
    cases hi
  · intro i now rows evs hi
    cases hi
  · intro x hx
    cases hx
  · intro x hx
    cases hx
  · intro e he
    cases he

/-! ## Exactness -/

/-- The row is leased, and has been for more than `k` seconds at `now`. -/
def Overdue (k : Int) (now : Time) (r : JobRow) : Prop :=
  r.status = .leased ∧ ∃ at_ ∈ r.lockedAt, at_ < now - k * 1000000

instance (k : Int) (now : Time) (r : JobRow) : Decidable (Overdue k now r) :=
  inferInstanceAs (Decidable (_ ∧ _))

/-- What a committed sweep does.  Exactly the overdue rows go back to
`pending`, with every other column as it was, each of them gets one expire
event, and `n` is their number. -/
structure Recovered (k : Int) (now : Time) (t t' : Tables) (n : Nat) : Prop where
  jobs : t'.jobs = t.jobs.map fun r =>
    if Overdue k now r then
      { r with status := .pending, lockedAt := none, lockedBy := none, updatedAt := now }
    else r
  events : ∃ evs, t'.events = t.events ++ evs ∧
    evs.map content = (t.jobs.filter (Overdue k now)).map (expireContent now)
  count : n = (t.jobs.filter (Overdue k now)).length

theorem expired_eq_overdue (k : Int) (now : Time) (r : JobRow) :
    expired now k r = decide (Overdue k now r) := by
  rw [Bool.eq_iff_iff, decide_eq_true_iff]
  unfold expired Overdue secondsInterval
  cases hat : r.lockedAt with
  | none => simp
  | some at_ => simp

theorem recovered_of_staged {cfg : SweeperConfig} {s : Server} {now : Time} {rows : List JobRow}
    {evs : List EventRow} (h : Staged cfg s.tables now rows evs) (hwf : s.tables.Wf)
    (hdone : rows[evs.length]? = none) :
    Recovered cfg.thresholdSeconds now s.tables (s.commit now rows evs).tables rows.length := by
  have hfilter : s.tables.jobs.filter (Overdue cfg.thresholdSeconds now) = rows := by
    rw [h.found]
    exact List.filter_congr fun r _ => (expired_eq_overdue _ _ _).symm
  refine ⟨?_, ⟨evs, rfl, ?_⟩, ?_⟩
  · rw [h.commit_jobs hwf]
    refine List.map_congr_left fun r _ => ?_
    simp only [expired_eq_overdue, decide_eq_true_eq]
    rfl
  · rw [hfilter]
    exact h.complete hdone
  · rw [hfilter]

theorem insertExpires_content (now : Time) (rows : List JobRow) (t : Tables) :
    (insertExpires now t rows).jobs = t.jobs ∧
      (insertExpires now t rows).events.map content =
        t.events.map content ++ rows.map (expireContent now) := by
  induction rows generalizing t with
  | nil => exact ⟨rfl, (List.append_nil _).symm⟩
  | cons r rows ih =>
    obtain ⟨hjobs, hevents⟩ := ih (t.insertEvent now r.traceId r.id .expire expireDetail)
    refine ⟨hjobs, ?_⟩
    show (insertExpires now (t.insertEvent _ _ _ _ _) rows).events.map content = _
    rw [hevents]
    simp [Tables.insertEvent, content, expireContent]

/-- The commit does what the transaction of the queue model does in one step,
up to the ids of the events. -/
theorem commit_eq_sweep {cfg : SweeperConfig} {s : Server} {now : Time} {rows : List JobRow}
    {evs : List EventRow} (h : Staged cfg s.tables now rows evs) (hwf : s.tables.Wf)
    (hdone : rows[evs.length]? = none) :
    (s.commit now rows evs).tables.jobs = (sweep s.tables now cfg true).1.jobs ∧
      (s.commit now rows evs).tables.events.map content =
        (sweep s.tables now cfg true).1.events.map content := by
  rw [h.commit_jobs hwf]
  simp only [sweep, Bool.not_true, Bool.false_eq_true, if_false]
  obtain ⟨hjobs, hevents⟩ := insertExpires_content now
    (s.tables.jobs.filter (expired now cfg.thresholdSeconds))
    { s.tables with
      jobs := updateWhere (expired now cfg.thresholdSeconds) (JobRow.requeue now) s.tables.jobs }
  rw [hjobs, hevents]
  refine ⟨rfl, ?_⟩
  show (s.tables.events ++ evs).map content = _
  rw [List.map_append, h.complete hdone, h.found]

/-- The step of the call `i` leaves both tables alone.  A call that returns
without an error in such a step did not get the lock. -/
structure Untouched (s s' : Server) (i : Nat) : Prop where
  jobs : s'.tables.jobs = s.tables.jobs
  events : s'.tables.events = s.tables.events
  returned : ∀ n, s'.sweeps[i]? = some (.returned n none) →
    s.sweeps[i]? = some (.returned n none) ∨ n = 0 ∧ ∃ now, s.sweeps[i]? = some (.begun now)

theorem Untouched.refl (s : Server) (i : Nat) : Untouched s s i :=
  ⟨rfl, rfl, fun _ h => Or.inl h⟩

/-- The call moves on, or returns an error. -/
theorem Untouched.move {s s' : Server} {i : Nat} {ph : Phase}
    (hsweeps : s'.sweeps = s.sweeps.set i ph) (hjobs : s'.tables.jobs = s.tables.jobs)
    (hevents : s'.tables.events = s.tables.events) (hph : ∀ n, ph ≠ .returned n none) :
    Untouched s s' i := by
  refine ⟨hjobs, hevents, ?_⟩
  intro n hn
  rw [hsweeps] at hn
  rcases getElem?_set_cases hn with ⟨_, heq⟩ | ⟨hne, _⟩
  · exact absurd heq.symm (hph n)
  · exact absurd rfl hne

theorem Untouched.fail (s : Server) (i : Nat) (context : String) (text : GoString) :
    Untouched s (s.fail i context text) i :=
  .move rfl rfl rfl fun n h => by cases h

/-- What the call returns after its commit. -/
def committedReturn (n : Nat) : Answer → Phase
  | .lost text => .returned 0 (some (wrapErr "sweeper: commit: " text))
  | _ => .returned n none

/-- A step of a call leaves the tables alone, or it is the commit of the call. -/
theorem sweep_step_cases {cfg : SweeperConfig} {s : Server} (h : Inv cfg s) (i : Nat)
    (answer : Answer) :
    Untouched s (step cfg s (.sweep i answer)) i ∨
    ∃ now rows evs, s.sweeps[i]? = some (.updated now rows evs) ∧
      (step cfg s (.sweep i answer)).sweeps[i]? = some (committedReturn rows.length answer) ∧
      Recovered cfg.thresholdSeconds now s.tables (step cfg s (.sweep i answer)).tables
        rows.length := by
  simp only [step]
  split
  · exact Or.inl (.refl s i)
  · rename_i ph hi
    cases ph with
    | idle =>
      cases answer with
      | error | lost => exact Or.inl (.fail ..)
      | ok => exact Or.inl (.move rfl rfl rfl fun n h => by cases h)
    | begun now =>
      cases answer with
      | error | lost => exact Or.inl (.fail ..)
      | ok =>
        simp only [sweepStep]
        split
        · exact Or.inl (.move rfl rfl rfl fun n h => by cases h)
        · refine Or.inl ⟨rfl, rfl, fun n hn => Or.inr ?_⟩
          rcases getElem?_set_cases hn with ⟨_, heq⟩ | ⟨hne, _⟩
          · cases heq
            exact ⟨rfl, now, hi⟩
          · exact absurd rfl hne
    | locked now =>
      cases answer with
      | error | lost => exact Or.inl (.fail ..)
      | ok => exact Or.inl (.move rfl rfl rfl fun n h => by cases h)
    | updated now rows evs =>
      have hlt := (List.getElem?_eq_some_iff.mp hi).1
      have hrecovered : rows[evs.length]? = none →
          Recovered cfg.thresholdSeconds now s.tables (s.commit now rows evs).tables rows.length :=
        recovered_of_staged (h.staged i now rows evs hi) h.wf
      simp only [sweepStep]
      split
      · exact Or.inl (.move rfl rfl rfl fun n h => by cases h)
      · exact Or.inl (.fail ..)
      · exact Or.inl (.fail ..)
      · rename_i hdone
        exact Or.inr ⟨now, rows, evs, hi, List.getElem?_set_self hlt, hrecovered hdone⟩
      · exact Or.inl (.fail ..)
      · rename_i hdone
        exact Or.inr ⟨now, rows, evs, hi, List.getElem?_set_self hlt, hrecovered hdone⟩
    | returned count err => exact Or.inl (.refl s i)

/-- A threshold of `k` seconds. -/
theorem thresholdSeconds_eq {cfg : SweeperConfig} {k : Int} (hk : 1 ≤ k)
    (hcfg : cfg.threshold = k * 1000000000) : cfg.thresholdSeconds = k := by
  unfold SweeperConfig.thresholdSeconds Duration.seconds
  have hpos : 0 < k * 1000000000 := by omega
  rw [hcfg, if_neg (not_le.mpr hpos)]
  exact Int.mul_tdiv_cancel k (by decide)

/-- Every run of concurrent sweeps and other writers.  A step of a sweep
changes nothing, or commits a recovery of exactly the overdue rows and returns
their number, unless the answer of the `COMMIT` is lost; and every lease is ended
at most once, so it has at most one expire event and none if something else ended
it. -/
theorem sweeper_exact (cfg : SweeperConfig) (k : Int) (hk : 1 ≤ k)
    (hcfg : cfg.threshold = k * 1000000000) (clock : Time) (as : List Action) :
    (∀ i answer,
      Untouched (reach cfg clock as) (reach cfg clock (as ++ [.sweep i answer])) i ∨
      ∃ now rows evs, (reach cfg clock as).sweeps[i]? = some (.updated now rows evs) ∧
        (reach cfg clock (as ++ [.sweep i answer])).sweeps[i]? =
          some (committedReturn rows.length answer) ∧
        Recovered k now (reach cfg clock as).tables
          (reach cfg clock (as ++ [.sweep i answer])).tables rows.length) ∧
    ((reach cfg clock as).ledger.log.map Entry.lease).Nodup ∧
    ∀ e ∈ (reach cfg clock as).tables.events, e.status = .expire →
      ∃ x ∈ (reach cfg clock as).ledger.log, x.job = e.jobId ∧ x.ending = .expired e := by
  have hinv := reach_inv cfg clock as
  refine ⟨?_, hinv.ledger.once, hinv.ledger.logged⟩
  intro i answer
  have hlast : reach cfg clock (as ++ [.sweep i answer]) =
      step cfg (reach cfg clock as) (.sweep i answer) := by
    unfold reach
    rw [List.foldl_append, List.foldl_cons, List.foldl_nil]
  rw [hlast, ← thresholdSeconds_eq hk hcfg]
  exact sweep_step_cases hinv i answer

/-- A worker takes a job and is not heard of for five minutes and a second. -/
def lateRun : List Action :=
  [.other (.snifferEnqueue ⟨"t", "/a", "/b", "localfs", "localfs"⟩),
    .other (.leaseJob "pod-w0" []), .tick 301000000,
    .call, .sweep 0 .ok, .sweep 0 .ok, .sweep 0 .ok, .sweep 0 .ok, .sweep 0 .ok]

/-- The default threshold: the lease of the late run is logged once, with the
expire event of the sweep. -/
theorem sweeper_exact_default :
    (reach ⟨300000000000⟩ 0 lateRun).ledger.log.map Entry.lease = [(1, 1)] ∧
      ((reach ⟨300000000000⟩ 0 lateRun).ledger.log.map Entry.lease).Nodup :=
  ⟨by decide, (sweeper_exact ⟨300000000000⟩ 300 (by decide) (by decide) 0 lateRun).2.1⟩

end ImgSync.Sweeper
