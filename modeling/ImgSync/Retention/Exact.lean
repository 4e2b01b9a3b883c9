import ImgSync.Lib.Run
import ImgSync.Queue.Audit
import ImgSync.Retention.Run

/-!
# A retention sweep deletes exactly the outdated rows

The other writers do not touch a terminal row, so what a batch has taken stays
outdated (`Loop.other`).  In a run of timely statements the rows that the sweep may
delete are fixed when its loop starts: a row that becomes terminal later is not
before the cutoff (`outdated_exec`).  Every full batch takes as many of them as a
batch has, so the loop ends (`deleting_foldl`); the short batch takes the rest, so
the `COMMIT` deletes all of them (`Complete.without_eq`).
-/

namespace ImgSync.Retention

open ImgSync.Lib ImgSync.Queue ImgSync.Worker

/-! ## The outdated rows are fixed -/

section Frozen

variable {start now : Time} {k : Int} {op : Op} {t : Tables} {r r' : JobRow}
  {kinds : List EventStatus}

theorem outdated_of_not_terminal (h : r.status.Terminal = false) : outdated start k r = false := by
  rw [outdated, h, Bool.false_and]

/-- No statement makes a row outdated when its clock is not before the cutoff. -/
theorem rowStep_not_outdated (h : RowStep now op r r' kinds)
    (hnow : start - secondsInterval k ≤ now) (ho : outdated start k r = false) :
    outdated start k r' = false := by
  have hlate : decide (now < start - secondsInterval k) = false :=
    decide_eq_false (not_lt.mpr hnow)
  cases h with
  | keep => exact ho
  | lease | drain | expire | retry => exact outdated_of_not_terminal rfl
  | succeed | finish =>
    show (_ && decide (now < start - secondsInterval k)) = false
    rw [hlate, Bool.and_false]

theorem not_isRetention (hop : isRetention op = false) : ¬op.IsRetention := by
  cases op <;> first | exact id | cases hop

theorem terminal_of_outdated (h : outdated start k r = true) : r.status.Terminal = true := by
  rw [outdated, Bool.and_eq_true] at h
  exact h.1

/-- A job whose row is not outdated does not become so in a timely statement. -/
theorem not_outdated_exec (hwf : t.Wf) (hnow : start - secondsInterval k ≤ now) {id : Nat}
    (h : ∀ r ∈ t.jobs, r.id = id → outdated start k r = false) (hr : r ∈ (exec t now op).jobs)
    (hid : r.id = id) : outdated start k r = false := by
  by_cases hop : op.IsRetention
  · obtain ⟨keep, hpruned⟩ := exec_retention hwf now hop
    exact h r (hpruned.trail hr).1 hid
  · obtain ⟨d⟩ := exec_delta hwf now hop
    rcases d.mem_jobs.mp hr with ⟨x, hx, rfl⟩ | hnew
    · exact rowStep_not_outdated (d.rows x hx) hnow
        (h x hx ((d.rows x hx).immutable.1.symm.trans hid))
    · apply outdated_of_not_terminal
      rw [(d.created r hnew).pending]
      rfl

/-- The other writers leave the outdated rows as they are, and timely ones add
none. -/
theorem outdated_exec (hwf : t.Wf) (hop : isRetention op = false)
    (hnow : start - secondsInterval k ≤ now) :
    (exec t now op).jobs.filter (outdated start k) = t.jobs.filter (outdated start k) := by
  obtain ⟨d⟩ := exec_delta hwf now (not_isRetention hop)
  refine d.filter_eq (fun r hr ho => ?_) (fun r hr => rowStep_not_outdated (d.rows r hr) hnow)
    fun r hr => ?_
  · exact (d.rows r hr).eq_of_terminal (terminal_of_outdated ho)
  · apply outdated_of_not_terminal
    rw [(d.created r hr).pending]
    rfl

end Frozen

/-! ## One batch -/

section Batch

variable {cfg : RetentionConfig} {start : Time} {t : Tables} {gone : List Nat} {scan : Scan}
  {deleted : Nat}

/-- The rows that the sweep is to delete. -/
def eligible (cfg : RetentionConfig) (t : Tables) (start : Time) : List JobRow :=
  t.jobs.filter (outdated start (seconds cfg))

/-- Those that are not deleted yet. -/
def remaining (cfg : RetentionConfig) (t : Tables) (start : Time) (gone : List Nat) :
    List JobRow :=
  (without t gone).jobs.filter (outdated start (seconds cfg))

theorem mem_eligible {r : JobRow} :
    r ∈ eligible cfg t start ↔ r ∈ t.jobs ∧ outdated start (seconds cfg) r = true :=
  List.mem_filter

theorem mem_remaining {r : JobRow} :
    r ∈ remaining cfg t start gone ↔ r ∈ eligible cfg t start ∧ r.id ∉ gone := by
  simp only [remaining, without, Tables.deleteJobs, List.mem_filter, mem_eligible,
    Bool.not_eq_true', List.contains_eq_mem, decide_eq_false_iff_not]
  tauto

theorem batch_pos (cfg : RetentionConfig) : 0 < cfg.batch := by
  unfold RetentionConfig.batch
  split <;> omega

/-- The subquery answers the first rows that the scan meets. -/
theorem batchIds_eq : batchIds cfg t start gone scan =
    ((scan.order (remaining cfg t start gone)).take cfg.batch).map JobRow.id := by
  have hperm := scan.perm (remaining cfg t start gone)
  have hall : ∀ r ∈ scan.order (remaining cfg t start gone),
      (remaining cfg t start gone).contains r = true :=
    fun r hr => List.contains_iff_mem.mpr (hperm.mem_iff.mp hr)
  show (((scan.order (remaining cfg t start gone)).filter
    fun r => (remaining cfg t start gone).contains r).take cfg.batch).map JobRow.id = _
  rw [List.filter_eq_self.mpr hall]

theorem length_batchIds : (batchIds cfg t start gone scan).length =
    min cfg.batch (remaining cfg t start gone).length := by
  rw [batchIds_eq, List.length_map, List.length_take, (scan.perm _).length_eq]

theorem mem_batchIds {id : Nat} (h : id ∈ batchIds cfg t start gone scan) :
    ∃ r ∈ eligible cfg t start, r.id = id ∧ id ∉ gone := by
  rw [batchIds_eq] at h
  obtain ⟨r, hr, rfl⟩ := List.mem_map.mp h
  obtain ⟨helig, hnot⟩ := mem_remaining.mp ((scan.perm _).mem_iff.mp (List.mem_of_mem_take hr))
  exact ⟨r, helig, rfl, hnot⟩

theorem nodup_batchIds (hwf : t.Wf) : (batchIds cfg t start gone scan).Nodup := by
  have hsub : ((remaining cfg t start gone).map JobRow.id).Nodup :=
    hwf.ids.sublist ((List.filter_sublist.trans List.filter_sublist).map _)
  rw [batchIds_eq]
  exact (((scan.perm _).map JobRow.id).nodup_iff.mpr hsub).sublist ((List.take_sublist _ _).map _)

/-- A short batch takes all that is left. -/
theorem mem_of_short (hshort : (batchIds cfg t start gone scan).length < cfg.batch) {r : JobRow}
    (hr : r ∈ eligible cfg t start) : r.id ∈ gone ++ batchIds cfg t start gone scan := by
  by_cases hgone : r.id ∈ gone
  · exact List.mem_append_left _ hgone
  · refine List.mem_append_right _ ?_
    rw [length_batchIds] at hshort
    rw [batchIds_eq, List.take_of_length_le]
    · exact List.mem_map_of_mem ((scan.perm _).mem_iff.mpr (mem_remaining.mpr ⟨hr, hgone⟩))
    · rw [(scan.perm _).length_eq]
      omega

/-- The rows that the transaction has deleted so far. -/
structure Loop (cfg : RetentionConfig) (t : Tables) (start : Time) (gone : List Nat)
    (deleted : Nat) : Prop where
  nodup : gone.Nodup
  eligible : ∀ id ∈ gone, ∃ r ∈ eligible cfg t start, r.id = id
  count : deleted = gone.length

theorem Loop.batch (h : Loop cfg t start gone deleted) (hwf : t.Wf) :
    Loop cfg t start (gone ++ batchIds cfg t start gone scan)
      (deleted + (batchIds cfg t start gone scan).length) where
  nodup := by
    refine List.nodup_append'.mpr ⟨h.nodup, nodup_batchIds hwf, ?_⟩
    intro id hid hnew
    obtain ⟨r, -, -, hnot⟩ := mem_batchIds hnew
    exact hnot hid
  eligible := by
    intro id hid
    rcases List.mem_append.mp hid with hid | hid
    · exact h.eligible id hid
    · obtain ⟨r, hr, hrid, -⟩ := mem_batchIds hid
      exact ⟨r, hr, hrid⟩
  count := by rw [h.count, List.length_append]

/-- A batch never takes a row twice. -/
theorem Loop.deleted_le (h : Loop cfg t start gone deleted) :
    deleted ≤ (Retention.eligible cfg t start).length := by
  have hsub : gone ⊆ (Retention.eligible cfg t start).map JobRow.id := by
    intro id hid
    obtain ⟨r, hr, hrid⟩ := h.eligible id hid
    exact List.mem_map.mpr ⟨r, hr, hrid⟩
  have hle := (List.Nodup.subperm h.nodup hsub).length_le
  rw [h.count]
  simpa using hle

theorem length_without (h : Loop cfg t start gone deleted) (hwf : t.Wf) :
    (without t gone).jobs.length + deleted = t.jobs.length := by
  have hperm : ((t.jobs.filter fun r => gone.contains r.id).map JobRow.id).Perm gone := by
    refine (List.perm_ext_iff_of_nodup (hwf.ids.sublist (List.filter_sublist.map _))
      h.nodup).mpr fun id => ?_
    rw [List.mem_map]
    constructor
    · rintro ⟨r, hr, rfl⟩
      exact List.contains_iff_mem.mp (List.mem_filter.mp hr).2
    · intro hid
      obtain ⟨r, hr, rfl⟩ := h.eligible id hid
      exact ⟨r, List.mem_filter.mpr ⟨(mem_eligible.mp hr).1, List.contains_iff_mem.mpr hid⟩, rfl⟩
  have hlen := hperm.length_eq
  have hsplit := List.length_eq_length_filter_add (l := t.jobs) fun r => gone.contains r.id
  rw [List.length_map] at hlen
  show (t.jobs.filter fun r => !gone.contains r.id).length + deleted = t.jobs.length
  rw [h.count, ← hlen, hsplit]
  omega

/-- The deleted rows stay eligible while other clients write. -/
theorem Loop.other (h : Loop cfg t start gone deleted) (hwf : t.Wf) {op : Op}
    (hop : isRetention op = false) (now : Time) :
    Loop cfg (exec t now op) start gone deleted where
  nodup := h.nodup
  eligible := by
    intro id hid
    obtain ⟨r, hr, hrid⟩ := h.eligible id hid
    obtain ⟨hmem, hout⟩ := mem_eligible.mp hr
    have hstays := (exec_terminal hwf now op hmem (terminal_of_outdated hout)).2
      (not_isRetention hop)
    exact ⟨r, mem_eligible.mpr ⟨hstays, hout⟩, hrid⟩
  count := h.count

/-- A row of the deleted ids is outdated. -/
theorem Loop.outdated (h : Loop cfg t start gone deleted) (hwf : t.Wf) {r : JobRow}
    (hr : r ∈ t.jobs) (hid : r.id ∈ gone) : outdated start (seconds cfg) r = true := by
  obtain ⟨x, hx, hxid⟩ := h.eligible r.id hid
  obtain ⟨hmem, hout⟩ := mem_eligible.mp hx
  exact eq_of_key_eq hwf.ids hmem hr hxid ▸ hout

/-- The deleted rows are terminal, so the constraints of the schema stay. -/
theorem Loop.wf (h : Loop cfg t start gone deleted) (hwf : t.Wf) : (without t gone).Wf :=
  (deleteJobs_pruned hwf fun _ hr hid => terminal_of_outdated (h.outdated hwf hr hid)).wf hwf

/-- All eligible rows are deleted. -/
structure Complete (cfg : RetentionConfig) (t : Tables) (start : Time) (gone : List Nat)
    (deleted : Nat) : Prop extends Loop cfg t start gone deleted where
  all : ∀ r ∈ Retention.eligible cfg t start, r.id ∈ gone

theorem deleteJobs_congr {p q : JobRow → Bool} (h : ∀ r ∈ t.jobs, p r = q r) :
    t.deleteJobs p = t.deleteJobs q := by
  have hany : ∀ e : EventRow, (t.jobs.any fun r => p r && r.id == e.jobId) =
      t.jobs.any fun r => q r && r.id == e.jobId := by
    intro e
    rw [Bool.eq_iff_iff, List.any_eq_true, List.any_eq_true]
    refine exists_congr fun r => and_congr_right fun hr => ?_
    rw [h r hr]
  simp only [Tables.deleteJobs, hany]
  congr 1
  exact List.filter_congr fun r hr => by rw [h r hr]

theorem Complete.without_eq (h : Complete cfg t start gone deleted) (hwf : t.Wf) :
    without t gone = t.deleteJobs (outdated start (seconds cfg)) := by
  refine deleteJobs_congr fun r hr => ?_
  rw [Bool.eq_iff_iff, List.contains_iff_mem]
  exact ⟨h.outdated hwf hr, fun hout => h.all r (mem_eligible.mpr ⟨hr, hout⟩)⟩

theorem Complete.deleted_eq (h : Complete cfg t start gone deleted) (hwf : t.Wf) :
    deleted = (Retention.eligible cfg t start).length := by
  refine le_antisymm h.deleted_le ?_
  have hids : ((Retention.eligible cfg t start).map JobRow.id).Nodup :=
    hwf.ids.sublist (List.filter_sublist.map _)
  have hsub : (Retention.eligible cfg t start).map JobRow.id ⊆ gone := by
    intro id hid
    obtain ⟨r, hr, rfl⟩ := List.mem_map.mp hid
    exact h.all r hr
  have hle := (List.Nodup.subperm hids hsub).length_le
  rw [h.count]
  simpa using hle

end Batch

/-! ## The sweep alone -/

section Alone

variable {cfg : RetentionConfig} {now : Time} {t : Tables} {gone : List Nat} {deleted : Nat}

theorem deleteJobs_deleteJobs (p q : JobRow → Bool) :
    (t.deleteJobs p).deleteJobs q = t.deleteJobs fun r => p r || q r := by
  have hany : ∀ e : EventRow,
      (!((t.jobs.filter fun r => !p r).any fun r => q r && r.id == e.jobId) &&
        !t.jobs.any fun r => p r && r.id == e.jobId) =
      !t.jobs.any fun r => (p r || q r) && r.id == e.jobId := by
    intro e
    rw [← Bool.not_or, List.any_filter]
    congr 1
    induction t.jobs with
    | nil => rfl
    | cons r rows ih =>
      rw [List.any_cons, List.any_cons, List.any_cons, ← ih]
      cases p r <;> cases q r <;> cases r.id == e.jobId <;> simp
  simp only [Tables.deleteJobs, List.filter_filter]
  congr 1
  · exact List.filter_congr fun r _ => by cases p r <;> cases q r <;> rfl
  · exact List.filter_congr fun e _ => hany e

theorem without_append (ids : List Nat) :
    without (without t gone) ids = without t (gone ++ ids) := by
  rw [without, without, deleteJobs_deleteJobs]
  refine deleteJobs_congr fun r _ => ?_
  simp only [List.contains_eq_mem, List.mem_append, Bool.decide_or]

/-- The batch loop with nothing in between.  The induction is on the fuel, and
the loop's rows carry it. -/
theorem retentionLoop_eq (hwf : t.Wf) (scan : Scan) {fuel : Nat}
    (h : Loop cfg t now gone deleted)
    (hfuel : (eligible cfg t now).length < fuel + deleted) :
    retentionLoop scan.order now (seconds cfg) cfg.batch fuel (without t gone) deleted =
      (t.deleteJobs (outdated now (seconds cfg)), (eligible cfg t now).length) := by
  induction fuel generalizing gone deleted with
  | zero =>
    have hle := h.deleted_le
    omega
  | succ fuel ih =>
    have hbatch : Loop cfg t now (gone ++ batchIds cfg t now gone scan)
        (deleted + (batchIds cfg t now gone scan).length) := h.batch hwf
    have hcount : (without t gone).jobs.length -
        (without t (gone ++ batchIds cfg t now gone scan)).jobs.length =
          (batchIds cfg t now gone scan).length := by
      have hbefore := length_without h hwf
      have hafter := length_without hbatch hwf
      omega
    have hdelete : deleteBatch scan.order now (seconds cfg) cfg.batch (without t gone) =
        (without t (gone ++ batchIds cfg t now gone scan),
          (batchIds cfg t now gone scan).length) := by
      rw [← hcount, ← without_append]
      rfl
    rw [retentionLoop, hdelete]
    by_cases hshort : (batchIds cfg t now gone scan).length < cfg.batch
    · have hall : Complete cfg t now (gone ++ batchIds cfg t now gone scan)
          (deleted + (batchIds cfg t now gone scan).length) :=
        ⟨hbatch, fun r hr => mem_of_short hshort hr⟩
      simp only [hshort, if_true]
      rw [hall.without_eq hwf, hall.deleted_eq hwf]
    · simp only [hshort, if_false]
      refine ih hbatch ?_
      have hpos := batch_pos cfg
      omega

theorem without_nil : without t [] = t := by
  have hevents : (t.events.filter fun e =>
      !t.jobs.any fun r => ([] : List Nat).contains r.id && r.id == e.jobId) = t.events :=
    List.filter_eq_self.mpr fun e _ => by simp
  rw [without, Tables.deleteJobs, hevents]
  simp

/-- The transaction of the operation list is the same sweep. -/
theorem retentionSweep_eq (hwf : t.Wf) (scan : Scan) (hwindow : 0 < cfg.window) :
    retentionSweep scan.order t now cfg true =
      (t.deleteJobs (outdated now (seconds cfg)), (eligible cfg t now).length) := by
  have hloop : Loop cfg t now [] 0 := ⟨List.nodup_nil, by simp, rfl⟩
  have hle : (eligible cfg t now).length ≤ t.jobs.length := List.length_filter_le _ _
  have hrun : retentionLoop scan.order now (seconds cfg) cfg.batch (t.jobs.length + 1)
      (without t []) 0 = _ := retentionLoop_eq hwf scan hloop (by omega)
  rw [without_nil] at hrun
  rw [retentionSweep, if_neg (not_le.mpr hwindow), if_neg (by decide)]
  exact hrun

end Alone

/-! ## Whole runs -/

section Runs

variable {cfg : RetentionConfig} {s : Server}

/-- What the local variables of the call mean. -/
def PhaseInv (cfg : RetentionConfig) (t : Tables) : Phase → Prop
  | .deleting start gone deleted | .drained start gone deleted => Loop cfg t start gone deleted
  | _ => True

structure Inv (cfg : RetentionConfig) (s : Server) : Prop where
  wf : s.tables.Wf
  phase : PhaseInv cfg s.tables s.phase

/-- The clock of the transaction, while the call holds the lock. -/
def Phase.sweeping : Phase → Option Time
  | .deleting start _ _ | .drained start _ _ => some start
  | _ => none

theorem Phase.start_of_sweeping {ph : Phase} {start : Time} (h : ph.sweeping = some start) :
    ph.start = some start := by
  cases ph <;> first | exact h | cases h

/-- While the call holds the lock, no other retention sweep is admitted. -/
theorem admits_not_retention {start : Time} {op : Op} (h : s.phase.sweeping = some start)
    (hguard : s.admits op = true) : isRetention op = false := by
  unfold Server.admits at hguard
  cases hph : s.phase with
  | begun | returned =>
    rw [hph] at h
    cases h
  | deleting _ gone _ | drained _ gone _ =>
    rw [hph] at hguard
    exact Bool.not_eq_true' _ ▸ (Bool.and_eq_true_iff.mp hguard).1

/-- A timely statement of another client leaves the eligible rows. -/
theorem admitted_eligible (hwf : s.tables.Wf) {start now : Time} {op : Op}
    (h : s.phase.sweeping = some start) (hguard : s.admits op = true)
    (htimely : Timely cfg s (.other now op)) :
    eligible cfg (exec s.tables now op) start = eligible cfg s.tables start :=
  outdated_exec hwf (admits_not_retention h hguard) (htimely start (Phase.start_of_sweeping h))

theorem PhaseInv.other (hwf : s.tables.Wf) (h : PhaseInv cfg s.tables s.phase) (now : Time)
    {op : Op} (hguard : s.admits op = true) :
    PhaseInv cfg (exec s.tables now op) s.phase := by
  have hop : ∀ start, s.phase.sweeping = some start → isRetention op = false :=
    fun _ hstart => admits_not_retention hstart hguard
  cases hph : s.phase with
  | begun start => trivial
  | returned deleted err => trivial
  | deleting start gone deleted | drained start gone deleted =>
    rw [hph] at h hop
    exact Loop.other h hwf (hop start rfl) now

theorem step_inv (h : Inv cfg s) (a : Action) : Inv cfg (step cfg s a) := by
  have hphase := h.phase
  cases a with
  | lock answer =>
    simp only [step]
    split
    · split
      · exact ⟨h.wf, trivial⟩
      · split
        · exact ⟨h.wf, List.nodup_nil, by simp, rfl⟩
        · exact ⟨h.wf, trivial⟩
    · exact h
  | delete answer =>
    simp only [step]
    split
    · rename_i start gone deleted hph
      rw [hph] at hphase
      have hbatch : ∀ scan, Loop cfg s.tables start (gone ++ batchIds cfg s.tables start gone scan)
          (deleted + (batchIds cfg s.tables start gone scan).length) :=
        fun _ => Loop.batch hphase h.wf
      split
      · exact ⟨h.wf, trivial⟩
      · split
        · exact ⟨h.wf, hbatch _⟩
        · exact ⟨h.wf, hbatch _⟩
    · exact h
  | commit fault =>
    simp only [step]
    split
    · rename_i start gone deleted hph
      rw [hph] at hphase
      have hwf' : (without s.tables gone).Wf := Loop.wf hphase h.wf
      split
      · exact ⟨hwf', trivial⟩
      · exact ⟨h.wf, trivial⟩
      · exact ⟨hwf', trivial⟩
    · exact h
  | other now op =>
    simp only [step]
    split
    · rename_i hguard
      exact ⟨exec_wf h.wf now op, hphase.other h.wf now hguard⟩
    · exact h

theorem reach_inv {t : Tables} (hwf : t.Wf) (begin : Except String Time) (as : List Action) :
    Inv cfg (reach cfg t begin as) := by
  refine foldl_invariant (Inv cfg) (fun _ a h => step_inv h a) ?_ as
  unfold beginTx
  split
  · exact ⟨hwf, trivial⟩
  · split
    · exact ⟨hwf, trivial⟩
    · exact ⟨hwf, trivial⟩

/-- The short batch has left nothing that is eligible. -/
def Finished (cfg : RetentionConfig) (s : Server) : Prop :=
  ∀ start gone deleted, s.phase = .drained start gone deleted →
    ∀ r ∈ eligible cfg s.tables start, r.id ∈ gone

/-- The call is past its loop after a step: it was so before, or this was the short
batch. -/
theorem drained_step {a : Action} {start : Time} {gone : List Nat} {deleted : Nat}
    (hph : (step cfg s a).phase = .drained start gone deleted) :
    (s.phase = .drained start gone deleted ∧ ((step cfg s a).tables = s.tables ∨
      ∃ now op, a = .other now op ∧ s.admits op = true ∧
        (step cfg s a).tables = exec s.tables now op)) ∨
    (step cfg s a).tables = s.tables ∧ ∃ before scan, gone = before ++
      batchIds cfg s.tables start before scan ∧
      (batchIds cfg s.tables start before scan).length < cfg.batch := by
  cases a with
  | lock answer =>
    cases hs : s.phase with
    | begun start' =>
      rcases answer with e | locked
      · simp only [step, hs] at hph
        cases hph
      · cases locked <;> simp only [step, hs] at hph <;> cases hph
    | deleting | drained | returned =>
      simp only [step, hs] at hph ⊢
      exact Or.inl ⟨hph, Or.inl trivial⟩
  | delete answer =>
    cases hs : s.phase with
    | deleting start' before n =>
      rcases answer with e | scan
      · simp only [step, hs] at hph
        cases hph
      · by_cases hshort : (batchIds cfg s.tables start' before scan).length < cfg.batch
        · simp only [step, hs, hshort, if_true] at hph ⊢
          cases hph
          exact Or.inr ⟨trivial, before, scan, rfl, hshort⟩
        · simp only [step, hs, hshort, if_false] at hph
          cases hph
    | begun | drained | returned =>
      simp only [step, hs] at hph ⊢
      exact Or.inl ⟨hph, Or.inl trivial⟩
  | commit fault =>
    cases hs : s.phase with
    | drained => rcases fault with _ | ⟨e | e⟩ <;> simp only [step, hs] at hph <;> cases hph
    | begun | deleting | returned =>
      simp only [step, hs] at hph ⊢
      exact Or.inl ⟨hph, Or.inl trivial⟩
  | other now op =>
    left
    by_cases hguard : s.admits op = true
    · have hstep : step cfg s (.other now op) = { s with tables := exec s.tables now op } :=
        if_pos hguard
      rw [hstep] at hph ⊢
      exact ⟨hph, Or.inr ⟨now, op, rfl, hguard, rfl⟩⟩
    · have hstep : step cfg s (.other now op) = s := if_neg hguard
      rw [hstep] at hph ⊢
      exact ⟨hph, Or.inl rfl⟩

theorem finished_step (h : Inv cfg s) (hfin : Finished cfg s) {a : Action}
    (htimely : Timely cfg s a) : Finished cfg (step cfg s a) := by
  intro start gone deleted hph r hr
  rcases drained_step hph with ⟨hs, htables | ⟨now, op, rfl, hguard, htables⟩⟩ |
    ⟨htables, before, scan, rfl, hshort⟩
  · rw [htables] at hr
    exact hfin start gone deleted hs r hr
  · have hsweeping : s.phase.sweeping = some start := by
      rw [hs]
      rfl
    rw [htables, admitted_eligible h.wf hsweeping hguard htimely] at hr
    exact hfin start gone deleted hs r hr
  · rw [htables] at hr
    exact mem_of_short hshort hr

theorem foldl_finished (h : Inv cfg s) (hfin : Finished cfg s) {as : List Action}
    (htimely : AllSteps (step cfg) (Timely cfg) s as) :
    Finished cfg (as.foldl (step cfg) s) :=
  (foldl_all (fun s => Inv cfg s ∧ Finished cfg s)
    (fun _ a h ht => ⟨step_inv h.1 a, finished_step h.1 h.2 ht⟩) ⟨h, hfin⟩ htimely).2

theorem finished_begin (t : Tables) (begin : Except String Time) :
    Finished cfg (beginTx cfg t begin) := by
  intro start gone deleted hph
  unfold beginTx at hph
  split at hph
  · cases hph
  · cases begin <;> cases hph

/-! ## The loop ends -/

/-- Whether the action is a `DELETE` of the loop. -/
def Action.isDelete : Action → Bool
  | .delete _ => true
  | _ => false

/-- The loop is over. -/
def Phase.pastLoop : Phase → Bool
  | .drained _ _ _ | .returned _ _ => true
  | _ => false

theorem pastLoop_step (h : s.phase.pastLoop = true) (a : Action) :
    (step cfg s a).phase.pastLoop = true := by
  cases hph : s.phase with
  | begun | deleting =>
    rw [hph] at h
    cases h
  | drained start gone deleted =>
    cases a with
    | lock | delete =>
      simp only [step, hph]
      rfl
    | commit fault => rcases fault with _ | ⟨e | e⟩ <;> simp only [step, hph] <;> rfl
    | other now op =>
      simp only [step]
      split
      · exact h
      · exact h
  | returned deleted err =>
    cases a with
    | lock | delete | commit =>
      simp only [step, hph]
      rfl
    | other now op =>
      simp only [step]
      split
      · exact h
      · exact h

theorem pastLoop_foldl (cfg : RetentionConfig) (h : s.phase.pastLoop = true) (as : List Action) :
    (as.foldl (step cfg) s).phase.pastLoop = true :=
  foldl_invariant (fun s : Server => s.phase.pastLoop = true) (fun _ a h => pastLoop_step h a) h as

/-- A step out of the loop's top: it is left, or a full batch is deleted, or
nothing happens. -/
theorem deleting_step (cfg : RetentionConfig) {start : Time} {gone : List Nat} {deleted : Nat}
    (hph : s.phase = .deleting start gone deleted) (a : Action) :
    (step cfg s a).phase.pastLoop = true ∨ ∃ gone', (step cfg s a).phase = .deleting start gone'
      (deleted + if a.isDelete then cfg.batch else 0) := by
  cases a with
  | lock | commit =>
    right
    simp only [step, hph]
    exact ⟨gone, rfl⟩
  | delete answer =>
    cases answer with
    | error e =>
      simp only [step, hph]
      exact Or.inl rfl
    | ok scan =>
      simp only [step, hph]
      split
      · exact Or.inl rfl
      · rename_i hfull
        have hlen : (batchIds cfg s.tables start gone scan).length = cfg.batch := by
          have hle : (batchIds cfg s.tables start gone scan).length ≤ cfg.batch := by
            rw [length_batchIds]
            omega
          omega
        rw [hlen]
        exact Or.inr ⟨_, rfl⟩
  | other now op =>
    right
    simp only [step]
    split
    · exact ⟨gone, hph⟩
    · exact ⟨gone, hph⟩

/-- The number of deleted rows grows by a batch with every `DELETE`. -/
theorem deleting_foldl (cfg : RetentionConfig) {start : Time} {gone : List Nat} {deleted : Nat}
    (hph : s.phase = .deleting start gone deleted) (as : List Action) :
    (as.foldl (step cfg) s).phase.pastLoop = true ∨
      ∃ gone', (as.foldl (step cfg) s).phase =
        .deleting start gone' (deleted + as.countP Action.isDelete * cfg.batch) := by
  induction as generalizing s gone deleted with
  | nil => exact Or.inr ⟨gone, by simpa using hph⟩
  | cons a as ih =>
    rcases deleting_step cfg hph a with hpast | ⟨gone₁, hstep⟩
    · exact Or.inl (pastLoop_foldl cfg hpast as)
    · rcases ih hstep with hpast | ⟨gone₂, hend⟩
      · exact Or.inl hpast
      · refine Or.inr ⟨gone₂, ?_⟩
        rw [List.foldl_cons, hend, List.countP_cons]
        congr 1
        split <;> rw [Nat.add_mul] <;> omega

end Runs

end ImgSync.Retention
