import ImgSync.Worker.Pods

/-!
# The load of a pod

A loop leases its next job when it is done with the last one, so a pod works on at
most `Workers` jobs at a time.  `Single` is the invariant of one loop: it holds at
most the row of its job.  It needs that the database answers.  A loop whose lease
gets lost goes on with another job and holds two rows, and so does one whose outcome
or recovery write fails.  A pod that dies, or whose drain fails, leaves its rows
leased, and holds them next to new ones when it is started again.

`pod_load` counts the rows that are leased under the names of a pod.
-/

namespace ImgSync.Worker

open ImgSync.Lib ImgSync.Queue

/-! ## One loop -/

/-- No answer of a lease gets lost, no outcome statement fails on a live context, and no
recovery write and no drain fails. -/
def LoopAction.answered : LoopAction → Bool
  | .leased _ .lost => false
  | .wrote fails _ _ | .panicked _ _ _ fails | .drained fails => !fails
  | _ => true

section Single

variable {w : String} {s : LoopState}

/-- A loop holds at most the row of its job, and between two jobs nothing.  After the
cancellation it can hold the row of its last job until the drain. -/
structure Single (w : String) (s : LoopState) : Prop where
  free : s.pos.atJob = false → s.cancelled = false →
    ∀ r ∈ s.system.tables.jobs, heldBy w r = false
  mine : ∀ job n stage, s.system.workers w = .working job n stage →
    ∀ r ∈ s.system.tables.jobs, heldBy w r = true → r.id = job.id
  one : ∀ r ∈ s.system.tables.jobs, ∀ r' ∈ s.system.tables.jobs, heldBy w r = true →
    heldBy w r' = true → r = r'

/-- A loop that holds nothing. -/
theorem single_of_none (h : ∀ r ∈ s.system.tables.jobs, heldBy w r = false) : Single w s := by
  have hnone : ∀ r ∈ s.system.tables.jobs, heldBy w r ≠ true := by
    intro r hr
    rw [h r hr]
    exact Bool.false_ne_true
  exact ⟨fun _ _ => h, fun _ _ _ _ r hr hheld => absurd hheld (hnone r hr),
    fun r hr _ _ hheld => absurd hheld (hnone r hr)⟩

theorem Single.move (h : Single w s) {pos : Pos} (hpos : pos.atJob = s.pos.atJob) :
    Single w { s with pos := pos } where
  free := fun hjob => h.free (hpos ▸ hjob)
  mine := h.mine
  one := h.one

/-- What a worker holds it held before, unless the step is its own. -/
theorem held_of_other {sys : System} (hinv : SystemInv sys) {a : Time × Action}
    (ha : a.2.worker ≠ some w) {r : JobRow} (hr : r ∈ (step sys a).tables.jobs)
    (hheld : heldBy w r = true) : r ∈ sys.tables.jobs := by
  have hleased := leased_of_heldBy hheld
  obtain ⟨now, act⟩ := a
  cases hact : act.worker with
  | none =>
    cases act with
    | external op => exact leased_external hinv hr hleased
    | _ => cases hact
  | some v =>
    rcases leased_step hinv hact hr hleased with hold | hv
    · exact hold
    · have hname := (lockedBy_of_heldBy hv).symm.trans (lockedBy_of_heldBy hheld)
      exact absurd (hact.trans hname) ha

theorem Single.other (h : Single w s) (hinv : SystemInv s.system) {a : Time × Action}
    (ha : a.2.worker ≠ some w) : Single w { s with system := step s.system a } where
  free := by
    intro hjob hlive r hr
    refine Bool.eq_false_iff.mpr fun hheld => ?_
    rw [h.free hjob hlive r (held_of_other hinv ha hr hheld)] at hheld
    cases hheld
  mine := by
    intro job n stage hw r hr hheld
    rw [workers_step ha] at hw
    exact h.mine job n stage hw r (held_of_other hinv ha hr hheld) hheld
  one := by
    intro r hr r' hr' hheld hheld'
    exact h.one r (held_of_other hinv ha hr hheld) r' (held_of_other hinv ha hr' hheld') hheld
      hheld'

/-- The two answers of a lease: the worker stays idle and the tables as they are, or
it has a job and the only new row under its name is the row of the job. -/
theorem lease_answer {sys : System} (hinv : SystemInv sys) (hidle : sys.workers w = .idle)
    (now : Time) (rowLocked : List Nat) {sys' : System}
    (hsys' : sys' = step sys (now, .lease w rowLocked false)) :
    sys'.workers w = .idle ∧ sys'.tables = sys.tables ∨
      ∃ job n, sys'.workers w = .working job n .running ∧
        ∀ r ∈ sys'.tables.jobs, r ∈ sys.tables.jobs ∨ r = job := by
  subst hsys'
  simp only [step, hidle]
  rcases leaseJob_cases sys.tables now w rowLocked with hnone | ⟨x, hx, -, hsome⟩
  · refine Or.inl ?_
    simp only [hnone, System.exec, exec]
    exact ⟨hidle, trivial⟩
  · refine Or.inr ⟨lease now w x, sys.nextLease, ?_⟩
    simp only [hsome, System.exec, exec, System.grant, System.setWorker, Bool.false_eq_true,
      if_false, Function.update_self, true_and]
    intro r hr
    rcases mem_leased_jobs hr with ⟨y, hy, hid, rfl⟩ | ⟨hkept, -⟩
    · rw [eq_of_key_eq hinv.wf.ids hy hx hid]
      exact Or.inr rfl
    · exact Or.inl hkept

theorem Single.lease (h : Single w s) (hinv : SystemInv s.system) (hagrees : Agrees w s)
    (hpos : s.pos = .leasing) (hlive : s.cancelled = false) (now : Time) (rowLocked : List Nat) :
    Single w (s.lease w now rowLocked .arrived) := by
  have hjob : s.pos.atJob = false := by rw [hpos]; rfl
  have hfree := h.free hjob hlive
  have hanswer := lease_answer hinv (hagrees.idle hjob) now rowLocked rfl
  simp only [LoopState.lease]
  rcases hanswer with ⟨hidle, htables⟩ | ⟨job, n, hworking, hrows⟩
  · rw [hidle]
    refine single_of_none fun r hr => hfree r ?_
    rwa [← htables]
  · rw [hworking]
    have hheld : ∀ r ∈ (step s.system (now, .lease w rowLocked false)).tables.jobs,
        heldBy w r = true → r = job := by
      intro r hr hheld
      refine (hrows r hr).resolve_left fun hold => ?_
      rw [hfree r hold] at hheld
      cases hheld
    refine ⟨fun hno => (by cases hno), ?_, ?_⟩
    · intro job' n' stage hw r hr hby
      rw [hworking] at hw
      cases hw
      rw [hheld r hr hby]
    · intro r hr r' hr' hby hby'
      rw [hheld r hr hby, hheld r' hr' hby']

/-- A statement of a worker gives up its row. -/
theorem heldBy_issued {sys : System} (hinv : SystemInv sys) {n : Nat} {st : Statement}
    (hst : Issues sys w n st) (hmine : ∀ r ∈ sys.tables.jobs, heldBy w r = true → r.id = st.job.id)
    (now : Time) {r : JobRow} (hr : r ∈ (st.exec sys.tables now w).1.jobs) :
    heldBy w r = false := by
  refine Bool.eq_false_iff.mpr fun hheld => ?_
  have hleased := leased_of_heldBy hheld
  have hold : r ∈ sys.tables.jobs := by
    have hop : ∀ v rl, Op.outcome w st ≠ .leaseJob v rl := by simp
    exact exec_leased hinv.wf now hop hr hleased
  have hid : r.id = st.job.id := hmine r hold hheld
  -- The guard passes, so the statement has rewritten the row.
  have hguard : leaseGuard st.job.id w r = true :=
    leaseGuard_iff.mpr ⟨hid, hleased, lockedBy_of_heldBy hheld⟩
  obtain ⟨-, hunder, hnumber⟩ := (hinv.guard_iff hst hold).mp hguard
  obtain ⟨-, x, hx, hxid, -, hexec⟩ := hinv.exec_held hst now ⟨r, hold, hid, hunder, hnumber⟩
  rw [hexec] at hr
  obtain ⟨y, hy, hyr⟩ := List.mem_map.mp hr
  by_cases hyx : y.id = x.id
  · rw [if_pos (by simpa using hyx)] at hyr
    rw [← hyr] at hleased
    exact Statement.set_status _ now y hleased
  · rw [if_neg (by simpa using hyx)] at hyr
    subst hyr
    exact hyx (hid.trans hxid.symm)

/-- The outcome statement. -/
theorem heldBy_written {sys : System} (hinv : SystemInv sys) {job : Job} {n : Nat}
    (hw : sys.workers w = .working job n .running)
    (hmine : ∀ r ∈ sys.tables.jobs, heldBy w r = true → r.id = job.id) (now : Time) (run : JobRun)
    {r : JobRow} (hr : r ∈ (step sys (now, .write w run)).tables.jobs) : heldBy w r = false := by
  simp only [step, hw] at hr
  refine heldBy_issued hinv (.main run hw) ?_ now hr
  rwa [(processOne_sound job run).2]

/-- The recovery write. -/
theorem heldBy_recovered {sys : System} (hinv : SystemInv sys) {job : Job} {n : Nat} {stage : Stage}
    (hw : sys.workers w = .working job n stage)
    (hmine : ∀ r ∈ sys.tables.jobs, heldBy w r = true → r.id = job.id) (now : Time)
    (rec_ : GoString) (backoffMs : Int) {r : JobRow}
    (hr : r ∈ (step sys (now, .recover w rec_ backoffMs)).tables.jobs) : heldBy w r = false := by
  simp only [step, hw] at hr
  refine heldBy_issued hinv (.recovery rec_ backoffMs hw) ?_ now hr
  rwa [recoveryWrite, (writeRetryOrDead_sound job _ _).2]

/-- A panic whose recovery write succeeds, before or behind the outcome statement. -/
theorem Single.panicked (h : Single w s) (hinv : SystemInv s.system) (hagrees : Agrees w s)
    (hjob : s.pos.atJob = true) (now : Time) (behind : Option (Bool × Int × Int)) (rec_ : GoString)
    (backoffMs : Int) {r : JobRow}
    (hr : r ∈ (((s.panicActs w behind rec_ backoffMs false).map fun a => (now, a)).foldl step
      s.system).tables.jobs) : heldBy w r = false := by
  obtain ⟨job, n, hw⟩ := hagrees.working hjob
  have hmine := h.mine job n .running hw
  unfold LoopState.panicActs at hr
  dsimp only at hr
  split at hr
  · rename_i run fails durationMs backoffMs' _
    refine heldBy_recovered (step_inv s.system _ hinv) (workers_outcome hw now _ _) ?_ now rec_
      backoffMs hr
    intro x hx hheld
    cases hfails : s.cancelled || fails with
    | true =>
      rw [hfails, if_pos rfl, step_tables_eq] at hx
      exact hmine x hx hheld
    | false =>
      rw [hfails, if_neg Bool.false_ne_true] at hx
      rw [heldBy_written hinv hw hmine now _ hx] at hheld
      cases hheld
  · exact heldBy_recovered hinv hw hmine now rec_ backoffMs hr

theorem Single.write (h : Single w s) (hinv : SystemInv s.system) (hagrees : Agrees w s)
    (hjob : s.pos.atJob = true) (now : Time) (run : JobRun) :
    Single w (s.write w now false run) := by
  obtain ⟨job, n, hw⟩ := hagrees.working hjob
  rw [LoopState.write, Bool.or_false]
  cases hlive : s.cancelled with
  | true =>
    have htables : (step (step s.system (now, .writeFails w)) (now, .finish w)).tables =
        s.system.tables := by
      rw [step_tables_eq, step_tables_eq]
      rfl
    have hidle : (step (step s.system (now, .writeFails w)) (now, .finish w)).workers w =
        .idle := by
      simp [step, hw, System.setWorker]
    refine ⟨fun _ hno => ?_, fun job' n' stage hw' => ?_, ?_⟩
    · cases hno
    · rw [if_pos rfl, hidle] at hw'
      cases hw'
    · simp only [if_true, htables]
      exact h.one
  | false =>
    refine single_of_none fun r hr =>
      heldBy_written hinv hw (h.mine job n .running hw) now run ?_
    simp only [Bool.false_eq_true, if_false] at hr
    rw [step_tables_eq] at hr
    exact hr

theorem Single.onlyMoves (h : Single w s) {a : Time × LoopAction} (ha : a.2.onlyMoves = true) :
    Single w (loopStep w s a) := by
  obtain ⟨pos, hpos, heq⟩ := loopStep_onlyMoves (w := w) (s := s) ha
  rw [heq]
  exact h.move hpos

theorem Single.step (h : Single w s) (hinv : SystemInv s.system) (hagrees : Agrees w s)
    {a : Time × LoopAction} (hans : a.2.answered = true) : Single w (loopStep w s a) := by
  obtain ⟨now, act⟩ := a
  cases act with
  | other b =>
    simp only [loopStep]
    split
    · exact h
    · rename_i hne
      exact h.other hinv hne
  | cancel => exact ⟨fun _ hno => (by cases hno), h.mine, h.one⟩
  | checked | woken | lookedUp | opened | sent | closed | unwound =>
    exact h.onlyMoves rfl
  | leased rowLocked answer =>
    simp only [loopStep]
    split
    · rename_i hpos
      split
      · exact h.move (by rw [hpos]; rfl)
      · rename_i hlive
        cases answer with
        | failed => exact h.move (by rw [hpos]; rfl)
        | lost => cases hans
        | arrived => exact h.lease hinv hagrees hpos (Bool.eq_false_iff.mpr hlive) now rowLocked
    · exact h
  | wrote fails durationMs backoffMs =>
    obtain rfl : fails = false := by simpa [LoopAction.answered] using hans
    simp only [loopStep]
    split
    · rename_i run hpos
      exact h.write hinv hagrees (by rw [hpos]; rfl) now _
    · exact h
  | panicked behind rec_ backoffMs fails =>
    obtain rfl : fails = false := by simpa [LoopAction.answered] using hans
    simp only [loopStep]
    split
    · rename_i hjob
      exact single_of_none fun r hr => h.panicked hinv hagrees hjob now behind rec_ backoffMs hr
    · exact h
  | drained fails =>
    obtain rfl : fails = false := by simpa [LoopAction.answered] using hans
    cases hpos : s.pos with
    | draining =>
      refine single_of_none fun r hr => ?_
      rw [tables_drained hagrees hpos now] at hr
      exact heldBy_drainLease hr
    | _ =>
      simp only [loopStep, hpos]
      exact h

end Single

/-! ## The loops of a pod -/

section Load

variable {ι : Type} [DecidableEq ι] {runners : ι → Runner} {c : Cluster ι}

/-- The database answers the pod, and its process does not die. -/
def ClusterAction.answered (p : ι) : ClusterAction ι → Bool
  | .crash q => decide (q ≠ p)
  | .loop q _ a => decide (q ≠ p) || a.answered
  | _ => true

/-- A pod that the database answers takes graceful actions only. -/
theorem graceful_of_answered {p : ι} {a : ClusterAction ι} (h : a.answered p = true) :
    ∀ q, q = p → a.graceful q = true := by
  rintro q rfl
  cases a with
  | external | start | cancel => rfl
  | crash p => exact h
  | loop p idx act =>
    cases act with
    | drained fails => exact h
    | _ => rfl

theorem answered_view {p : ι} {a : Time × ClusterAction ι} (ha : a.2.answered p = true)
    (idx : Nat) : ∀ x ∈ view runners c p idx a, x.2.answered = true := by
  obtain ⟨now, act⟩ := a
  have hother : ∀ (acts : List (Time × Action)) (x : Time × LoopAction),
      x ∈ acts.map (fun y => (y.1, .other y.2)) → x.2.answered = true := by
    intro acts x hx
    obtain ⟨y, -, rfl⟩ := List.mem_map.mp hx
    rfl
  cases act with
  | external op => simp [view, LoopAction.answered]
  | start q => simp [view]
  | cancel q =>
    simp only [view]
    split <;> simp [LoopAction.answered]
  | crash q =>
    simp only [view]
    split
    · simp
    · exact hother _
  | loop q j b =>
    simp only [view]
    split
    · split
      · rename_i hme
        intro x hx
        obtain rfl := List.mem_singleton.mp hx
        simpa [ClusterAction.answered, hme.1] using ha
      · exact hother _
    · simp

theorem single_clusterStep (hnames : NamesDiffer runners) {p : ι}
    (h : ClusterInv runners (fun q => q = p) c) {a : Time × ClusterAction ι}
    (ha : a.2.answered p = true) {idx : Nat} (hidx : idx < (runners p).loops)
    (hsingle : Single ((runners p).loopName idx) (c.loop p idx)) :
    Single ((runners p).loopName idx) ((clusterStep runners c a).loop p idx) := by
  by_cases hstart : a.2 = .start p
  · obtain ⟨now, act⟩ := a
    obtain rfl : act = .start p := hstart
    simp only [clusterStep]
    split
    · rename_i hret
      refine single_of_none fun r hr => Bool.eq_false_iff.mpr fun hheld => ?_
      have hdone := isReturned_of_returned hret hidx
      rw [(h.runs_of_held hnames rfl hr hheld).2] at hdone
      cases hdone
    · exact hsingle
  · have hcrash : a.2 ≠ .crash p := by
      intro heq
      rw [heq] at ha
      simp [ClusterAction.answered] at ha
    rw [loop_clusterStep hnames c idx hstart hcrash]
    refine (foldl_mem (fun s : LoopState => SystemInv s.system ∧
      Agrees ((runners p).loopName idx) s ∧ Single ((runners p).loopName idx) s) ?_
      ⟨h.system, h.agrees p idx hidx, hsingle⟩ (answered_view ha idx)).2.2
    rintro s x ⟨hinv, hagrees, hs⟩ hx
    exact ⟨loopStep_systemInv hinv x, hagrees.step x, hs.step hinv hagrees hx⟩

theorem clusterReach_single (hnames : NamesDiffer runners) {p : ι}
    {as : List (Time × ClusterAction ι)} (has : ∀ a ∈ as, a.2.answered p = true) {idx : Nat}
    (hidx : idx < (runners p).loops) :
    Single ((runners p).loopName idx) ((clusterReach runners as).loop p idx) := by
  refine (foldl_mem (fun c : Cluster ι => ClusterInv runners (fun q => q = p) c ∧
    Single ((runners p).loopName idx) (c.loop p idx)) ?_ ⟨clusterInv_init, ?_⟩ has).2
  · rintro c a ⟨hinv, hsingle⟩ ha
    exact ⟨hinv.step hnames (graceful_of_answered ha),
      single_clusterStep hnames hinv ha hidx hsingle⟩
  · exact single_of_none (by simp [Cluster.loop, Cluster.init, System.init, Tables.empty])

/-- The rows that a pod holds. -/
def Cluster.heldRows (runners : ι → Runner) (c : Cluster ι) (p : ι) : List JobRow :=
  c.system.tables.jobs.filter fun r =>
    (List.range (runners p).loops).any fun idx => heldBy ((runners p).loopName idx) r

omit [DecidableEq ι] in
theorem mem_heldRows {p : ι} {r : JobRow} :
    r ∈ c.heldRows runners p ↔ r ∈ c.system.tables.jobs ∧
      ∃ idx < (runners p).loops, heldBy ((runners p).loopName idx) r = true := by
  simp only [Cluster.heldRows, List.mem_filter, List.any_eq_true, List.mem_range]

/-- The load of a pod, whatever happens to the other pods.  When no lease of the pod gets
lost, none of its outcome statements, recovery writes and drains fails, and its process
does not die, the pod never has more rows leased than it has loops. -/
theorem pod_load (hnames : NamesDiffer runners) (p : ι) (as : List (Time × ClusterAction ι))
    (has : ∀ a ∈ as, a.2.answered p = true) :
    ((clusterReach runners as).heldRows runners p).length ≤ (runners p).loops := by
  have hinv : ClusterInv runners (fun q => q = p) (clusterReach runners as) :=
    clusterReach_inv hnames fun a ha => graceful_of_answered (has a ha)
  have hsingle := fun idx (hidx : idx < (runners p).loops) =>
    clusterReach_single hnames has hidx
  generalize clusterReach runners as = c at hinv hsingle ⊢
  -- Different rows of the pod have different names, all of them names of its loops.
  have hnodup : ((c.heldRows runners p).map (·.lockedBy)).Nodup := by
    have hrows : (c.heldRows runners p).Nodup := (List.Nodup.of_map _ hinv.system.wf.ids).filter _
    refine hrows.map_on fun r hr r' hr' heq => ?_
    obtain ⟨hmem, idx, hidx, hheld⟩ := mem_heldRows.mp hr
    obtain ⟨hmem', idx', hidx', hheld'⟩ := mem_heldRows.mp hr'
    rw [lockedBy_of_heldBy hheld, lockedBy_of_heldBy hheld'] at heq
    obtain ⟨-, rfl⟩ := loopName_inj hnames (Option.some.inj heq)
    exact (hsingle idx hidx).one r hmem r' hmem' hheld hheld'
  have hsub : (c.heldRows runners p).map (·.lockedBy) ⊆
      (List.range (runners p).loops).map fun idx => some ((runners p).loopName idx) := by
    intro name hname
    obtain ⟨r, hr, rfl⟩ := List.mem_map.mp hname
    obtain ⟨-, idx, hidx, hheld⟩ := mem_heldRows.mp hr
    exact List.mem_map.mpr ⟨idx, List.mem_range.mpr hidx, (lockedBy_of_heldBy hheld).symm⟩
  have hlen := (hnodup.subperm hsub).length_le
  simpa using hlen

end Load

/-- The first pod is at work, next to one that crashes. -/
theorem pod_load_drained :
    let run := drainedPod ++ [(8, .crash true), (9, .start true)]
    ((clusterReach twoRunners run).heldRows twoRunners false).length = 1 ∧
      ((clusterReach twoRunners run).heldRows twoRunners false).length ≤
        (twoRunners false).loops :=
  ⟨by decide, pod_load namesDiffer_twoRunners false _ (by decide)⟩

/-- A loop that loses the answer of its lease goes on with another job and holds two. -/
example : ((clusterReach twoRunners (drainedPod.take 5 ++
    [(2, .loop false 0 (.leased [] .lost)), (3, .loop false 0 .woken), (3, .loop false 0 .checked),
      (4, .loop false 0 (.leased [] .arrived))])).heldRows twoRunners false).length = 2 := by
  decide

/-- So does a pod that is started again after a crash. -/
example : ((clusterReach twoRunners (drainedPod.take 6 ++
    [(3, .crash false), (4, .start false), (4, .loop false 0 .checked),
      (4, .loop false 0 (.leased [] .arrived))])).heldRows twoRunners false).length = 2 := by
  decide

end ImgSync.Worker
