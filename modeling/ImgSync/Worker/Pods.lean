import ImgSync.Lib.Decimal
import ImgSync.Worker.Shutdown

/-!
# The loops of several pods

`Runner.Run` (`internal/worker/runner.go`) starts its loops and waits for all of
them.  `Cluster` is the `System` of the runner with any number of pods, each of
which runs the loops of `Worker.Loop` under a context of its own.  The process of a
pod can die at any time, with all its loops.  A pod that has died or whose `Run` has
returned can be started again, and the steps of all loops interleave.

* `lockedBy_inj`: the pod and the index can be read off the name of a loop, so all
  loops have different names as soon as the pods have;
* `loop_clusterStep`: what a loop sees of a step of the cluster is a run of the loop
  alone, with the steps of the other loops as steps of other goroutines.  Whatever
  every step of the loop keeps thus holds in a cluster;
* `leases_have_loops`: a leased row belongs to a loop that has not returned, so
  `Run` leaves nothing leased behind.  This needs that no drain of the pod fails and
  that the pod does not die, for these leave its rows to the sweeper.  Panics that
  `processOne` recovers do no harm.
-/

namespace ImgSync.Worker

open ImgSync.Lib ImgSync.Queue

/-! ## The names of the loops -/

/-- `fmt.Sprintf("%s-w%d", r.PodName, idx)`. -/
def lockedBy (podName : String) (idx : Nat) : String :=
  podName ++ "-w" ++ String.ofList (itoa idx)

theorem lockedBy_inj {pod pod' : String} {i j : Nat} (h : lockedBy pod i = lockedBy pod' j) :
    pod = pod' ∧ i = j := by
  have hchars := congrArg String.toList h
  simp only [lockedBy, String.toList_append, String.toList_ofList] at hchars
  have hends : ∀ name : String, EndsNumber (name.toList ++ "-w".toList).reverse := by
    intro name c hc
    rw [List.reverse_append] at hc
    obtain rfl : 'w' = c := Option.some.inj hc
    decide
  obtain ⟨hname, hidx⟩ := append_itoa_inj (hends pod) (hends pod') hchars
  exact ⟨String.toList_inj.mp (List.append_cancel_right hname), hidx⟩

/-! ## The cluster -/

/-- The fields of `Runner` that the loops depend on. -/
structure Runner where
  workers : Int
  podName : String

/-- The defaults that `Run` fills in. -/
def Runner.withDefaults (r : Runner) : Runner where
  workers := if r.workers ≤ 0 then 4 else r.workers
  podName := if r.podName = "" then "imgsync-worker" else r.podName

/-- The number of loops that `Run` starts. -/
def Runner.loops (r : Runner) : Nat := r.withDefaults.workers.toNat

/-- The name of a loop in the database. -/
def Runner.loopName (r : Runner) (idx : Nat) : String := lockedBy r.withDefaults.podName idx

/-- The database with the other programs, and for each pod its context and its loops. -/
structure Cluster (ι : Type) where
  system : System
  cancelled : ι → Bool
  pos : ι → Nat → Pos

inductive ClusterAction (ι : Type) where
  /-- An enqueue, a sweep or a retention run. -/
  | external (op : Op)
  /-- `Run`. -/
  | start (p : ι)
  /-- The context of `Run` is cancelled. -/
  | cancel (p : ι)
  /-- The process of the pod dies. -/
  | crash (p : ι)
  /-- A step of a loop. -/
  | loop (p : ι) (idx : Nat) (a : LoopAction)

/-- The actions that a loop takes itself. -/
def LoopAction.own : LoopAction → Bool
  | .other _ | .cancel => false
  | _ => true

def Pos.isReturned : Pos → Bool
  | .returned => true
  | _ => false

/-- The loops of a pod go down with it. -/
def Runner.crashActs (r : Runner) (now : Time) : List (Time × Action) :=
  (List.range r.loops).map fun idx => (now, .crash (r.loopName idx))

section Cluster

variable {ι : Type} [DecidableEq ι] (runners : ι → Runner)

/-- What a loop sees of the cluster. -/
def Cluster.loop (c : Cluster ι) (p : ι) (idx : Nat) : LoopState :=
  ⟨c.system, c.cancelled p, c.pos p idx⟩

/-- A loop has taken a step to `l`. -/
def Cluster.setLoop (c : Cluster ι) (p : ι) (idx : Nat) (l : LoopState) : Cluster ι :=
  { c with
    system := l.system
    pos := Function.update c.pos p (Function.update (c.pos p) idx l.pos) }

/-- `wg.Wait()` has returned: none of the loops of the pod runs. -/
def Cluster.returned (c : Cluster ι) (p : ι) : Bool :=
  (List.range (runners p).loops).all fun idx => (c.pos p idx).isReturned

def clusterStep (c : Cluster ι) : Time × ClusterAction ι → Cluster ι
  | (now, .external op) => { c with system := step c.system (now, .external op) }
  | (_, .start p) =>
    if c.returned runners p then
      { c with
        cancelled := Function.update c.cancelled p false
        pos := Function.update c.pos p fun _ => .top }
    else c
  | (_, .cancel p) => { c with cancelled := Function.update c.cancelled p true }
  | (now, .crash p) =>
    { c with
      system := ((runners p).crashActs now).foldl step c.system
      pos := Function.update c.pos p fun _ => .returned }
  | (now, .loop p idx a) =>
    if a.own && decide (idx < (runners p).loops) then
      c.setLoop p idx (loopStep ((runners p).loopName idx) (c.loop p idx) (now, a))
    else c

/-- Nothing runs. -/
def Cluster.init : Cluster ι := ⟨System.init, fun _ => false, fun _ _ => .returned⟩

def clusterReach (as : List (Time × ClusterAction ι)) : Cluster ι :=
  as.foldl (clusterStep runners) .init

/-! ## What a loop sees -/

/-- The steps of the loop's own model that make up a step of the cluster. -/
def view (c : Cluster ι) (p : ι) (idx : Nat) : Time × ClusterAction ι → List (Time × LoopAction)
  | (now, .external op) => [(now, .other (.external op))]
  | (_, .start _) => []
  | (now, .cancel q) => if q = p then [(now, .cancel)] else []
  | (now, .crash q) =>
    if q = p then [] else ((runners q).crashActs now).map fun x => (x.1, .other x.2)
  | (now, .loop q j a) =>
    if a.own && decide (j < (runners q).loops) then
      if q = p ∧ j = idx then [(now, a)]
      else
        (runnerActs ((runners q).loopName j) (c.loop q j) (now, a)).map fun x => (x.1, .other x.2)
    else []

end Cluster

theorem LoopAction.ne_other {a : LoopAction} (h : a.own = true) (b : Action) : a ≠ .other b := by
  rintro rfl
  cases h

theorem LoopAction.ne_cancel {a : LoopAction} (h : a.own = true) : a ≠ .cancel := by
  rintro rfl
  cases h

section Loops

variable {w : String} {s : LoopState}

theorem cancelled_own {a : Time × LoopAction} (h : a.2.own = true) :
    (loopStep w s a).cancelled = s.cancelled := by
  obtain ⟨now, act⟩ := a
  cases act with
  | other | cancel => cases h
  | leased rowLocked answer =>
    simp only [loopStep]
    repeat' split
    · rfl
    · cases answer with
      | failed | lost => rfl
      | arrived =>
        simp only [LoopState.lease]
        split <;> rfl
    · rfl
  | checked | woken | lookedUp | opened | sent | closed | wrote | panicked | unwound | drained =>
    simp only [loopStep, LoopState.write]
    repeat' split
    all_goals rfl

/-- The steps of another goroutine reach the system alone. -/
theorem foldl_other {acts : List (Time × Action)} (h : ∀ x ∈ acts, x.2.worker ≠ some w) :
    (acts.map fun x => (x.1, LoopAction.other x.2)).foldl (loopStep w) s =
      { s with system := acts.foldl step s.system } := by
  induction acts generalizing s with
  | nil => rfl
  | cons x acts ih =>
    have hx : x.2.worker ≠ some w := h x List.mem_cons_self
    have hone : loopStep w s (x.1, .other x.2) = { s with system := step s.system x } := by
      simp only [loopStep, if_neg hx]
    rw [List.map_cons, List.foldl_cons, hone, ih fun y hy => h y (List.mem_cons_of_mem _ hy)]
    rfl

/-- The drain is the only way to the return. -/
theorem returned_cases {a : Time × LoopAction} (hown : a.2.own = true)
    (hret : (loopStep w s a).pos = .returned) :
    s.pos = .returned ∨ s.pos = .draining ∧ ∃ fails, a.2 = .drained fails := by
  obtain ⟨now, act⟩ := a
  cases act with
  | other | cancel => cases hown
  | drained fails =>
    simp only [loopStep] at hret
    split at hret
    · rename_i hpos
      exact Or.inr ⟨hpos, fails, rfl⟩
    · exact Or.inl hret
  | leased rowLocked answer =>
    simp only [loopStep] at hret
    repeat' split at hret
    · cases hret
    · cases answer with
      | failed | lost => cases hret
      | arrived =>
        simp only [LoopState.lease] at hret
        split at hret <;> cases hret
    · exact Or.inl hret
  | sent answer read =>
    simp only [loopStep] at hret
    repeat' split at hret
    · cases hret
    · simp only [afterSend] at hret
      repeat' split at hret
      all_goals cases hret
    · exact Or.inl hret
  | checked | woken | lookedUp | opened | closed | wrote | panicked | unwound =>
    simp only [loopStep, LoopState.write] at hret
    repeat' split at hret
    all_goals first | cases hret | exact Or.inl hret

/-- After its return a loop holds nothing, if its drain does not fail. -/
theorem heldBy_returned (h : Agrees w s) {a : Time × LoopAction} (hown : a.2.own = true)
    (hdrain : a.2 ≠ .drained true) (hpos : s.pos ≠ .returned)
    (hret : (loopStep w s a).pos = .returned) {r : JobRow}
    (hr : r ∈ (loopStep w s a).system.tables.jobs) : heldBy w r = false := by
  obtain ⟨now, act⟩ := a
  rcases returned_cases hown hret with hbefore | ⟨hdraining, fails, rfl⟩
  · exact absurd hbefore hpos
  · obtain rfl : fails = false := Bool.eq_false_iff.mpr fun heq => hdrain (congrArg _ heq)
    rw [tables_drained h hdraining now] at hr
    exact heldBy_drainLease hr

/-- A row that is leased after a step of a worker was leased before, or the worker
holds it. -/
theorem leased_step {sys : System} (hinv : SystemInv sys) {a : Time × Action}
    (ha : a.2.worker = some w) {r : JobRow} (hr : r ∈ (step sys a).tables.jobs)
    (hleased : r.status = .leased) : r ∈ sys.tables.jobs ∨ heldBy w r = true := by
  obtain ⟨now, act⟩ := a
  rw [step_tables_eq] at hr
  cases hop : operation sys act with
  | none =>
    rw [hop] at hr
    exact Or.inl hr
  | some op =>
    rw [hop, Option.map_some, Option.getD_some] at hr
    have hissuer : issuer op = some w := operation_issuer ha hop
    cases op with
    | leaseJob v rowLocked =>
      obtain rfl : v = w := Option.some.inj hissuer
      rcases leaseJob_cases sys.tables now v rowLocked with hnone | ⟨x, hx, -, hsome⟩
      · refine Or.inl ?_
        rwa [exec, hnone] at hr
      · rw [exec, hsome] at hr
        rcases mem_leased_jobs hr with ⟨y, -, -, rfl⟩ | ⟨hkept, -⟩
        · exact Or.inr (by simp [heldBy, lease])
        · exact Or.inl hkept
    | _ => exact Or.inl (exec_leased hinv.wf now (by simp) hr hleased)

theorem leased_foldl {sys : System} (hinv : SystemInv sys) {acts : List (Time × Action)}
    (hacts : ∀ x ∈ acts, x.2.worker = some w) {r : JobRow}
    (hr : r ∈ (acts.foldl step sys).tables.jobs) (hleased : r.status = .leased) :
    r ∈ sys.tables.jobs ∨ heldBy w r = true := by
  induction acts generalizing sys with
  | nil => exact Or.inl hr
  | cons x acts ih =>
    rcases ih (step_inv sys x hinv) (fun y hy => hacts y (List.mem_cons_of_mem _ hy)) hr with
      hmid | hheld
    · exact leased_step hinv (hacts x List.mem_cons_self) hmid hleased
    · exact Or.inr hheld

/-- The same for a step of the loop. -/
theorem leased_loopStep (hinv : SystemInv s.system) {a : Time × LoopAction}
    (hown : a.2.own = true) {r : JobRow} (hr : r ∈ (loopStep w s a).system.tables.jobs)
    (hleased : r.status = .leased) : r ∈ s.system.tables.jobs ∨ heldBy w r = true := by
  rw [loopStep_system] at hr
  exact leased_foldl hinv (runnerActs_worker (LoopAction.ne_other hown)) hr hleased

end Loops

section View

variable {ι : Type} {runners : ι → Runner}

/-- No two pods have the same name. -/
def NamesDiffer (runners : ι → Runner) : Prop :=
  ∀ p q, (runners p).withDefaults.podName = (runners q).withDefaults.podName → p = q

theorem loopName_inj (hnames : NamesDiffer runners) {p q : ι} {i j : Nat}
    (h : (runners p).loopName i = (runners q).loopName j) : p = q ∧ i = j := by
  obtain ⟨hpod, hidx⟩ := lockedBy_inj h
  exact ⟨hnames p q hpod, hidx⟩

variable [DecidableEq ι]

theorem loop_setLoop_self {c : Cluster ι} {p : ι} (idx : Nat) {l : LoopState}
    (h : l.cancelled = c.cancelled p) : (c.setLoop p idx l).loop p idx = l := by
  simp only [Cluster.loop, Cluster.setLoop, Function.update_self, ← h]

theorem loop_setLoop_of_ne {c : Cluster ι} {p q : ι} {idx j : Nat} {l : LoopState}
    (h : ¬(q = p ∧ j = idx)) :
    (c.setLoop q j l).loop p idx = { c.loop p idx with system := l.system } := by
  by_cases hq : p = q
  · subst hq
    have hj : idx ≠ j := fun heq => h ⟨rfl, heq.symm⟩
    simp only [Cluster.loop, Cluster.setLoop, Function.update_self, Function.update_of_ne hj]
  · simp only [Cluster.loop, Cluster.setLoop, Function.update_of_ne hq]

omit [DecidableEq ι] in
theorem crashActs_worker {r : Runner} {now : Time} :
    ∀ x ∈ r.crashActs now, ∃ idx < r.loops, x.2.worker = some (r.loopName idx) := by
  intro x hx
  obtain ⟨idx, hidx, rfl⟩ := List.mem_map.mp hx
  exact ⟨idx, List.mem_range.mp hidx, rfl⟩

/-- Whatever happens in a cluster, other than the start and the end of its pod, a loop
sees as a run of its own model. -/
theorem loop_clusterStep (hnames : NamesDiffer runners) (c : Cluster ι) {a : Time × ClusterAction ι}
    {p : ι} (idx : Nat) (hstart : a.2 ≠ .start p) (hcrash : a.2 ≠ .crash p) :
    (clusterStep runners c a).loop p idx =
      (view runners c p idx a).foldl (loopStep ((runners p).loopName idx)) (c.loop p idx) := by
  obtain ⟨now, act⟩ := a
  cases act with
  | external op => rfl
  | start q =>
    have hne : p ≠ q := by
      rintro rfl
      exact hstart rfl
    simp only [clusterStep, view, List.foldl_nil]
    split
    · simp only [Cluster.loop, Function.update_of_ne hne]
    · rfl
  | cancel q =>
    simp only [clusterStep, view]
    by_cases hq : q = p
    · subst hq
      simp only [Cluster.loop, Function.update_self, if_true]
      rfl
    · simp only [Cluster.loop, Function.update_of_ne (Ne.symm hq), if_neg hq]
      rfl
  | crash q =>
    have hne : p ≠ q := by
      rintro rfl
      exact hcrash rfl
    simp only [clusterStep, view, if_neg hne.symm]
    rw [foldl_other]
    · simp only [Cluster.loop, Function.update_of_ne hne]
    · intro x hx hw
      obtain ⟨j, -, hq⟩ := crashActs_worker x hx
      rw [hq] at hw
      exact hne (loopName_inj hnames (Option.some.inj hw)).1.symm
  | loop q j act =>
    simp only [clusterStep, view]
    split
    · rename_i hown
      rw [Bool.and_eq_true] at hown
      by_cases hme : q = p ∧ j = idx
      · obtain ⟨rfl, rfl⟩ := hme
        rw [if_pos ⟨rfl, rfl⟩, loop_setLoop_self _ (cancelled_own hown.1)]
        rfl
      · rw [if_neg hme, foldl_other, loop_setLoop_of_ne hme, loopStep_system]
        · rfl
        · intro x hx hw
          have hq := runnerActs_worker (LoopAction.ne_other hown.1) x hx
          rw [hq] at hw
          exact hme (loopName_inj hnames (Option.some.inj hw))
    · rfl

end View

/-! ## Leased rows and loops -/

section Leases

variable {ι : Type} [DecidableEq ι] {runners : ι → Runner} {c : Cluster ι}

/-- The loop has been started and has not returned. -/
def Cluster.Runs (runners : ι → Runner) (c : Cluster ι) (p : ι) (idx : Nat) : Prop :=
  idx < (runners p).loops ∧ (c.pos p idx).isReturned = false

instance (c : Cluster ι) (p : ι) (idx : Nat) : Decidable (c.Runs runners p idx) :=
  inferInstanceAs (Decidable (_ ∧ _))

/-- The action is no drain of the pod that fails, and not the end of its process. -/
def ClusterAction.graceful (p : ι) : ClusterAction ι → Bool
  | .crash q => decide (q ≠ p)
  | .loop q _ (.drained fails) => decide (q ≠ p) || !fails
  | _ => true

/-- The pods in `graceful` have only taken graceful actions so far. -/
structure ClusterInv (runners : ι → Runner) (graceful : ι → Prop) (c : Cluster ι) : Prop where
  system : SystemInv c.system
  agrees : ∀ p, ∀ idx < (runners p).loops, Agrees ((runners p).loopName idx) (c.loop p idx)
  leases : ∀ r ∈ c.system.tables.jobs, r.status = .leased →
    ∃ p, ∃ idx < (runners p).loops, heldBy ((runners p).loopName idx) r = true ∧
      (graceful p → c.Runs runners p idx)

omit [DecidableEq ι] in
theorem isReturned_of_returned {p : ι} (h : c.returned runners p = true) {idx : Nat}
    (hidx : idx < (runners p).loops) : (c.pos p idx).isReturned = true :=
  List.all_eq_true.mp h idx (List.mem_range.mpr hidx)

theorem atJob_of_isReturned {pos : Pos} (h : pos.isReturned = true) : pos.atJob = false := by
  cases pos <;> first | rfl | cases h

theorem systemInv_clusterStep (h : SystemInv c.system) (a : Time × ClusterAction ι) :
    SystemInv (clusterStep runners c a).system := by
  obtain ⟨now, act⟩ := a
  cases act with
  | external op => exact step_inv c.system (now, .external op) h
  | start p =>
    simp only [clusterStep]
    split <;> exact h
  | cancel p => exact h
  | crash p => exact foldl_invariant SystemInv step_inv h _
  | loop p idx a =>
    simp only [clusterStep]
    split
    · exact loopStep_systemInv (s := c.loop p idx) h (now, a)
    · exact h

/-- The end of a process leaves the tables. -/
theorem tables_crash {sys : System} {acts : List (Time × Action)}
    (h : ∀ x ∈ acts, ∃ v, x.2 = .crash v) : (acts.foldl step sys).tables = sys.tables := by
  refine foldl_mem (fun s : System => s.tables = sys.tables) ?_ rfl h
  rintro s ⟨now, act⟩ hs ⟨v, rfl⟩
  exact hs

/-- It makes its workers idle. -/
theorem workers_crash {sys : System} {w : String} {acts : List (Time × Action)}
    (h : ∀ x ∈ acts, ∃ v, x.2 = .crash v)
    (hw : sys.workers w = .idle ∨ ∃ x ∈ acts, x.2 = .crash w) :
    (acts.foldl step sys).workers w = .idle := by
  induction acts generalizing sys with
  | nil => exact hw.resolve_right (by simp)
  | cons x acts ih =>
    refine ih (fun y hy => h y (List.mem_cons_of_mem _ hy)) ?_
    obtain ⟨now, act⟩ := x
    obtain ⟨v, hv⟩ := h (now, act) List.mem_cons_self
    obtain rfl : act = .crash v := hv
    by_cases hvw : w = v
    · subst hvw
      exact Or.inl (Function.update_self ..)
    · rcases hw with hidle | ⟨y, hy, hyw⟩
      · exact Or.inl ((Function.update_of_ne hvw _ _).trans hidle)
      · rcases List.mem_cons.mp hy with rfl | hy
        · exact absurd (Action.crash.inj hyw).symm hvw
        · exact Or.inr ⟨y, hy, hyw⟩

theorem crashActs_crash {r : Runner} {now : Time} : ∀ x ∈ r.crashActs now, ∃ v, x.2 = .crash v := by
  intro x hx
  obtain ⟨idx, -, rfl⟩ := List.mem_map.mp hx
  exact ⟨_, rfl⟩

theorem workers_crashActs {sys : System} (r : Runner) (now : Time) {idx : Nat}
    (hidx : idx < r.loops) :
    ((r.crashActs now).foldl step sys).workers (r.loopName idx) = .idle :=
  workers_crash crashActs_crash
    (Or.inr ⟨_, List.mem_map_of_mem (List.mem_range.mpr hidx), rfl⟩)

variable {graceful : ι → Prop}

theorem agrees_clusterStep (hnames : NamesDiffer runners) (h : ClusterInv runners graceful c)
    (a : Time × ClusterAction ι) (p : ι) {idx : Nat} (hidx : idx < (runners p).loops) :
    Agrees ((runners p).loopName idx) ((clusterStep runners c a).loop p idx) := by
  by_cases hstart : a.2 = .start p
  · obtain ⟨now, act⟩ := a
    obtain rfl : act = .start p := hstart
    simp only [clusterStep]
    split
    · rename_i hret
      have hjob := atJob_of_isReturned (isReturned_of_returned hret hidx)
      simp only [Cluster.loop, Function.update_self]
      exact agrees_idle rfl ((h.agrees p idx hidx).idle hjob)
    · exact h.agrees p idx hidx
  by_cases hcrash : a.2 = .crash p
  · obtain ⟨now, act⟩ := a
    obtain rfl : act = .crash p := hcrash
    simp only [clusterStep, Cluster.loop, Function.update_self]
    exact agrees_idle rfl (workers_crashActs (runners p) now hidx)
  · rw [loop_clusterStep hnames c idx hstart hcrash]
    exact foldl_invariant _ (fun _ b hb => hb.step b) (h.agrees p idx hidx) _

/-- Only a worker leases. -/
theorem leased_external {sys : System} (hinv : SystemInv sys) {now : Time} {op : Op} {r : JobRow}
    (hr : r ∈ (step sys (now, .external op)).tables.jobs) (hleased : r.status = .leased) :
    r ∈ sys.tables.jobs := by
  rw [step] at hr
  split at hr
  · rename_i hext
    refine exec_leased hinv.wf now ?_ hr hleased
    rintro w rowLocked rfl
    cases hext
  · exact hr

theorem eq_returned {pos : Pos} (h : pos.isReturned = true) : pos = .returned := by
  cases pos <;> first | rfl | cases h

/-- A loop that still holds a row after its step has not returned by it. -/
theorem not_returned_of_held {w : String} {s : LoopState} (h : Agrees w s) {a : Time × LoopAction}
    (hown : a.2.own = true) (hdrain : a.2 ≠ .drained true) (hpos : s.pos.isReturned = false)
    {r : JobRow} (hr : r ∈ (loopStep w s a).system.tables.jobs) (hheld : heldBy w r = true) :
    (loopStep w s a).pos.isReturned = false := by
  refine Bool.eq_false_iff.mpr fun hret => ?_
  have hbefore : s.pos ≠ .returned := by
    intro heq
    rw [heq] at hpos
    cases hpos
  rw [heldBy_returned h hown hdrain hbefore (eq_returned hret) hr] at hheld
  cases hheld

theorem runs_setLoop {p q : ι} {idx j : Nat} {l : LoopState} (h : c.Runs runners q j)
    (hme : q = p → j = idx → l.pos.isReturned = false) :
    (c.setLoop p idx l).Runs runners q j := by
  refine ⟨h.1, ?_⟩
  by_cases hq : q = p
  · subst hq
    by_cases hj : j = idx
    · subst hj
      simp only [Cluster.setLoop, Function.update_self]
      exact hme rfl rfl
    · simp only [Cluster.setLoop, Function.update_self, Function.update_of_ne hj]
      exact h.2
  · simp only [Cluster.setLoop, Function.update_of_ne hq]
    exact h.2

omit [DecidableEq ι] in
/-- The row of a loop, as the actions of the other pods leave it. -/
theorem leases_of_runs {c' : Cluster ι} {r : JobRow}
    (h : ∃ p, ∃ idx < (runners p).loops, heldBy ((runners p).loopName idx) r = true ∧
      (graceful p → c.Runs runners p idx))
    (hruns : ∀ p idx, graceful p → heldBy ((runners p).loopName idx) r = true →
      c.Runs runners p idx → c'.Runs runners p idx) :
    ∃ p, ∃ idx < (runners p).loops, heldBy ((runners p).loopName idx) r = true ∧
      (graceful p → c'.Runs runners p idx) := by
  obtain ⟨p, idx, hidx, hheld, hrun⟩ := h
  exact ⟨p, idx, hidx, hheld, fun hg => hruns p idx hg hheld (hrun hg)⟩

theorem drained_of_graceful {p : ι} {idx : Nat} {a : LoopAction}
    (h : (ClusterAction.loop p idx a).graceful p = true) : a ≠ .drained true := by
  rintro rfl
  simp [ClusterAction.graceful] at h

theorem leases_clusterStep (h : ClusterInv runners graceful c) {a : Time × ClusterAction ι}
    (ha : ∀ p, graceful p → a.2.graceful p = true) {r : JobRow}
    (hr : r ∈ (clusterStep runners c a).system.tables.jobs) (hleased : r.status = .leased) :
    ∃ p, ∃ idx < (runners p).loops, heldBy ((runners p).loopName idx) r = true ∧
      (graceful p → (clusterStep runners c a).Runs runners p idx) := by
  obtain ⟨now, act⟩ := a
  cases act with
  | external op => exact h.leases r (leased_external h.system hr hleased) hleased
  | cancel p => exact h.leases r hr hleased
  | start p =>
    simp only [clusterStep] at hr ⊢
    split at hr
    · rename_i hret
      rw [if_pos hret]
      refine leases_of_runs (h.leases r hr hleased) fun q j _ _ hruns => ⟨hruns.1, ?_⟩
      -- The pod that starts had no running loop, so the row belongs to another pod.
      have hq : q ≠ p := by
        rintro rfl
        have hdone := isReturned_of_returned hret hruns.1
        rw [hruns.2] at hdone
        cases hdone
      simp only [Function.update_of_ne hq]
      exact hruns.2
    · rename_i hret
      rw [if_neg hret]
      exact h.leases r hr hleased
  | crash p =>
    simp only [clusterStep, tables_crash crashActs_crash] at hr ⊢
    refine leases_of_runs (h.leases r hr hleased) fun q j hq _ hruns => ⟨hruns.1, ?_⟩
    have hqp : q ≠ p := by
      rintro rfl
      have hno := ha q hq
      simp [ClusterAction.graceful] at hno
    simp only [Function.update_of_ne hqp]
    exact hruns.2
  | loop p idx a =>
    simp only [clusterStep] at hr ⊢
    split at hr
    · rename_i hown
      rw [if_pos hown]
      rw [Bool.and_eq_true, decide_eq_true_eq] at hown
      obtain ⟨hown, hidx⟩ := hown
      by_cases hold : r ∈ c.system.tables.jobs
      · refine leases_of_runs (h.leases r hold hleased) fun q j hq hheld hruns => ?_
        refine runs_setLoop hruns ?_
        rintro rfl rfl
        exact not_returned_of_held (h.agrees q j hidx) hown (drained_of_graceful (ha q hq)) hruns.2
          hr hheld
      · have hheld : heldBy ((runners p).loopName idx) r = true :=
          (leased_loopStep (s := c.loop p idx) h.system hown hr hleased).resolve_left hold
        have hruns : c.Runs runners p idx := by
          refine ⟨hidx, Bool.eq_false_iff.mpr fun hret => hold ?_⟩
          rwa [loopStep_returned (eq_returned hret) (LoopAction.ne_other hown)
            (LoopAction.ne_cancel hown)] at hr
        refine ⟨p, idx, hidx, hheld, fun hp => runs_setLoop hruns fun _ _ => ?_⟩
        exact not_returned_of_held (h.agrees p idx hidx) hown (drained_of_graceful (ha p hp))
          hruns.2 hr hheld
    · rename_i hown
      rw [if_neg hown]
      exact h.leases r hr hleased

theorem ClusterInv.step (hnames : NamesDiffer runners) (h : ClusterInv runners graceful c)
    {a : Time × ClusterAction ι} (ha : ∀ p, graceful p → a.2.graceful p = true) :
    ClusterInv runners graceful (clusterStep runners c a) where
  system := systemInv_clusterStep h.system a
  agrees := fun p _ hidx => agrees_clusterStep hnames h a p hidx
  leases := fun _ hr hleased => leases_clusterStep h ha hr hleased

omit [DecidableEq ι] in
theorem clusterInv_init : ClusterInv runners graceful (.init : Cluster ι) where
  system := systemInv_init
  agrees := fun _ _ _ => agrees_idle rfl rfl
  leases := by simp [Cluster.init, System.init, Tables.empty]

theorem clusterReach_inv (hnames : NamesDiffer runners) {as : List (Time × ClusterAction ι)}
    (has : ∀ a ∈ as, ∀ p, graceful p → a.2.graceful p = true) :
    ClusterInv runners graceful (clusterReach runners as) :=
  foldl_mem _ (fun _ _ h ha => h.step hnames ha) clusterInv_init has

theorem lockedBy_of_heldBy {w : String} {r : JobRow} (h : heldBy w r = true) :
    r.lockedBy = some w := by
  rw [heldBy, Bool.and_eq_true, beq_iff_eq, beq_iff_eq] at h
  exact h.2

omit [DecidableEq ι] in
/-- What a loop holds, it holds while it runs. -/
theorem ClusterInv.runs_of_held (hnames : NamesDiffer runners) (h : ClusterInv runners graceful c)
    {p : ι} (hp : graceful p) {idx : Nat} {r : JobRow} (hr : r ∈ c.system.tables.jobs)
    (hheld : heldBy ((runners p).loopName idx) r = true) : c.Runs runners p idx := by
  obtain ⟨q, j, -, hby, hruns⟩ := h.leases r hr (leased_of_heldBy hheld)
  have hname := (lockedBy_of_heldBy hby).symm.trans (lockedBy_of_heldBy hheld)
  obtain ⟨rfl, rfl⟩ := loopName_inj hnames (Option.some.inj hname)
  exact hruns hp

end Leases

/-- A pod with one loop, and one with one loop and the default name. -/
def twoRunners : Bool → Runner
  | false => ⟨1, "pod-a"⟩
  | true => ⟨1, ""⟩

/-- Both pods lease a job, and the second one is shut down while it opens its source. -/
def drainedPod : List (Time × ClusterAction Bool) :=
  [(0, .external (.snifferEnqueue ⟨"images-1", "a.png", "b.png", "localfs", "localfs"⟩)),
    (0, .external (.snifferEnqueue ⟨"images-2", "c.png", "d.png", "localfs", "localfs"⟩)),
    (1, .start false), (1, .start true), (2, .loop false 0 .checked),
    (2, .loop false 0 (.leased [] .arrived)), (3, .loop true 0 .checked),
    (3, .loop true 0 (.leased [] .arrived)), (4, .loop true 0 (.lookedUp none none)),
    (5, .cancel true),
    (5, .loop true 0 (.opened (.error ⟨goString "context canceled", false, true⟩))),
    (6, .loop true 0 (.wrote false 0 0)), (6, .loop true 0 .checked),
    (7, .loop true 0 (.drained false))]

theorem namesDiffer_twoRunners : NamesDiffer twoRunners := by
  unfold NamesDiffer
  decide

/-- If the drain fails, the second job stays leased although `Run` has returned. -/
example :
    let run := drainedPod.dropLast ++ [(7, .loop true 0 (.drained true))]
    (clusterReach twoRunners run).returned twoRunners true = true ∧
      ∃ r ∈ (clusterReach twoRunners run).system.tables.jobs,
        heldBy "imgsync-worker-w0" r = true := by
  decide

end ImgSync.Worker
