import ImgSync.Worker.Loop

/-!
# A graceful shutdown costs no attempt

Once the context of a worker loop is cancelled, its outcome statement has no
effect whatever the interrupted calls answer, and the drain, which has a context
of its own, gives back what the worker still holds.

* `runnerActs`: the steps of the runner that a step of the loop is made of, so a
  run of the loop is a run of the runner (`loopReach_system`);
* `cancelled_tables`: after the cancellation no step before the drain touches the
  tables, other than the recovery write of a panic;
* `rank_lt`: every step that the loop then takes brings it closer to its return.
-/

namespace ImgSync.Worker

open ImgSync.Lib ImgSync.Queue

/-! ## Rows that an operation keeps -/

/-- The events of a job. -/
def eventsOf (t : Tables) (id : Nat) : List EventRow := t.events.filter fun e => e.jobId == id

/-- The worker that issues an operation. -/
def issuer : Op → Option String
  | .leaseJob w _ | .outcome w _ | .drainLease w => some w
  | _ => none

section Rows

variable {t : Tables} {now : Time} {op : Op} {r : JobRow}

theorem kinds_of_kept {r' : JobRow} {kinds : List EventStatus} (h : RowStep now op r r' kinds)
    (hleased : r.status = .leased) (hsame : r' = r) : kinds = [] := by
  have hstatus : r'.status = .leased := hsame ▸ hleased
  cases h with
  | keep | lease | drain => rfl
  | expire | succeed | retry => cases hstatus
  | finish w job kind attempts d hg => cases kind <;> cases hstatus

/-- A leased row that an operation leaves alone gets no event. -/
theorem eventsOf_exec (hwf : t.Wf) (hr : r ∈ t.jobs) (hleased : r.status = .leased)
    (hkept : r ∈ (exec t now op).jobs) : eventsOf (exec t now op) r.id = eventsOf t r.id := by
  by_cases hop : op.IsRetention
  · obtain ⟨keep, hp⟩ := exec_retention hwf now hop
    rw [hp.jobs] at hkept
    have hkeep : keep r.id = true := (List.mem_filter.mp hkept).2
    rw [eventsOf, eventsOf, hp.events, List.filter_filter]
    refine List.filter_congr fun e _ => ?_
    by_cases hid : e.jobId = r.id
    · rw [hid, hkeep, Bool.and_true]
    · simp [hid]
  · obtain ⟨d⟩ := exec_delta hwf now hop
    have hsame : d.f r = r := by
      have hmem : d.f r ∈ (exec t now op).jobs := d.mem_jobs.mpr (Or.inl ⟨r, hr, rfl⟩)
      exact eq_of_key_eq (exec_wf hwf now op).ids hmem hkept (d.rows r hr).immutable.1
    have hkinds := kinds_of_kept (d.rows r hr) hleased hsame
    have hnone : d.evs.filter (fun e => e.jobId == r.id) = [] := List.map_eq_nil_iff.mp hkinds
    rw [eventsOf, eventsOf, d.events, List.filter_append, hnone, List.append_nil]

/-- The statements of a worker are guarded by its name. -/
theorem rowStep_kept {w : String} {r' : JobRow} {kinds : List EventStatus}
    (h : RowStep now op r r' kinds) (hop : issuer op = some w) (hleased : r.status = .leased)
    (hother : heldBy w r = false) : r' = r := by
  have hguard : ∀ id, leaseGuard id w r ≠ true := by
    intro id
    rw [leaseGuard, hother, Bool.and_false]
    exact Bool.false_ne_true
  cases h with
  | keep => rfl
  | lease w' rowLocked hp =>
    rw [hleased] at hp
    cases hp
  | drain w' hh =>
    obtain rfl : w' = w := Option.some.inj hop
    rw [hother] at hh
    cases hh
  | expire => cases hop
  | succeed w' job d hg | finish w' job kind attempts d hg | retry w' job attempts b d hg =>
    obtain rfl : w' = w := Option.some.inj hop
    exact absurd hg (hguard job.id)

/-- An operation of one worker leaves the rows that others hold. -/
theorem exec_kept {w : String} (hwf : t.Wf) (hop : issuer op = some w) (hr : r ∈ t.jobs)
    (hleased : r.status = .leased) (hother : heldBy w r = false) :
    r ∈ (exec t now op).jobs := by
  have hret : ¬op.IsRetention := by
    cases op <;> first | exact id | cases hop
  obtain ⟨d⟩ := exec_delta hwf now hret
  exact d.mem_jobs.mpr (Or.inl ⟨r, hr, rowStep_kept (d.rows r hr) hop hleased hother⟩)

/-- A row, with its events, is the same in two states of the tables. -/
structure SameRow (t t' : Tables) (r : JobRow) : Prop where
  row : r ∈ t'.jobs
  events : eventsOf t' r.id = eventsOf t r.id

end Rows

/-! ## Steps of the runner -/

section Runner

variable {s : System} {w : String} {r : JobRow}

theorem operation_issuer {a : Action} {op : Op} (ha : a.worker = some w)
    (hop : operation s a = some op) : issuer op = some w := by
  cases a with
  | external o => cases ha
  | lease w' rowLocked lost | write w' run | recover w' rec_ backoffMs | drain w' =>
    obtain rfl : w' = w := Option.some.inj ha
    simp only [operation] at hop
    split at hop <;> cases hop
    rfl
  | writeFails | recoverFails | finish | crash => cases hop

/-- A step of one worker leaves the rows that others hold. -/
theorem step_sameRow (hwf : s.tables.Wf) {a : Time × Action} (ha : a.2.worker = some w)
    (hr : r ∈ s.tables.jobs) (hleased : r.status = .leased) (hother : heldBy w r = false) :
    SameRow s.tables (step s a).tables r := by
  obtain ⟨now, act⟩ := a
  rw [step_tables_eq]
  cases hop : operation s act with
  | none => exact ⟨hr, rfl⟩
  | some op =>
    have hkept : r ∈ (exec s.tables now op).jobs :=
      exec_kept hwf (operation_issuer ha hop) hr hleased hother
    exact ⟨hkept, eventsOf_exec hwf hr hleased hkept⟩

/-- A step of another goroutine leaves the state of a worker. -/
theorem workers_step {a : Time × Action} (ha : a.2.worker ≠ some w) :
    (step s a).workers w = s.workers w := by
  obtain ⟨now, act⟩ := a
  have hset : ∀ (s : System) (w' : String) (ws : WorkerState), some w' ≠ some w →
      (s.setWorker w' ws).workers w = s.workers w := by
    intro s w' ws hne
    exact Function.update_of_ne (fun heq => hne (congrArg some heq.symm)) _ _
  cases act with
  | external op =>
    simp only [step]
    split <;> rfl
  | lease w' rowLocked lost =>
    simp only [step]
    split
    · rfl
    split
    · rfl
    split
    · rfl
    · exact hset _ _ _ ha
  | write w' run | writeFails w' | recover w' rec_ backoffMs | finish w' =>
    simp only [step]
    split
    · exact hset _ _ _ ha
    · rfl
  | drain w' =>
    simp only [step]
    split <;> rfl
  | recoverFails w' | crash w' => exact hset _ _ _ ha

end Runner

/-! ## A loop is a run of the runner -/

/-- The steps of the runner that a step of the loop takes. -/
def runnerActs (w : String) (s : LoopState) : Time × LoopAction → List (Time × Action)
  | (now, .other a) => if a.worker = some w then [] else [(now, a)]
  | (now, .leased rowLocked answer) =>
    match s.pos, s.cancelled, answer with
    | .leasing, false, .lost => [(now, .lease w rowLocked true)]
    | .leasing, false, .arrived => [(now, .lease w rowLocked false)]
    | _, _, _ => []
  | (now, .wrote fails durationMs backoffMs) =>
    match s.pos with
    | .writing run =>
      let run' : JobRun :=
        { run with calls := { run.calls with durationMs := durationMs, backoffMs := backoffMs } }
      [(now, if s.cancelled || fails then .writeFails w else .write w run'), (now, .finish w)]
    | _ => []
  | (now, .panicked behind rec_ backoffMs fails) =>
    if s.pos.atJob then
      (s.panicActs w behind rec_ backoffMs fails).map fun a => (now, a)
    else []
  | (now, .drained fails) =>
    match s.pos with
    | .draining => if fails then [] else [(now, .drain w)]
    | _ => []
  | _ => []

section Loop

variable {w : String} {s : LoopState}

theorem loopStep_system (a : Time × LoopAction) :
    (loopStep w s a).system = (runnerActs w s a).foldl step s.system := by
  obtain ⟨now, act⟩ := a
  cases act with
  | other a =>
    simp only [loopStep, runnerActs]
    split <;> rfl
  | cancel => rfl
  | checked | woken | opened | sent | closed | panicked | unwound =>
    simp only [loopStep, runnerActs]
    repeat' split
    all_goals rfl
  | leased rowLocked answer =>
    cases hpos : s.pos with
    | leasing =>
      cases hc : s.cancelled with
      | true => simp only [loopStep, runnerActs, hpos, hc]; rfl
      | false =>
        cases answer with
        | failed | lost => simp only [loopStep, runnerActs, hpos, hc]; rfl
        | arrived =>
          simp only [loopStep, runnerActs, hpos, hc, LoopState.lease, Bool.false_eq_true, if_false]
          split <;> rfl
    | _ => simp only [loopStep, runnerActs, hpos]; rfl
  | lookedUp source transport =>
    simp only [loopStep, runnerActs]
    repeat' split
    all_goals rfl
  | wrote fails durationMs backoffMs =>
    cases hpos : s.pos with
    | writing run => simp only [loopStep, runnerActs, hpos, LoopState.write]; rfl
    | _ => simp only [loopStep, runnerActs, hpos]; rfl
  | drained fails =>
    cases hpos : s.pos with
    | draining =>
      simp only [loopStep, runnerActs, hpos]
      split <;> rfl
    | _ => simp only [loopStep, runnerActs, hpos]; rfl

/-- A run of the loop is a run of the runner. -/
theorem loopReach_system (start : List (Time × Action)) (as : List (Time × LoopAction)) :
    ∃ acts, (loopReach w (reach start) as).system = reach (start ++ acts) := by
  induction as using List.reverseRecOn with
  | nil => exact ⟨[], by rw [List.append_nil]; rfl⟩
  | append_singleton as a ih =>
    obtain ⟨acts, hacts⟩ := ih
    refine ⟨acts ++ runnerActs w (loopReach w (reach start) as) a, ?_⟩
    have hlast : loopReach w (reach start) (as ++ [a]) =
        loopStep w (loopReach w (reach start) as) a := by
      simp [loopReach]
    rw [hlast, loopStep_system, hacts]
    simp [reach]

theorem worker_panicActs {behind : Option (Bool × Int × Int)} {rec_ : GoString} {backoffMs : Int}
    {fails : Bool} : ∀ a ∈ s.panicActs w behind rec_ backoffMs fails, a.worker = some w := by
  have hrecovery : (if fails then Action.recoverFails w else
      .recover w rec_ backoffMs).worker = some w := by
    split <;> rfl
  unfold LoopState.panicActs
  intro a ha
  dsimp only at ha
  split at ha
  · rcases List.mem_pair.mp ha with rfl | rfl
    · split <;> rfl
    · exact hrecovery
  · rw [List.mem_singleton.mp ha]
    exact hrecovery

theorem runnerActs_worker {a : Time × LoopAction} (hown : ∀ b, a.2 ≠ .other b) :
    ∀ x ∈ runnerActs w s a, x.2.worker = some w := by
  obtain ⟨now, act⟩ := a
  cases act with
  | other b => exact absurd rfl (hown b)
  | leased rowLocked answer =>
    simp only [runnerActs]
    split <;> simp [Action.worker]
  | wrote fails durationMs backoffMs =>
    simp only [runnerActs]
    split
    · intro x hx
      rcases List.mem_pair.mp hx with rfl | rfl
      · show (if s.cancelled || fails then Action.writeFails w else _).worker = some w
        split <;> rfl
      · rfl
    · simp
  | panicked behind rec_ backoffMs fails =>
    simp only [runnerActs]
    split
    · intro x hx
      obtain ⟨b, hb, rfl⟩ := List.mem_map.mp hx
      exact worker_panicActs b hb
    · simp
  | drained fails =>
    simp only [runnerActs]
    repeat' split
    all_goals simp [Action.worker]
  | cancel | checked | woken | lookedUp | opened | sent | closed | unwound => simp [runnerActs]

/-- The position of the loop and the state that the runner has for it agree. -/
structure Agrees (w : String) (s : LoopState) : Prop where
  idle : s.pos.atJob = false → s.system.workers w = .idle
  working : s.pos.atJob = true → ∃ job n, s.system.workers w = .working job n .running

/-- A step between two positions with a job, or between two without one. -/
theorem Agrees.move (h : Agrees w s) {cancelled : Bool} {pos : Pos}
    (hpos : pos.atJob = s.pos.atJob) : Agrees w ⟨s.system, cancelled, pos⟩ :=
  ⟨fun hjob => h.idle (hpos ▸ hjob), fun hjob => h.working (hpos ▸ hjob)⟩

theorem agrees_idle {sys : System} {cancelled : Bool} {pos : Pos} (hpos : pos.atJob = false)
    (h : sys.workers w = .idle) : Agrees w ⟨sys, cancelled, pos⟩ := by
  refine ⟨fun _ => h, fun hjob => ?_⟩
  rw [show pos.atJob = true from hjob] at hpos
  cases hpos

theorem atJob_afterSend (c : Calls) (srcSize written : Int) :
    (afterSend c srcSize written).atJob = true := by
  unfold afterSend
  split
  · rfl
  · split <;> rfl

/-- A granted lease whose answer arrives is the job of the loop. -/
theorem workers_lease {sys : System} (hidle : sys.workers w = .idle) (now : Time)
    (rowLocked : List Nat) (lost : Bool) :
    (step sys (now, .lease w rowLocked lost)).workers w = .idle ∨
      lost = false ∧ ∃ job n,
        (step sys (now, .lease w rowLocked lost)).workers w = .working job n .running := by
  simp only [step, hidle]
  split
  · exact Or.inl hidle
  · rename_i job _
    cases lost with
    | true => exact Or.inl hidle
    | false => exact Or.inr ⟨rfl, job, sys.nextLease, Function.update_self ..⟩

theorem Agrees.lease (h : Agrees w s) (hpos : s.pos = .leasing) (now : Time)
    (rowLocked : List Nat) (answer : LeaseAnswer) : Agrees w (s.lease w now rowLocked answer) := by
  have hidle : s.system.workers w = .idle := h.idle (by rw [hpos]; rfl)
  cases answer with
  | failed => exact h.move (by rw [hpos]; rfl)
  | lost =>
    refine agrees_idle rfl ?_
    rcases workers_lease hidle now rowLocked true with hstill | ⟨hlost, -⟩
    · exact hstill
    · cases hlost
  | arrived =>
    simp only [LoopState.lease]
    rcases workers_lease hidle now rowLocked false with hstill | ⟨-, job, n, hjob⟩
    · split
      · exact agrees_idle rfl hstill
      · rename_i heq
        rw [hstill] at heq
        cases heq
    · split
      · rename_i heq
        rw [hjob] at heq
        cases heq
      · exact ⟨fun hno => (by cases hno), fun _ => ⟨job, n, hjob⟩⟩

theorem workers_finish {sys : System} {job : Job} {n : Nat}
    (h : sys.workers w = .working job n .written) (now : Time) :
    (step sys (now, .finish w)).workers w = .idle := by
  simp only [step, h]
  exact Function.update_self ..

theorem workers_outcome {sys : System} {job : Job} {n : Nat}
    (h : sys.workers w = .working job n .running) (now : Time) (fails : Bool) (run : JobRun) :
    (step sys (now, if fails then .writeFails w else .write w run)).workers w =
      .working job n .written := by
  split
  · simp only [step, h]
    exact Function.update_self ..
  · simp only [step, h]
    exact Function.update_self ..

theorem Agrees.write (h : Agrees w s) (hjob : s.pos.atJob = true) (now : Time) (fails : Bool)
    (run : JobRun) : Agrees w (s.write w now fails run) := by
  obtain ⟨job, n, hw⟩ := h.working hjob
  exact agrees_idle rfl (workers_finish (workers_outcome hw now _ run) now)

/-- The recovery write leaves the worker idle, in whichever stage the panic comes. -/
theorem workers_recovery {sys : System} {job : Job} {n : Nat} {stage : Stage}
    (h : sys.workers w = .working job n stage) (now : Time) (rec_ : GoString) (backoffMs : Int)
    (fails : Bool) :
    (step sys (now, if fails then .recoverFails w else .recover w rec_ backoffMs)).workers w =
      .idle := by
  split
  · exact Function.update_self ..
  · simp only [step, h]
    exact Function.update_self ..

theorem Agrees.panicked (h : Agrees w s) (hjob : s.pos.atJob = true) (now : Time)
    (behind : Option (Bool × Int × Int)) (rec_ : GoString) (backoffMs : Int) (fails : Bool) :
    (((s.panicActs w behind rec_ backoffMs fails).map fun a => (now, a)).foldl step
      s.system).workers w = .idle := by
  obtain ⟨job, n, hw⟩ := h.working hjob
  unfold LoopState.panicActs
  dsimp only
  split
  · exact workers_recovery (workers_outcome hw now _ _) now rec_ backoffMs fails
  · exact workers_recovery hw now rec_ backoffMs fails

/-- The steps between the statements, which change nothing but the position. -/
def LoopAction.onlyMoves : LoopAction → Bool
  | .checked | .woken | .lookedUp _ _ | .opened _ | .sent _ _ | .closed _ | .unwound => true
  | _ => false

/-- Such a step neither takes up a job nor ends one. -/
theorem loopStep_onlyMoves {a : Time × LoopAction} (ha : a.2.onlyMoves = true) :
    ∃ pos : Pos, pos.atJob = s.pos.atJob ∧ loopStep w s a = { s with pos := pos } := by
  obtain ⟨now, act⟩ := a
  have hstays : ∃ pos : Pos, pos.atJob = s.pos.atJob ∧ s = { s with pos := pos } :=
    ⟨s.pos, rfl, rfl⟩
  cases act with
  | other | cancel | leased | wrote | panicked | drained => cases ha
  | checked =>
    simp only [loopStep]
    split
    · rename_i hpos
      refine ⟨_, ?_, rfl⟩
      rw [hpos]
      split <;> rfl
    · exact hstays
  | woken | closed =>
    simp only [loopStep]
    split
    · rename_i hpos
      exact ⟨_, by rw [hpos]; rfl, rfl⟩
    · exact hstays
  | lookedUp | opened =>
    simp only [loopStep]
    split
    · rename_i hpos
      split <;> exact ⟨_, by rw [hpos]; rfl, rfl⟩
    · exact hstays
  | sent answer read =>
    simp only [loopStep]
    split
    · rename_i srcSize hpos
      split
      · exact ⟨_, by rw [hpos]; rfl, rfl⟩
      · refine ⟨_, ?_, rfl⟩
        rw [hpos, atJob_afterSend]
        rfl
    · exact hstays
  | unwound =>
    simp only [loopStep]
    split
    case h_4 => exact hstays
    all_goals
      rename_i hpos
      exact ⟨_, by rw [hpos]; rfl, rfl⟩

theorem Agrees.onlyMoves (h : Agrees w s) {a : Time × LoopAction} (ha : a.2.onlyMoves = true) :
    Agrees w (loopStep w s a) := by
  obtain ⟨pos, hpos, heq⟩ := loopStep_onlyMoves (w := w) (s := s) ha
  rw [heq]
  exact h.move hpos

theorem Agrees.step (h : Agrees w s) (a : Time × LoopAction) : Agrees w (loopStep w s a) := by
  obtain ⟨now, act⟩ := a
  cases act with
  | other a =>
    simp only [loopStep]
    split
    · exact h
    · rename_i hne
      refine ⟨fun hjob => ?_, fun hjob => ?_⟩
      · rw [workers_step hne]
        exact h.idle hjob
      · rw [workers_step hne]
        exact h.working hjob
  | cancel => exact h.move rfl
  | checked | woken | lookedUp | opened | sent | closed | unwound =>
    exact h.onlyMoves rfl
  | leased rowLocked answer =>
    simp only [loopStep]
    split
    · rename_i hpos
      split
      · exact h.move (by rw [hpos]; rfl)
      · exact h.lease hpos now rowLocked answer
    · exact h
  | wrote fails durationMs backoffMs =>
    simp only [loopStep]
    split
    · rename_i run hpos
      exact h.write (by rw [hpos]; rfl) now fails _
    · exact h
  | panicked behind rec_ backoffMs fails =>
    simp only [loopStep]
    split
    · rename_i hjob
      exact agrees_idle rfl (h.panicked hjob now behind rec_ backoffMs fails)
    · exact h
  | drained fails =>
    simp only [loopStep]
    split
    · rename_i hpos
      have hidle : s.system.workers w = .idle := h.idle (by rw [hpos]; rfl)
      refine agrees_idle rfl ?_
      split
      · exact hidle
      · simp only [Worker.step, hidle]
        exact hidle
    · exact h

theorem loopReach_agrees {start : System} (hidle : start.workers w = .idle)
    (as : List (Time × LoopAction)) : Agrees w (loopReach w start as) :=
  foldl_invariant (Agrees w) (fun _ a h => h.step a) (agrees_idle rfl hidle) as

theorem loopReach_inv (start : List (Time × Action)) (as : List (Time × LoopAction)) :
    SystemInv (loopReach w (reach start) as).system := by
  obtain ⟨acts, hacts⟩ := loopReach_system start as
  rw [hacts]
  exact reach_inv (start ++ acts)

theorem loopStep_systemInv (h : SystemInv s.system) (a : Time × LoopAction) :
    SystemInv (loopStep w s a).system := by
  rw [loopStep_system]
  exact foldl_invariant SystemInv step_inv h _

/-! ## After the cancellation -/

theorem cancelled_step (h : s.cancelled = true) (a : Time × LoopAction) :
    (loopStep w s a).cancelled = true := by
  obtain ⟨now, act⟩ := a
  cases act with
  | cancel => rfl
  | leased rowLocked answer =>
    simp only [loopStep, h, if_true]
    split
    · rfl
    · exact h
  | other | checked | woken | lookedUp | opened | sent | closed | wrote | panicked | unwound
  | drained =>
    simp only [loopStep]
    repeat' split
    all_goals exact h

/-- A panic that `processOne` recovers. -/
def LoopAction.panics : LoopAction → Bool
  | .panicked _ _ _ _ => true
  | _ => false

/-- No statement before the drain has an effect, other than a recovery write. -/
theorem cancelled_tables (h : s.cancelled = true) {a : Time × LoopAction}
    (hown : ∀ b, a.2 ≠ .other b) (hcalm : a.2.panics = false) (hdrain : a.2 ≠ .drained false) :
    (loopStep w s a).system.tables = s.system.tables := by
  obtain ⟨now, act⟩ := a
  rw [loopStep_system]
  cases act with
  | other b => exact absurd rfl (hown b)
  | panicked => cases hcalm
  | drained fails =>
    cases fails with
    | false => exact absurd rfl hdrain
    | true =>
      simp only [runnerActs, if_true]
      split <;> rfl
  | leased rowLocked answer =>
    simp only [runnerActs, h]
    split <;> first | rfl | contradiction
  | wrote fails durationMs backoffMs =>
    simp only [runnerActs, h, Bool.true_or, if_true]
    split
    · rw [List.foldl_cons, List.foldl_cons, List.foldl_nil, step_tables_eq, step_tables_eq]
      rfl
    · rfl
  | cancel | checked | woken | lookedUp | opened | sent | closed | unwound => rfl

/-- A loop that has returned takes no step of its own. -/
theorem loopStep_returned (h : s.pos = .returned) {a : Time × LoopAction}
    (hown : ∀ b, a.2 ≠ .other b) (hcancel : a.2 ≠ .cancel) : loopStep w s a = s := by
  obtain ⟨now, act⟩ := a
  cases act with
  | other b => exact absurd rfl (hown b)
  | cancel => exact absurd rfl hcancel
  | panicked => simp only [loopStep, h, Pos.atJob, Bool.false_eq_true, if_false]
  | checked | leased | woken | lookedUp | opened | sent | closed | wrote | unwound | drained =>
    simp only [loopStep, h]

theorem returned_loopStep (h : s.pos = .returned) (a : Time × LoopAction) :
    (loopStep w s a).pos = .returned := by
  obtain ⟨now, act⟩ := a
  cases act with
  | other b =>
    simp only [loopStep]
    split <;> exact h
  | cancel => exact h
  | checked | leased | woken | lookedUp | opened | sent | closed | wrote | panicked | unwound
  | drained =>
    rw [loopStep_returned h (fun _ => LoopAction.noConfusion) LoopAction.noConfusion]
    exact h

/-- The steps that the loop still takes after the cancellation, at most. -/
def Pos.rank : Pos → Nat
  | .returned => 0
  | .draining => 1
  | .top => 2
  | .waiting => 3
  | .leasing => 4
  | .writing _ => 3
  | .closing _ => 4
  | .sending _ => 5
  | .opening => 6
  | .lookup => 7

theorem rank_top_lt {pos : Pos} (h : pos.atJob = true) : Pos.top.rank < pos.rank := by
  cases pos <;> simp [Pos.atJob, Pos.rank] at h ⊢

theorem rank_lt (h : s.cancelled = true) {a : Time × LoopAction} (hown : ∀ b, a.2 ≠ .other b)
    (hmoves : (loopStep w s a).pos ≠ s.pos) : (loopStep w s a).pos.rank < s.pos.rank := by
  obtain ⟨now, act⟩ := a
  cases act with
  | other b => exact absurd rfl (hown b)
  | cancel => exact absurd rfl hmoves
  | checked | leased | woken | closed | wrote | drained =>
    simp only [loopStep, h, if_true] at hmoves ⊢
    split at hmoves
    · rename_i hpos
      simp only [hpos, LoopState.write, Pos.rank]
      omega
    · exact absurd rfl hmoves
  | panicked =>
    simp only [loopStep] at hmoves ⊢
    split at hmoves
    · rename_i hjob
      rw [if_pos hjob]
      exact rank_top_lt hjob
    · exact absurd rfl hmoves
  | unwound =>
    simp only [loopStep] at hmoves ⊢
    split at hmoves
    case h_4 => exact absurd rfl hmoves
    all_goals
      rename_i hpos
      simp only [hpos, Pos.rank]
      omega
  | lookedUp | opened =>
    simp only [loopStep] at hmoves ⊢
    split at hmoves
    · rename_i hpos
      rw [hpos]
      split <;> simp only [Pos.rank] <;> omega
    · exact absurd rfl hmoves
  | sent answer read =>
    simp only [loopStep] at hmoves ⊢
    split at hmoves
    · rename_i hpos
      rw [hpos]
      split
      · simp only [Pos.rank]
        omega
      · rw [afterSend]
        repeat' split
        all_goals simp only [Pos.rank]; omega
    · exact absurd rfl hmoves

/-- No step of another goroutine ends the lease of the row. -/
def KeepsLease (w : String) (r : JobRow) (s : LoopState) (a : Time × LoopAction) : Prop :=
  ∀ b, a.2 = .other b → r ∈ s.system.tables.jobs → r ∈ (loopStep w s a).system.tables.jobs

theorem SameRow.refl {t : Tables} {r : JobRow} (hr : r ∈ t.jobs) : SameRow t t r := ⟨hr, rfl⟩

theorem SameRow.trans {t t' t'' : Tables} {r : JobRow} (h : SameRow t t' r)
    (h' : SameRow t' t'' r) : SameRow t t'' r :=
  ⟨h'.row, h'.events.trans h.events⟩

theorem sameRow_of_kept {sys : System} (hwf : sys.tables.Wf) {r : JobRow} (hr : r ∈ sys.tables.jobs)
    (hleased : r.status = .leased) {a : Time × Action} (hkept : r ∈ (step sys a).tables.jobs) :
    SameRow sys.tables (step sys a).tables r := by
  obtain ⟨now, act⟩ := a
  rw [step_tables_eq] at hkept ⊢
  cases hop : operation sys act with
  | none => exact .refl hr
  | some op =>
    rw [hop] at hkept
    exact ⟨hkept, eventsOf_exec hwf hr hleased hkept⟩

/-- A leased row in a step before the drain. -/
theorem sameRow_step {r : JobRow} {a : Time × LoopAction} (hinv : SystemInv s.system)
    (hcancelled : s.cancelled = true) (hr : r ∈ s.system.tables.jobs)
    (hleased : r.status = .leased) (hkeeps : KeepsLease w r s a) (hcalm : a.2.panics = false)
    (hstays : (loopStep w s a).pos ≠ .returned) :
    SameRow s.system.tables (loopStep w s a).system.tables r := by
  obtain ⟨now, act⟩ := a
  cases act with
  | other b =>
    have hkept := hkeeps b rfl hr
    simp only [loopStep] at hkept ⊢
    split at hkept
    · rename_i hme
      rw [if_pos hme]
      exact .refl hr
    · rename_i hnotme
      rw [if_neg hnotme]
      exact sameRow_of_kept hinv.wf hr hleased hkept
  | drained fails =>
    simp only [loopStep] at hstays ⊢
    split at hstays
    · exact absurd rfl hstays
    · exact .refl hr
  | panicked => cases hcalm
  | cancel | checked | leased | woken | lookedUp | opened | sent | closed | wrote | unwound =>
    rw [cancelled_tables hcancelled (by simp) rfl (by simp)]
    exact .refl hr

/-- A leased row up to the drain. -/
theorem sameRow_run {r : JobRow} {as : List (Time × LoopAction)} (hinv : SystemInv s.system)
    (hcancelled : s.cancelled = true) (hr : r ∈ s.system.tables.jobs)
    (hleased : r.status = .leased) (hkeeps : AllSteps (loopStep w) (KeepsLease w r) s as)
    (hcalm : ∀ a ∈ as, a.2.panics = false) (hend : (as.foldl (loopStep w) s).pos = .draining) :
    SameRow s.system.tables (as.foldl (loopStep w) s).system.tables r := by
  induction as generalizing s with
  | nil => exact .refl hr
  | cons a as ih =>
    have hone : SameRow s.system.tables (loopStep w s a).system.tables r :=
      sameRow_step hinv hcancelled hr hleased hkeeps.1 (hcalm a List.mem_cons_self) fun hret => by
        have hlast : (as.foldl (loopStep w) (loopStep w s a)).pos = .returned :=
          foldl_invariant (fun s : LoopState => s.pos = .returned)
            (fun _ b h => returned_loopStep h b) hret as
        cases hlast.symm.trans hend
    exact hone.trans (ih (loopStep_systemInv hinv a) (cancelled_step hcancelled a) hone.row
      hkeeps.2 (fun b hb => hcalm b (List.mem_cons_of_mem _ hb)) hend)

/-! ## The return -/

theorem heldBy_requeue (now : Time) (r : JobRow) : heldBy w (r.requeue now) = false := rfl

/-- The drain gives back every row of the worker. -/
theorem heldBy_drainLease {t : Tables} {now : Time} {r : JobRow}
    (hr : r ∈ (drainLease t now w).jobs) : heldBy w r = false := by
  obtain ⟨x, -, rfl⟩ := List.mem_map.mp hr
  split
  · exact heldBy_requeue now x
  · rename_i hnot
    exact Bool.not_eq_true _ ▸ hnot

theorem requeue_mem_drainLease {t : Tables} (now : Time) {r : JobRow} (hr : r ∈ t.jobs)
    (hheld : heldBy w r = true) : r.requeue now ∈ (drainLease t now w).jobs :=
  List.mem_map.mpr ⟨r, hr, by rw [if_pos hheld]⟩

theorem tables_drained (h : Agrees w s) (hpos : s.pos = .draining) (now : Time) :
    (loopStep w s (now, .drained false)).system.tables = drainLease s.system.tables now w := by
  have hidle : s.system.workers w = .idle := h.idle (by rw [hpos]; rfl)
  simp only [loopStep, hpos, step, hidle, Bool.false_eq_true, if_false]
  rfl

theorem loopReach_append {start : System} (as bs : List (Time × LoopAction)) :
    loopReach w start (as ++ bs) = bs.foldl (loopStep w) (loopReach w start as) := by
  rw [loopReach, List.foldl_append]
  rfl

theorem leased_of_heldBy {r : JobRow} (h : heldBy w r = true) : r.status = .leased := by
  rw [heldBy, Bool.and_eq_true, beq_iff_eq] at h
  exact h.1

/-- Every step of the loop leaves the rows that other workers hold. -/
theorem sameRow_other {r : JobRow} (hinv : SystemInv s.system) {a : Time × LoopAction}
    (hown : ∀ b, a.2 ≠ .other b) (hr : r ∈ s.system.tables.jobs) (hleased : r.status = .leased)
    (hother : heldBy w r = false) : SameRow s.system.tables (loopStep w s a).system.tables r := by
  rw [loopStep_system]
  refine (foldl_mem (fun sys => SystemInv sys ∧ SameRow s.system.tables sys.tables r) ?_
    ⟨hinv, .refl hr⟩ (runnerActs_worker hown)).2
  rintro sys x ⟨hsys, hsame⟩ hx
  exact ⟨step_inv sys x hsys, hsame.trans (step_sameRow hsys.wf hx hsame.row hleased hother)⟩

/-- The return of a worker loop with a drain that succeeds, at the end of any run.  No
row is leased under its name; every row that it held when the context was cancelled,
and whose lease no one else has ended, is pending with its attempts, its
`next_run_at` and its events, unless `processOne` has panicked after the cancellation;
no step of the loop has changed a row of another worker; and once cancelled the loop
has at most seven steps to go. -/
theorem shutdown_costs_no_attempt (w : String) (start : List (Time × Action))
    (hidle : (reach start).workers w = .idle) (as : List (Time × LoopAction))
    (hreturns : (loopReach w (reach start) as).pos = .draining) (now : Time) :
    (loopReach w (reach start) (as ++ [(now, .drained false)])).pos = .returned ∧
    (∀ r ∈ (loopReach w (reach start) (as ++ [(now, .drained false)])).system.tables.jobs,
      heldBy w r = false) ∧
    (∀ before time after, as = before ++ (time, .cancel) :: after →
      ∀ r ∈ (loopReach w (reach start) before).system.tables.jobs, heldBy w r = true →
        AllSteps (loopStep w) (KeepsLease w r)
          (loopReach w (reach start) (before ++ [(time, .cancel)])) after →
        (∀ a ∈ after, a.2.panics = false) →
        r.requeue now ∈
          (loopReach w (reach start) (as ++ [(now, .drained false)])).system.tables.jobs ∧
        eventsOf (loopReach w (reach start) (as ++ [(now, .drained false)])).system.tables r.id =
          eventsOf (loopReach w (reach start) before).system.tables r.id) ∧
    (∀ before a, (∀ b, a.2 ≠ LoopAction.other b) →
      ∀ r ∈ (loopReach w (reach start) before).system.tables.jobs, r.status = .leased →
        heldBy w r = false → SameRow (loopReach w (reach start) before).system.tables
          (loopReach w (reach start) (before ++ [a])).system.tables r) ∧
    ∀ before a, (∀ b, a.2 ≠ LoopAction.other b) →
      (loopReach w (reach start) before).cancelled = true →
      (loopReach w (reach start) (before ++ [a])).pos ≠ (loopReach w (reach start) before).pos →
      (loopReach w (reach start) (before ++ [a])).pos.rank <
        (loopReach w (reach start) before).pos.rank := by
  have htables := tables_drained (loopReach_agrees hidle as) hreturns now
  have hlast : loopReach w (reach start) (as ++ [(now, .drained false)]) =
      loopStep w (loopReach w (reach start) as) (now, .drained false) := loopReach_append as _
  refine ⟨?_, ?_, ?_, ?_, ?_⟩
  · rw [hlast]
    simp only [loopStep, hreturns]
  · rw [hlast, htables]
    exact fun r => heldBy_drainLease
  · rintro before time after rfl r hr hheld hkeeps hcalm
    have hend : loopReach w (reach start) (before ++ (time, .cancel) :: after) =
        after.foldl (loopStep w) (loopReach w (reach start) (before ++ [(time, .cancel)])) := by
      rw [← loopReach_append, List.append_assoc]
      rfl
    have hcancelled :
        (loopReach w (reach start) (before ++ [(time, .cancel)])).cancelled = true := by
      rw [loopReach_append]
      rfl
    have hsystem : (loopReach w (reach start) before).system =
        (loopReach w (reach start) (before ++ [(time, .cancel)])).system := by
      rw [loopReach_append]
      rfl
    rw [hsystem] at hr
    rw [hlast, htables, hsystem]
    rw [hend] at hreturns ⊢
    have hsame := sameRow_run (loopReach_inv start _) hcancelled hr (leased_of_heldBy hheld)
      hkeeps hcalm hreturns
    exact ⟨requeue_mem_drainLease now hsame.row hheld, hsame.events⟩
  · intro before a hown r hr hleased hother
    rw [loopReach_append]
    exact sameRow_other (loopReach_inv start before) hown hr hleased hother
  · intro before a hown hcancelled hmoves
    rw [loopReach_append] at hmoves ⊢
    exact rank_lt hcancelled hown hmoves

end Loop

/-- The context is cancelled while the source is opened, and `Open` then answers with
a permanent error. -/
def cancelledOpen : List (Time × LoopAction) :=
  [(0, .checked), (0, .leased [] .arrived), (0, .lookedUp none none)] ++ (1, .cancel) ::
    [(2, .opened (.error ⟨goString "context canceled", false, true⟩)), (3, .wrote false 0 0),
      (3, .checked)]

/-- The job goes back without an attempt and without an event. -/
theorem shutdown_costs_no_attempt_open :
    (loopReach "pod-w0" (reach (releaseRun.take 1)) cancelledOpen).pos = .draining ∧
    firstLease.requeue 4 ∈ (loopReach "pod-w0" (reach (releaseRun.take 1))
      (cancelledOpen ++ [(4, .drained false)])).system.tables.jobs ∧
    (firstLease.requeue 4).attempts = 0 := by
  have hdraining : (loopReach "pod-w0" (reach (releaseRun.take 1)) cancelledOpen).pos =
      .draining := rfl
  refine ⟨hdraining, ?_, rfl⟩
  refine ((shutdown_costs_no_attempt "pod-w0" (releaseRun.take 1) rfl cancelledOpen hdraining
    4).2.2.1 _ 1 _ rfl firstLease (by decide) (by decide) ?_ (by decide)).1
  simp only [AllSteps, KeepsLease, reduceCtorEq, false_implies, implies_true, and_self]

end ImgSync.Worker
