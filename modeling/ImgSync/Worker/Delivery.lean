import ImgSync.Localfs.Publish
import ImgSync.Transfer.Integrity
import ImgSync.Worker.Exclusive

/-!
# From the queue to the file

The system of workers and the file system with the calls of `Transport.Send`,
side by side.  A worker inside of `ProcessJob` calls `Send` once, for the
destination of its snapshot, and the call makes its steps only while the worker
is there.  The outcome statement of the worker is computed from what the call has
answered: an answer of `Transfer.localSend` that ends the same way (`answers_iff`).
A worker that crashes or panics leaves its call where it is.

`delivered` is what the program is for.  When a job of the LocalFS transport has
succeeded, its destination holds the bytes that the success event describes.  It
has two conditions.  No two jobs have the same destination, and the run is
punctual: a worker that is still at work after a sweep has given its job to
somebody else cannot write its outcome any more, but it can still rename.
-/

namespace ImgSync.Worker.Delivery

open ImgSync.Lib ImgSync.Queue ImgSync.Worker

/-- A call of `Send`: the worker that has made it, its snapshot and its lease. -/
structure Assignment where
  worker : String
  job : Job
  lease : Nat
  deriving DecidableEq

structure State (n : Nat) where
  system : System
  sends : Localfs.Sends n
  assigned : Fin n → Option Assignment

inductive Act (n : Nat) where
  | queue (a : Action)
  /-- The worker calls `Send`. -/
  | send (w : String) (i : Fin n)
  | file (a : Localfs.Step n)

/-- The worker is inside of `ProcessJob` for the snapshot. -/
def Assignment.active (x : Assignment) (s : System) : Bool :=
  s.workers x.worker = .working x.job x.lease .running

/-- `ProcessJob` gets as far as `Transport.Send`. -/
def JobRun.sends (run : JobRun) : Bool :=
  run.sourceFor.isNone && run.transportFor.isNone && run.calls.opened.isOk

section Model

variable {n : Nat} (sha : List UInt8 → GoString) (dst : Fin n → GoString)
  (body : Fin n → List UInt8)

/-- What a call that has returned has answered. -/
def answers (sent : Except GoError (Int × GoString)) (b : List UInt8) : Localfs.Phase → Bool
  | .succeeded => sent = .ok ((b.length : Int), sha b)
  | .errored => !sent.isOk
  | _ => false

/-- The outcome of a job for the LocalFS transport goes by the answer of the
call. -/
def admits (d : State n) : Action → Bool
  | .write w run =>
    match d.system.workers w with
    | .working job lease .running =>
      job.dstProtocol ≠ "localfs" ∨
        if JobRun.sends run then
          ∃ i, d.assigned i = some ⟨w, job, lease⟩ ∧
            answers sha run.calls.sent (body i) (d.sends.sends i)
        else ∀ i, d.assigned i ≠ some ⟨w, job, lease⟩
    | _ => true
  | _ => true

def step (d : State n) : Time × Act n → State n
  | (now, .queue a) =>
    if admits sha body d a then { d with system := Worker.step d.system (now, a) } else d
  | (_, .send w i) =>
    match d.system.workers w with
    | .working job lease .running =>
      if job.dstProtocol = "localfs" ∧ dst i = goString job.dst ∧ d.assigned i = none ∧
          ∀ j, d.assigned j ≠ some ⟨w, job, lease⟩ then
        { d with assigned := Function.update d.assigned i (some ⟨w, job, lease⟩) }
      else d
    | _ => d
  | (_, .file a) =>
    if (d.assigned a.call).any (Assignment.active · d.system) then
      { d with sends := Localfs.step dst body d.sends a }
    else d

def initial (files : Files GoString) : State n where
  system := System.init
  sends := Localfs.initial files
  assigned := fun _ => none

def reach (files : Files GoString) (acts : List (Time × Act n)) : State n :=
  acts.foldl (step sha dst body) (initial files)

/-- The run is punctual, and no two jobs have the same destination. -/
def Ok (d : State n) : Time × Act n → Prop
  | (now, .queue a) => Punctual d.system (now, a)
  | (_, .send w i) => ∀ job lease, d.system.workers w = .working job lease .running →
      ∀ j x, d.assigned j = some x → dst j = dst i → x.job.id = job.id
  | (_, .file _) => True

/-- The destination holds the bytes of the call, and a success event of the job
describes them. -/
structure Holds (d : State n) (r : JobRow) (i : Fin n) : Prop where
  assigned : ∃ x, d.assigned i = some x ∧ x.job.id = r.id
  path : dst i = goString r.dst
  content : d.sends.files.content (dst i) = some (body i)
  event : ∃ e ∈ d.system.tables.events, e.jobId = r.id ∧ e.status = .success ∧
    ∃ ms, e.detail = successDetail (body i).length (sha (body i)) ms

structure Inv (files : Files GoString) (d : State n) : Prop where
  system : SystemInv d.system
  owned : Owned d.system
  files : Localfs.Inv dst body files d.sends
  unassigned : ∀ i, d.assigned i = none → d.sends.sends i = .start
  path : ∀ i x, d.assigned i = some x → dst i = goString x.job.dst
  past : ∀ i x, d.assigned i = some x → x.lease < d.system.nextLease
  one : ∀ i j x, d.assigned i = some x → d.assigned j = some x → i = j
  apart : ∀ i j x y, d.assigned i = some x → d.assigned j = some y → dst i = dst j →
    x.job.id = y.job.id
  renamed : ∀ i x, d.assigned i = some x → x.active d.system = true →
    d.sends.sends i = .succeeded → d.sends.files.content (dst i) = some (body i)
  done : ∀ r ∈ d.system.tables.jobs, r.status = .succeeded → r.dstProtocol = "localfs" →
    ∃ i, Holds sha dst body d r i

end Model

/-! ## The answers of `Send` -/

section Answers

open ImgSync.Transfer

variable {sha : List UInt8 → GoString}

theorem result_of_publishes {env : LocalEnv} {f : Files GoString} {dst : GoString} {body : Stream}
    (hwf : f.Wf) (h : env.publishes body = true) :
    (localSend sha env f dst body).result = .ok (body.bytes.length, sha body.bytes) := by
  simp only [LocalEnv.publishes, Bool.and_eq_true, Option.isNone_iff_eq_none] at h
  obtain ⟨⟨⟨⟨⟨hcancel, hcreate⟩, hcopy⟩, hsync⟩, hclose⟩, hrename⟩ := h
  cases htmp : env.createTemp with
  | error e =>
    rw [htmp] at hcreate
    cases hcreate
  | ok tmp =>
    obtain ⟨f'', hren, -⟩ := (Files.store_spec hwf tmp (body.copied env.write).1).rename dst
    simp only [localSend, hcancel, htmp, hcopy, hsync, hclose, hrename, hren]

/-- How a call of `Send` ends in its environment. -/
def endPhase (env : LocalEnv) (body : Stream) : Localfs.Phase :=
  if env.publishes body then .succeeded else .errored

/-- What a call can have answered is what `localSend` answers in some environment in which
it ends the same way. -/
theorem answers_iff {sent : Except GoError (Int × GoString)} {b : List UInt8}
    {ph : Localfs.Phase} :
    answers sha sent b ph = true ↔ ∃ (env : LocalEnv) (f : Files GoString) (dst : GoString)
      (body : Stream), f.Wf ∧ env.createTemp ≠ .ok dst ∧ body.bytes = b ∧
        (localSend sha env f dst body).result = sent ∧ ph = endPhase env body := by
  constructor
  · intro h
    have hwf : (⟨fun _ => none, fun _ => [], 0⟩ : Files GoString).Wf :=
      ⟨fun _ _ hno => (by cases hno), fun _ _ _ hno => (by cases hno)⟩
    have htmp : (.ok (goString "t") : Except (GoError × Bool) GoString) ≠ .ok (goString "d") := by
      decide
    cases ph with
    | succeeded =>
      rw [answers, decide_eq_true_eq] at h
      have hpublishes : LocalEnv.publishes ⟨none, .ok (goString "t"), none, none, none, none, true⟩
        ⟨[b], none⟩ = true := rfl
      refine ⟨_, _, goString "d", _, hwf, htmp, ?_, ?_, (if_pos hpublishes).symm⟩
      · exact List.append_nil b
      · rw [result_of_publishes hwf hpublishes, h, Stream.bytes, List.flatten_singleton]
    | errored =>
      cases sent with
      | ok answer => cases h
      | error e =>
        exact ⟨⟨some e, .ok (goString "t"), none, none, none, none, true⟩, _, goString "d",
          ⟨[b], none⟩, hwf, htmp, List.append_nil b, rfl, rfl⟩
    | start | writing | copied | synced | closed | failed | removing => cases h
  · rintro ⟨env, f, dst, body, hwf, htmp, rfl, rfl, rfl⟩
    cases hpublishes : env.publishes body with
    | true =>
      rw [endPhase, if_pos hpublishes, answers, decide_eq_true_eq]
      exact result_of_publishes hwf hpublishes
    | false =>
      rw [endPhase, hpublishes, if_neg Bool.false_ne_true, answers]
      cases hresult : (localSend sha env f dst body).result with
      | error e => rfl
      | ok answer =>
        have hwritten := (localSend_spec env hwf htmp).written answer.1 answer.2 hresult
        rw [hpublishes] at hwritten
        cases hwritten.1

/-- A call that has answered without an error has renamed, and answers the length and the
hash of its body. -/
theorem succeeded_of_answers {answer : Int × GoString} {b : List UInt8} {ph : Localfs.Phase}
    (h : answers sha (.ok answer) b ph = true) :
    ph = .succeeded ∧ answer = ((b.length : Int), sha b) := by
  obtain ⟨env, f, dst, body, hwf, htmp, rfl, hresult, rfl⟩ := answers_iff.mp h
  have hdelivered := localSend_ok hresult
  have hwritten := (localSend_spec env hwf htmp).written answer.1 answer.2 hresult
  exact ⟨if_pos hwritten.1, Prod.ext hdelivered.written hdelivered.sha256⟩

end Answers

/-! ## A row that has succeeded -/

/-- The event that an outcome write inserts for the row it rewrites. -/
theorem exec_success_event {t : Tables} (hwf : t.Wf) (now : Time) {w : String} {job : Job}
    {det : Detail} {r : JobRow} (hr : r ∈ t.jobs) (hg : leaseGuard job.id w r = true) :
    ∃ e ∈ (exec t now (.outcome w (.success job det))).events,
      e.jobId = r.id ∧ e.status = .success ∧ e.detail = det := by
  have hid : r.id = job.id := (leaseGuard_iff.mp hg).1
  have hg' : leaseGuard r.id w r = true := by rwa [hid]
  rw [exec, Statement.exec, ← hid, guardedWrite_eq hwf hr hg']
  exact ⟨_, List.mem_append_right _ List.mem_cons_self, rfl, rfl, rfl⟩

/-- A row that has succeeded had done so before and keeps its events, or the
operation is the success write for it. -/
theorem exec_succeeded {t : Tables} (hwf : t.Wf) {now : Time} {op : Op} {r' : JobRow}
    (hr' : r' ∈ (exec t now op).jobs) (hs : r'.status = .succeeded) :
    (r' ∈ t.jobs ∧ ∀ e ∈ t.events, e.jobId = r'.id → e ∈ (exec t now op).events) ∨
    ∃ w job det, ∃ r ∈ t.jobs, op = .outcome w (.success job det) ∧
      leaseGuard job.id w r = true ∧ r' = setSuccess now r := by
  by_cases hret : op.IsRetention
  · obtain ⟨keep, hpruned⟩ := exec_retention hwf now hret
    refine Or.inl ⟨(hpruned.trail hr').1, fun e he hid => ?_⟩
    rw [hpruned.jobs, List.mem_filter] at hr'
    rw [hpruned.events, List.mem_filter, hid]
    exact ⟨he, hr'.2⟩
  · obtain ⟨d⟩ := exec_delta hwf now hret
    have hkept : ∀ e ∈ t.events, e ∈ (exec t now op).events := by
      intro e he
      rw [d.events]
      exact List.mem_append_left _ he
    rcases d.mem_jobs.mp hr' with ⟨r, hr, rfl⟩ | hnew
    · have hstep := d.rows r hr
      generalize d.f r = x, kindsOf d.evs r.id = kinds at hstep hs ⊢
      cases hstep with
      | keep => exact Or.inl ⟨hr, fun e he _ => hkept e he⟩
      | succeed w job det hg => exact Or.inr ⟨w, job, det, r, hr, rfl, hg, rfl⟩
      | lease | drain | expire | retry =>
        exact absurd hs (by simp [lease, JobRow.requeue, setRetry])
      | finish w job kind =>
        exact absurd hs (by cases kind <;> simp [setTerminal, TerminalKind.jobStatus])
    · rw [(d.created r' hnew).pending] at hs
      exact absurd hs (by decide)

theorem classifyAndWrite_ne_success {job job' : Job} {jobErr : GoError} {detail det : Detail}
    {backoffMs : Int} : classifyAndWrite job jobErr detail backoffMs ≠ .success job' det :=
  fun h => event_classifyAndWrite (congrArg Statement.event h)

/-- A job that ends with the success write has called `Send`, and the write has
the answer. -/
theorem processOne_success {job job' : Job} {run : JobRun} {det : Detail}
    (h : processOne job run = .success job' det) :
    JobRun.sends run = true ∧ ∃ answer, run.calls.sent = .ok answer ∧
      det = successDetail answer.1 answer.2 run.calls.durationMs := by
  rw [processOne] at h
  cases hsrc : run.sourceFor with
  | some e => simp [hsrc, writeTerminal] at h
  | none =>
    cases htr : run.transportFor with
    | some e => simp [hsrc, htr, writeTerminal] at h
    | none =>
      simp only [hsrc, htr, processJob] at h
      cases hopen : run.calls.opened with
      | error e =>
        simp only [hopen] at h
        exact absurd h classifyAndWrite_ne_success
      | ok srcSize =>
        cases hsent : run.calls.sent with
        | error e =>
          simp only [hopen, hsent] at h
          exact absurd h classifyAndWrite_ne_success
        | ok answer =>
          refine ⟨by simp [JobRun.sends, hsrc, htr, hopen, Except.isOk, Except.toBool],
            answer, rfl, ?_⟩
          simp only [hopen, hsent, verifyAndClose] at h
          split at h
          · exact absurd h classifyAndWrite_ne_success
          · split at h
            · exact absurd h classifyAndWrite_ne_success
            · split at h
              · exact absurd h classifyAndWrite_ne_success
              · exact (Statement.success.inj h).2.symm

/-- Only the outcome statement of `ProcessJob` is a success write. -/
theorem operation_success {s : System} {a : Action} {w : String} {job : Job} {det : Detail}
    (h : operation s a = some (.outcome w (.success job det))) :
    ∃ run lease, a = .write w run ∧ s.workers w = .working job lease .running ∧
      processOne job run = .success job det := by
  cases a with
  | external op =>
    rw [operation] at h
    split at h
    · rename_i hext
      cases h
      exact absurd hext (by simp [External])
    · cases h
  | lease | drain =>
    rw [operation] at h
    split at h <;> cases h
  | write v run =>
    rw [operation] at h
    split at h
    · rename_i job' lease hw
      obtain ⟨rfl, hst⟩ := Op.outcome.inj (Option.some.inj h)
      have hjob := (processOne_sound job' run).2
      rw [hst] at hjob
      obtain rfl : job = job' := hjob
      exact ⟨run, lease, rfl, hw, hst⟩
    · cases h
  | recover v rec_ backoffMs =>
    rw [operation] at h
    split at h
    · have hst := (Op.outcome.inj (Option.some.inj h)).2
      rw [recoveryWrite, writeRetryOrDead] at hst
      split at hst <;> cases hst
    · cases h
  | writeFails | recoverFails | finish | crash => cases h

/-! ## The workers after a step -/

theorem nextLease_le (s : System) (a : Time × Action) :
    s.nextLease ≤ (Worker.step s a).nextLease := by
  obtain ⟨now, act⟩ := a
  cases act with
  | lease w rowLocked lost =>
    simp only [Worker.step]
    split
    · exact le_rfl
    · split
      · exact le_rfl
      · split <;> exact Nat.le_succ _
  | external | write | writeFails | recover | recoverFails | finish | drain | crash =>
    simp only [Worker.step]
    first
      | exact le_rfl
      | split <;> exact le_rfl

/-- A worker that is inside of `ProcessJob` was there before the step, or has a
new lease. -/
theorem step_running {s : System} {a : Time × Action} {w : String} {job : Job} {lease : Nat}
    (h : (Worker.step s a).workers w = .working job lease .running) :
    s.workers w = .working job lease .running ∨ lease = s.nextLease := by
  -- A step that puts a worker elsewhere has not put this one there.
  have hset : ∀ (s' : System) v ws, s'.workers = s.workers →
      (∀ job n, ws ≠ .working job n .running) →
      (s'.setWorker v ws).workers w = .working job lease .running →
      s.workers w = .working job lease .running := by
    intro s' v ws hs' hws hw
    by_cases hwv : w = v
    · subst hwv
      simp only [System.setWorker, Function.update_self] at hw
      exact absurd hw (hws job lease)
    · simpa only [System.setWorker, Function.update_of_ne hwv, hs'] using hw
  obtain ⟨now, act⟩ := a
  cases act with
  | external op =>
    refine Or.inl ?_
    rw [Worker.step] at h
    split at h <;> exact h
  | lease v rowLocked lost =>
    simp only [Worker.step] at h
    split at h
    · exact Or.inl h
    · split at h
      · exact Or.inl h
      · split at h
        · exact Or.inl h
        · by_cases hwv : w = v
          · subst hwv
            simp only [System.setWorker, Function.update_self, WorkerState.working.injEq] at h
            exact Or.inr h.2.1.symm
          · simp only [System.setWorker, Function.update_of_ne hwv] at h
            exact Or.inl h
  | write v run =>
    refine Or.inl ?_
    rw [Worker.step] at h
    split at h
    · exact hset _ _ _ rfl (by simp) h
    · exact h
  | writeFails v =>
    refine Or.inl ?_
    rw [Worker.step] at h
    split at h
    · exact hset _ _ _ rfl (by simp) h
    · exact h
  | recover v rec_ backoffMs =>
    refine Or.inl ?_
    rw [Worker.step] at h
    split at h
    · exact hset _ _ _ rfl (by simp) h
    · exact h
  | recoverFails v => exact Or.inl (hset _ _ _ rfl (by simp) h)
  | finish v =>
    refine Or.inl ?_
    rw [Worker.step] at h
    split at h
    · exact hset _ _ _ rfl (by simp) h
    · exact h
  | drain v =>
    refine Or.inl ?_
    rw [Worker.step] at h
    split at h <;> exact h
  | crash v => exact Or.inl (hset _ _ _ rfl (by simp) h)

/-! ## The file after a rename -/

section Files

variable {n : Nat} {dst : Fin n → GoString} {body : Fin n → List UInt8} {files : Files GoString}
  {s : Localfs.Sends n}

/-- The step with which a call succeeds puts its body at the destination. -/
theorem content_of_succeeds (h : Localfs.Inv dst body files s) {a : Localfs.Step n}
    (hnot : s.sends a.call ≠ .succeeded)
    (hs : (Localfs.step dst body s a).sends a.call = .succeeded) :
    (Localfs.step dst body s a).files.content (dst a.call) = some (body a.call) := by
  cases a with
  | rename i ok =>
    simp only [Localfs.step, Localfs.Step.call] at hs hnot ⊢
    split at hs
    · rename_i tmp ino hclosed
      have hbody : Localfs.Owned s.files (body i) (.closed tmp ino) := hclosed ▸ h.owned i
      split at hs
      · rename_i f hr
        cases ok with
        | true => exact (Files.content_rename hr).trans hbody.content
        | false => cases hr
      · simp [Localfs.Sends.setPhase] at hs
    · exact absurd hs hnot
  | create i tmp | write i k | copyFails i j | eof i | sync i ok | close i ok | remove i =>
    refine absurd ?_ hnot
    revert hs
    simp only [Localfs.step, Localfs.Step.call]
    repeat' split
    all_goals simp [Localfs.Sends.setPhase]

/-- A call that has renamed makes no further step. -/
theorem step_of_succeeded {a : Localfs.Step n} (hs : s.sends a.call = .succeeded) :
    Localfs.step dst body s a = s := by
  cases a with
  | create i tmp | write i k | copyFails i j | eof i | sync i ok | close i ok | rename i ok
  | remove i =>
    simp only [Localfs.Step.call] at hs
    simp only [Localfs.step, hs]

end Files

/-! ## The invariant -/

section Step

variable {n : Nat} {sha : List UInt8 → GoString} {dst : Fin n → GoString}
  {body : Fin n → List UInt8} {files : Files GoString} {d : State n}

theorem active_iff {x : Assignment} {s : System} :
    x.active s = true ↔ s.workers x.worker = .working x.job x.lease .running := by
  rw [Assignment.active, decide_eq_true_eq]

/-- The row of an active call is leased. -/
theorem Inv.row (h : Inv sha dst body files d) {x : Assignment} (hx : x.active d.system = true) :
    Owns d.system x.worker x.job x.lease :=
  h.owned x.worker x.job x.lease (active_iff.mp hx)

/-- Two active calls do not share a destination. -/
theorem Inv.alone (h : Inv sha dst body files d) {i j : Fin n} {x y : Assignment}
    (hi : d.assigned i = some x) (hj : d.assigned j = some y) (hx : x.active d.system = true)
    (hy : y.active d.system = true) (hdst : dst i = dst j) : i = j := by
  have hrow : x.job = y.job :=
    eq_of_key_eq h.system.wf.ids (h.row hx).row (h.row hy).row (h.apart i j x y hi hj hdst)
  have hworker : x.worker = y.worker := by
    have hx' := (h.row hx).owner
    rw [hrow] at hx'
    exact Option.some.inj (hx'.symm.trans (h.row hy).owner)
  have hlease : x.lease = y.lease := by
    have hx' := (h.row hx).number
    rw [hrow] at hx'
    exact hx'.symm.trans (h.row hy).number
  have heq : x = y := by
    obtain ⟨xw, xj, xl⟩ := x
    obtain ⟨yw, yj, yl⟩ := y
    simp only at hrow hworker hlease
    rw [hrow, hworker, hlease]
  exact h.one i j x hi (heq ▸ hj)

theorem Inv.file (h : Inv sha dst body files d) (now : Time) (a : Localfs.Step n) :
    Inv sha dst body files (step sha dst body d (now, .file a)) := by
  rw [step]
  split
  case isFalse => exact h
  rename_i hany
  obtain ⟨x, hx, hactive⟩ := (Option.any_eq_true _ _).mp hany
  -- A call that is not active keeps its file, and so does its destination.
  have hother : ∀ i, dst i ≠ dst a.call →
      (Localfs.step dst body d.sends a).files.content (dst i) = d.sends.files.content (dst i) := by
    intro i hne
    rcases Localfs.step_acts h.files a with heq | ⟨f, ph, temps, heq, heff⟩
    · rw [heq]
    · rw [heq]
      rcases heff.dests i with hsame | ⟨hdst, -⟩
      · exact hsame
      · exact absurd hdst.symm hne
  have hphase : ∀ i, i ≠ a.call →
      (Localfs.step dst body d.sends a).sends i = d.sends.sends i := by
    intro i hne
    rcases Localfs.step_acts h.files a with heq | ⟨f, ph, temps, heq, -⟩
    · rw [heq]
    · rw [heq]
      exact Function.update_of_ne hne _ _
  refine { h with files := h.files.step a, unassigned := ?_, renamed := ?_, done := ?_ }
  · intro i hi
    have hne : i ≠ a.call := by
      rintro rfl
      rw [hx] at hi
      cases hi
    exact (hphase i hne).trans (h.unassigned i hi)
  · intro i y hy hyactive hsucc
    by_cases hi : i = a.call
    · subst hi
      by_cases hold : d.sends.sends a.call = .succeeded
      · rw [step_of_succeeded hold]
        exact h.renamed a.call y hy hyactive hold
      · exact content_of_succeeds h.files hold hsucc
    · have hne : dst i ≠ dst a.call := fun hdst => hi (h.alone hy hx hyactive hactive hdst)
      exact (hother i hne).trans (h.renamed i y hy hyactive ((hphase i hi).symm.trans hsucc))
  · intro r hr hs hproto
    obtain ⟨i, hheld⟩ := h.done r hr hs hproto
    obtain ⟨y, hy, hid⟩ := hheld.assigned
    -- The row of the active call is leased, so it is not `r`.
    have hne : dst i ≠ dst a.call := by
      intro hdst
      have hjob := (h.apart i a.call y x hy hx hdst).symm.trans hid
      have hleased := (h.row hactive).leased
      rw [eq_of_key_eq h.system.wf.ids (h.row hactive).row hr hjob, hs] at hleased
      cases hleased
    exact ⟨i, { hheld with content := (hother i hne).trans hheld.content }⟩

theorem Inv.send (h : Inv sha dst body files d) (now : Time) {w : String} {i : Fin n}
    (hok : Ok dst d (now, .send w i)) :
    Inv sha dst body files (step sha dst body d (now, .send w i)) := by
  rw [step]
  split
  case h_2 => exact h
  rename_i job lease hw
  split
  case isFalse => exact h
  rename_i hguard
  obtain ⟨-, hdst, hnone, hfresh⟩ := hguard
  have hcases : ∀ j x, Function.update d.assigned i (some ⟨w, job, lease⟩) j = some x →
      j = i ∧ x = ⟨w, job, lease⟩ ∨ d.assigned j = some x := by
    intro j x hj
    by_cases hji : j = i
    · subst hji
      rw [Function.update_self] at hj
      exact Or.inl ⟨rfl, (Option.some.inj hj).symm⟩
    · rw [Function.update_of_ne hji] at hj
      exact Or.inr hj
  have hstart := h.unassigned i hnone
  refine { h with
    unassigned := ?_, path := ?_, past := ?_, one := ?_, apart := ?_, renamed := ?_, done := ?_ }
  · intro j hj
    by_cases hji : j = i
    · rw [hji]
      exact hstart
    · exact h.unassigned j ((Function.update_of_ne hji _ _).symm.trans hj)
  · intro j x hj
    rcases hcases j x hj with ⟨rfl, rfl⟩ | hj
    · exact hdst
    · exact h.path j x hj
  · intro j x hj
    rcases hcases j x hj with ⟨rfl, rfl⟩ | hj
    · exact h.system.fenced.number w job lease .running hw
    · exact h.past j x hj
  · intro j k x hj hk
    rcases hcases j x hj with ⟨rfl, rfl⟩ | hj'
    · rcases hcases k _ hk with ⟨rfl, -⟩ | hk'
      · rfl
      · exact absurd hk' (hfresh k)
    · rcases hcases k x hk with ⟨rfl, rfl⟩ | hk'
      · exact absurd hj' (hfresh j)
      · exact h.one j k x hj' hk'
  · intro j k x y hj hk hdst'
    rcases hcases j x hj with ⟨rfl, rfl⟩ | hj'
    · rcases hcases k y hk with ⟨rfl, rfl⟩ | hk'
      · rfl
      · exact (hok job lease hw k y hk' hdst'.symm).symm
    · rcases hcases k y hk with ⟨rfl, rfl⟩ | hk'
      · exact hok job lease hw j x hj' hdst'
      · exact h.apart j k x y hj' hk' hdst'
  · intro j x hj hactive hsucc
    rcases hcases j x hj with ⟨rfl, rfl⟩ | hj
    · rw [hstart] at hsucc
      cases hsucc
    · exact h.renamed j x hj hactive hsucc
  · intro r hr hs hproto
    obtain ⟨j, hheld⟩ := h.done r hr hs hproto
    obtain ⟨x, hx, hid⟩ := hheld.assigned
    have hji : j ≠ i := by
      rintro rfl
      rw [hnone] at hx
      cases hx
    exact ⟨j, { hheld with assigned := ⟨x, (Function.update_of_ne hji _ _).trans hx, hid⟩ }⟩

/-- The success write of a worker whose `Send` has renamed. -/
theorem Inv.written (h : Inv sha dst body files d) {w : String} {run : JobRun} {job : Job}
    {lease : Nat} {det : Detail} (hadm : admits sha body d (.write w run) = true)
    (hw : d.system.workers w = .working job lease .running)
    (hst : processOne job run = .success job det) (hproto : job.dstProtocol = "localfs") :
    ∃ i, d.assigned i = some ⟨w, job, lease⟩ ∧ d.sends.files.content (dst i) = some (body i) ∧
      ∃ ms, det = successDetail (body i).length (sha (body i)) ms := by
  obtain ⟨hsends, answer, hsent, hdet⟩ := processOne_success hst
  simp only [admits, hw, hsends, hproto, if_true, ne_eq, not_true_eq_false, false_or,
    decide_eq_true_eq] at hadm
  obtain ⟨i, hi, hanswer⟩ := hadm
  rw [hsent] at hanswer
  obtain ⟨hph, rfl⟩ := succeeded_of_answers hanswer
  exact ⟨i, hi, h.renamed i _ hi (active_iff.mpr hw) hph, run.calls.durationMs, hdet⟩

theorem Inv.queue (h : Inv sha dst body files d) (now : Time) {a : Action}
    (hok : Ok dst d (now, .queue a)) :
    Inv sha dst body files (step sha dst body d (now, .queue a)) := by
  rw [step]
  split
  case isFalse => exact h
  rename_i hadm
  refine { h with
    system := step_inv _ _ h.system, owned := step_owned h.system h.owned hok
    past := ?_, renamed := ?_, done := ?_ }
  · exact fun i x hi => (h.past i x hi).trans_le (nextLease_le _ _)
  · intro i x hi hactive hsucc
    rcases step_running (active_iff.mp hactive) with hold | hnew
    · exact h.renamed i x hi (active_iff.mpr hold) hsucc
    · exact absurd hnew (h.past i x hi).ne
  · intro r' hr' hs hproto
    have hkept : r' ∈ d.system.tables.jobs →
        (∀ e ∈ d.system.tables.events, e.jobId = r'.id →
          e ∈ (Worker.step d.system (now, a)).tables.events) →
        ∃ i, Holds sha dst body { d with system := Worker.step d.system (now, a) } r' i := by
      intro hr hevents
      obtain ⟨i, hheld⟩ := h.done r' hr hs hproto
      obtain ⟨e, he, hid, hrest⟩ := hheld.event
      exact ⟨i, { hheld with event := ⟨e, hevents e he hid, hid, hrest⟩ }⟩
    rw [step_tables_eq] at hr' hkept
    cases hop : operation d.system a with
    | none =>
      rw [hop] at hr' hkept
      exact hkept hr' fun e he _ => he
    | some op =>
      rw [hop] at hr' hkept
      rcases exec_succeeded h.system.wf hr' hs with
        ⟨hr, hevents⟩ | ⟨w, job, det, r, hr, rfl, hg, rfl⟩
      · exact hkept hr hevents
      · obtain ⟨run, lease, rfl, hw, hst⟩ := operation_success hop
        -- The row that the guard picks is the snapshot of the worker.
        obtain rfl : r = job := eq_of_key_eq h.system.wf.ids hr
          (h.owned w job lease hw).row (leaseGuard_iff.mp hg).1
        obtain ⟨i, hi, hcontent, ms, rfl⟩ := h.written hadm hw hst hproto
        refine ⟨i, ⟨_, hi, rfl⟩, h.path i _ hi, hcontent, ?_⟩
        obtain ⟨e, he, hid, hstatus, hdet⟩ := exec_success_event h.system.wf now hr hg
        refine ⟨e, ?_, hid, hstatus, ms, hdet⟩
        show e ∈ (Worker.step d.system (now, .write w run)).tables.events
        rw [step_tables_eq, hop]
        exact he

theorem Inv.step (h : Inv sha dst body files d) {a : Time × Act n} (hok : Ok dst d a) :
    Inv sha dst body files (Delivery.step sha dst body d a) := by
  obtain ⟨now, act⟩ := a
  cases act with
  | queue a => exact h.queue now hok
  | send w i => exact h.send now hok
  | file a => exact h.file now a

theorem inv_initial {f : Files GoString} (hf : f.Fresh) : Inv sha dst body f (initial f) where
  system := systemInv_init
  owned := fun w job lease hw => absurd hw (by simp [initial, System.init])
  files := Localfs.inv_initial hf
  unassigned := fun _ _ => rfl
  path := fun i x hi => absurd hi (by simp [initial])
  past := fun i x hi => absurd hi (by simp [initial])
  one := fun i j x hi => absurd hi (by simp [initial])
  apart := fun i j x y hi => absurd hi (by simp [initial])
  renamed := fun i x hi => absurd hi (by simp [initial])
  done := fun r hr => absurd hr (by simp [initial, System.init, Tables.empty])

end Step

/-- From the queue to the file.  Take any run of workers, sweeps and other writers
over the queue, with any number of `Send` calls to a file system that nobody else
changes, in which no two jobs have the same destination and no sweep meets a
transfer that is older than the threshold.  When a job of the LocalFS transport
has succeeded, its destination holds the bytes that one of its transfers has
read, and the success event gives their number and their hash. -/
theorem delivered {n : Nat} (sha : List UInt8 → GoString) (dst : Fin n → GoString)
    (body : Fin n → List UInt8) (files : Files GoString) (hfiles : files.Fresh)
    (acts : List (Time × Act n))
    (hok : AllSteps (step sha dst body) (Ok dst) (initial files) acts) :
    ∀ r ∈ (reach sha dst body files acts).system.tables.jobs, r.status = .succeeded →
      r.dstProtocol = "localfs" → ∃ i, Holds sha dst body (reach sha dst body files acts) r i := by
  exact (foldl_all (Inv sha dst body files) (fun d a h hstep => h.step hstep) (inv_initial hfiles)
    hok).done

/-- The steps of a call that writes its body in one go and renames it. -/
def publish {n : Nat} (i : Fin n) (tmp : String) : List (Time × Act n) :=
  [.create i (some (goString tmp)), .write i 2, .eof i, .sync i true, .close i true,
    .rename i true].map fun a => (0, .file a)

/-- A `ProcessJob` of two bytes in which nothing fails. -/
def twoBytes (shaHex : GoString) : JobRun :=
  ⟨none, none, ⟨.ok 2, .ok (2, shaHex), 2, none, 5, 0⟩⟩

/-- A job is leased, transferred by the call `i`, and closed. -/
def oneDelivery {n : Nat} (i : Fin n) : List (Time × Act n) :=
  [(0, .queue (.external (.snifferEnqueue ⟨"t", "/a", "/b", "localfs", "localfs"⟩))),
    (0, .queue (.lease "pod-w0" [] false)), (0, .send "pod-w0" i)] ++
  publish i "/.imgsync-1.tmp" ++ [(0, .queue (.write "pod-w0" (twoBytes [7, 8])))]

def noFiles : Files GoString := ⟨fun _ => none, fun _ => [], 0⟩

theorem delivered_two_bytes :
    let d := reach id (fun _ : Fin 1 => goString "/b") (fun _ => [7, 8]) noFiles (oneDelivery 0)
    AllSteps (step id (fun _ : Fin 1 => goString "/b") (fun _ => [7, 8]))
        (Ok fun _ => goString "/b") (initial noFiles) (oneDelivery 0) ∧
      ∃ r ∈ d.system.tables.jobs, r.status = .succeeded ∧
        d.sends.files.content (goString r.dst) = some [7, 8] := by
  have hsweep : ∀ (s : System) (a : Time × Action), (∀ cfg, a.2 ≠ .external (.sweep cfg true)) →
      Punctual s a := fun s a hne cfg heq => absurd heq (hne cfg)
  have hok : AllSteps (step id (fun _ : Fin 1 => goString "/b") (fun _ => [7, 8]))
      (Ok fun _ => goString "/b") (initial noFiles) (oneDelivery 0) := by
    refine ⟨hsweep _ _ (by simp), hsweep _ _ (by simp), ?_, trivial, trivial, trivial, trivial,
      trivial, trivial, hsweep _ _ (by simp), trivial⟩
    intro job lease _ j x hx
    exact (nomatch hx)
  have hrow : (⟨1, "t", "/a", "/b", "localfs", "localfs", "{}", .succeeded, 0, 5, none, none, 0, 0,
      0⟩ : JobRow) ∈ (reach id (fun _ : Fin 1 => goString "/b") (fun _ => [7, 8]) noFiles
        (oneDelivery 0)).system.tables.jobs := by decide
  refine ⟨hok, _, hrow, rfl, ?_⟩
  obtain ⟨i, hheld⟩ := delivered id (fun _ : Fin 1 => goString "/b") (fun _ => [7, 8]) noFiles
    (fun _ _ h => nomatch h) (oneDelivery 0) hok _ hrow rfl rfl
  exact hheld.content

/-- Without punctuality the two can differ.  The worker `pod-w0` is still writing
when a sweep takes its job away.  It renames after `pod-w1` has closed the job, and
the destination has the bytes of the call `i` while the event describes those of
`j`. -/
def lateRename {n : Nat} (i j : Fin n) : List (Time × Act n) :=
  [(0, .queue (.external (.snifferEnqueue ⟨"t", "/a", "/b", "localfs", "localfs"⟩))),
    (0, .queue (.lease "pod-w0" [] false)), (0, .send "pod-w0" i),
    (301000000, .queue (.external (.sweep ⟨0⟩ true))),
    (301000000, .queue (.lease "pod-w1" [] false)), (301000000, .send "pod-w1" j)] ++
  publish j "/.imgsync-2.tmp" ++
  [(302000000, .queue (.write "pod-w1" (twoBytes [7, 1])))] ++ publish i "/.imgsync-1.tmp"

example :
    let d := reach id (fun _ : Fin 2 => goString "/b") (fun i => [7, i.val.toUInt8]) noFiles
      (lateRename 0 1)
    d.system.tables.jobs.map JobRow.status = [.succeeded] ∧
      d.system.tables.events.map EventRow.detail =
        [.fields [("reason", .str (goString "lease_expired"))], successDetail 2 [7, 1] 5] ∧
      d.sends.files.content (goString "/b") = some [7, 0] := by
  decide

end ImgSync.Worker.Delivery
