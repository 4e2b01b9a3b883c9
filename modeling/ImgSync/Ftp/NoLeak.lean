import ImgSync.Ftp.JobSteps

/-!
# No job leaks a connection

A connection that `Acquire` gave to a job is released once: `JobsInv` says that
it is not released twice, and that both connections are gone when the job ends.
Every job in flight can come to its end by its own steps.  Outside `Acquire` one
step brings it closer, whatever the server answers (`rest_next`); in `Acquire`
the context may be cancelled.
-/

namespace ImgSync.Ftp

open ImgSync.Lib

section Handle

variable {cfg : PoolConfig} {s : Jobs} {e : Nat} {x : Exec} {h : Handle}

theorem Exec.Consistent.src (hc : x.Consistent) (hsrc : x.src = some h) :
    h.Inside ∨ h.Held ∨ h.Gone := by
  unfold Exec.Consistent at hc
  cases hstage : x.stage with
  | before =>
    simp only [hstage, hsrc] at hc
    exact absurd hc.2.2.1 (Option.some_ne_none h)
  | opening =>
    simp only [hstage] at hc
    obtain ⟨-, -, ⟨g, hg, hin, -⟩, -⟩ := hc
    rw [hsrc] at hg
    cases hg
    exact Or.inl hin
  | returning =>
    simp only [hstage] at hc
    obtain ⟨hbody, -⟩ := hc
    split at hbody
    · exact Or.inr (Or.inr (hbody h hsrc))
    · exact Or.inr (Or.inl (hbody.held h hsrc))
  | closing deferred failed =>
    simp only [hstage] at hc
    exact Or.inr (Or.inl (hc.2.2.1 h hsrc).1)
  | done =>
    simp only [hstage] at hc
    exact Or.inr (Or.inr (hc.1 h hsrc))
  | _ =>
    simp only [hstage] at hc
    exact Or.inr (Or.inl (hc.1.held h hsrc))

theorem Exec.Consistent.dst (hc : x.Consistent) (hdst : x.dst = some h) :
    h.Inside ∨ h.Held ∨ h.Gone := by
  have hsome : x.dst ≠ none := by
    rw [hdst]
    exact Option.some_ne_none h
  unfold Exec.Consistent at hc
  cases hstage : x.stage with
  | before | opening =>
    simp only [hstage] at hc
    exact absurd hc.2.2.2 hsome
  | sizing | retrieving =>
    simp only [hstage] at hc
    exact absurd hc.2.2 hsome
  | opened | copying =>
    simp only [hstage] at hc
    exact absurd hc.2 hsome
  | acquiring =>
    simp only [hstage] at hc
    obtain ⟨-, g, hg, hin, -⟩ := hc
    rw [hdst] at hg
    cases hg
    exact Or.inl hin
  | cleaning =>
    simp only [hstage] at hc
    obtain ⟨-, g, hg, hheld⟩ := hc
    rw [hdst] at hg
    cases hg
    exact Or.inr (Or.inl hheld)
  | sent | closeNow | returning | done =>
    simp only [hstage] at hc
    exact Or.inr (Or.inr (hc.2 h hdst))
  | closing deferred failed =>
    simp only [hstage] at hc
    exact Or.inr (Or.inr (hc.2.2.2 h hdst))
  | _ =>
    simp only [hstage] at hc
    obtain ⟨-, g, hg, hheld, -⟩ := hc
    rw [hdst] at hg
    cases hg
    exact Or.inr (Or.inl hheld)

theorem Exec.Consistent.handle (hc : x.Consistent) (hh : x.Has h) :
    h.Inside ∨ h.Held ∨ h.Gone := by
  rcases hh with hsrc | hdst
  · exact hc.src hsrc
  · exact hc.dst hdst

/-- An execution that is not in flight has no connection. -/
theorem Exec.Consistent.gone (hc : x.Consistent) (hout : x.inFlight = false) (hh : x.Has h) :
    h.Gone := by
  unfold Exec.inFlight at hout
  unfold Exec.Consistent at hc
  cases hstage : x.stage with
  | before =>
    simp only [hstage] at hc
    rcases hh with hsrc | hdst
    · exact gone_of_none hc.2.2.1 h hsrc
    · exact gone_of_none hc.2.2.2 h hdst
  | done =>
    simp only [hstage] at hc
    rcases hh with hsrc | hdst
    · exact hc.1 h hsrc
    · exact hc.2 h hdst
  | _ =>
    simp only [hstage] at hout
    cases hout

theorem Handle.releases_le (hh : h.Inside ∨ h.Held ∨ h.Gone) : h.releases.length ≤ 1 := by
  rcases hh with hin | hheld | ⟨-, hrel⟩ | ⟨-, broken, hrel, -⟩
  · rw [hin.2]
    exact Nat.zero_le 1
  · rw [hheld.2]
    exact Nat.zero_le 1
  · rw [hrel]
    exact Nat.zero_le 1
  · rw [hrel]
    exact le_rfl

theorem Handle.acquired_of_released (hh : h.Inside ∨ h.Held ∨ h.Gone) (hrel : h.releases ≠ []) :
    h.acquired = some true := by
  rcases hh with hin | hheld | ⟨-, hnil⟩ | ⟨hacq, -⟩
  · exact absurd hin.2 hrel
  · exact hheld.1
  · exact absurd hnil hrel
  · exact hacq

theorem Handle.broken_of_failed (hh : h.Inside ∨ h.Held ∨ h.Gone) :
    ∀ broken ∈ h.releases, h.failed = true → broken = true := by
  intro b hb hfailed
  rcases hh with hin | hheld | ⟨-, hnil⟩ | ⟨-, broken, hrel, hbroken⟩
  · rw [hin.2] at hb
    cases hb
  · rw [hheld.2] at hb
    cases hb
  · rw [hnil] at hb
    cases hb
  · rw [hrel] at hb
    rw [List.mem_singleton.mp hb]
    exact hbroken hfailed

/-- The call of a connection that is gone has ended. -/
theorem Handle.Agrees.done {p : Pool} {ph : Phase} (ha : h.Agrees p) (hgone : h.Gone)
    (hph : p.phase? h.call = some ph) : ph = .done := by
  obtain ⟨ph', hph', hno, hgot⟩ := ha
  rw [hph] at hph'
  cases hph'
  rcases hgone with ⟨hacq, -⟩ | ⟨hacq, broken, hrel, -⟩
  · exact hno hacq
  · have hdone := hgot hacq
    rwa [if_neg (by rw [hrel]; exact List.cons_ne_nil _ _)] at hdone

theorem JobsInv.inUse_eq_zero (hinv : JobsInv cfg s) (hout : ∀ e, (s.execs e).inFlight = false)
    (host : String) : (s.pool.hosts host).inUse = 0 := by
  rw [(hinv.capacity host).inUse, Int.natCast_eq_zero, List.countP_eq_zero]
  intro ph hmem
  obtain ⟨i, hi⟩ := List.mem_iff_getElem?.mp hmem
  obtain ⟨e, huses⟩ := hinv.owned (host, i) ph hi
  obtain ⟨h, hh, hcall⟩ := huses.has
  have hgone := (hinv.consistent e).gone (hout e) hh
  have hdone := (hinv.agrees e h hh).done hgone (by rw [hcall]; exact hi)
  rw [hdone]
  exact Bool.false_ne_true

end Handle

/-! ## The way out -/

/-- The execution that takes the step. -/
def JobAction.exec? : JobAction → Option Nat
  | .openOther e _ | .openFtp e _ | .acquire e _ | .acquired e | .size e _ | .retr e _ _
  | .sendOther e _ | .sendFtp e _ | .copied e _ | .readBegin e | .readEnd e _ | .mkd e _
  | .stor e _ | .rename e _ _ | .dele e _ _ | .verify e _ | .closeBody e _ | .releaseBody e _ =>
    some e
  | .closePool => none

/-- A step that brings a call of `Acquire` closer to its return. -/
def Phase.next : Phase → CallStep
  | .entering | .woken => .enter fun _ => 0
  | .pinging _ => .noop true
  | .noopFailed | .dialFailed => .unwind
  | .dialing => .dial false
  | .loggingIn _ => .login false
  | .parked _ => .cancel
  | .cancelling _ | .holding _ | .done => .evict

/-- The number of those steps that are left, at most. -/
def Phase.rest : Phase → Nat
  | .noopFailed => 4
  | .entering | .woken => 3
  | .dialing | .loggingIn _ | .parked _ => 2
  | .pinging _ | .dialFailed | .cancelling _ => 1
  | .holding _ | .done => 0

/-- The number of steps that are left to `ProcessJob`, at most, an `Acquire` being
one of them. -/
def JobStage.rest : JobStage → Nat
  | .opening => 14
  | .sizing => 13
  | .retrieving => 12
  | .opened => 11
  | .acquiring => 10
  | .making => 9
  | .storing | .copying => 8
  | .renaming => 7
  | .cleaning => 6
  | .sent _ => 5
  | .closeNow => 4
  | .closing false _ => 3
  | .returning => 2
  | .closing true _ => 1
  | .before | .done => 0

/-- The next step of `ProcessJob` outside `Acquire`. -/
def JobStage.next (e : Nat) (ok : Bool) (now : Int) : JobStage → JobAction
  | .sizing => .size e ok
  | .retrieving => .retr e ok now
  | .opened => .sendOther e ok
  | .copying => .copied e ok
  | .making => .mkd e ok
  | .storing => .stor e ok
  | .renaming => .rename e ok now
  | .cleaning => .dele e ok now
  | .sent _ => .verify e ok
  | .closeNow | .returning => .closeBody e ok
  | .closing _ _ => .releaseBody e now
  | .before | .opening | .acquiring | .done => .acquired e

section WayOut

variable {cfg : PoolConfig} {s : Jobs} {e : Nat} {h : Handle}

theorem enter_rest {closed : Bool} {host : Host} {i : Nat} (hlt : i < host.calls.length)
    (clock : Nat → Int) :
    ∃ ph, (host.enter cfg closed clock i).calls[i]? = some ph ∧ ph.rest < 3 := by
  have hset : ∀ ph : Phase, (host.calls.set i ph)[i]? = some ph :=
    fun ph => List.getElem?_set_self hlt
  unfold Host.enter
  split
  · exact ⟨_, hset .done, by decide⟩
  · split
    · refine ⟨_, hset _, ?_⟩
      split <;> simp [Phase.rest]
    · split
      · exact ⟨_, hset .dialing, by decide⟩
      · exact ⟨_, hset (.parked _), by simp [Phase.rest]⟩

theorem callStep_next {closed : Bool} {host : Host} {i : Nat} {ph : Phase}
    (hi : host.calls[i]? = some ph) (hrest : ph.rest ≠ 0) :
    ∃ ph', (host.callStep cfg closed i ph ph.next).calls[i]? = some ph' ∧ ph'.rest < ph.rest := by
  obtain ⟨hlt, -⟩ := List.getElem?_eq_some_iff.mp hi
  have hset : ∀ ph' : Phase, (host.calls.set i ph')[i]? = some ph' :=
    fun ph' => List.getElem?_set_self hlt
  cases ph with
  | entering | woken => exact enter_rest hlt _
  | pinging c => exact ⟨_, hset (.holding c), by simp [Phase.rest]⟩
  | noopFailed =>
    refine ⟨.entering, ?_, by decide⟩
    show ((host.setCall i .entering).freeSlot).calls[i]? = _
    rw [freeSlot_calls]
    exact hset .entering
  | dialing => exact ⟨_, hset .dialFailed, by decide⟩
  | loggingIn c => exact ⟨_, hset .dialFailed, by simp [Phase.rest]⟩
  | dialFailed =>
    refine ⟨.done, ?_, by decide⟩
    show ((host.setCall i .done).freeSlot).calls[i]? = _
    rw [freeSlot_calls]
    exact hset .done
  | parked ch => exact ⟨_, hset (.cancelling ch), by simp [Phase.rest]⟩
  | cancelling ch =>
    refine ⟨.done, ?_, by simp [Phase.rest]⟩
    show ((host.setCall i .done).evict ch).calls[i]? = _
    rw [evict_calls]
    exact hset .done
  | holding c => exact absurd rfl hrest
  | done => exact absurd rfl hrest

theorem phase?_next {p : Pool} {c : CallId} {ph : Phase} (hph : p.phase? c = some ph)
    (hrest : ph.rest ≠ 0) :
    ∃ ph', (p.call cfg c ph.next).phase? c = some ph' ∧ ph'.rest < ph.rest := by
  obtain ⟨host, i⟩ := c
  have hi : (p.hosts host).calls[i]? = some ph := hph
  show ∃ ph', (Function.update p.hosts host _ host).calls[i]? = some ph' ∧ _
  rw [Function.update_self, Host.step_call hi]
  exact callStep_next hi hrest

theorem next_isRelease (ph : Phase) : ph.next.isRelease = false := by
  cases ph <;> rfl

theorem execs_set (x : Exec) : (s.set e x).execs e = x := by
  show Function.update s.execs e x e = x
  rw [Function.update_self]

theorem execs_move {c : CallId} {st : CallStep} (x : Exec) :
    (s.move cfg e c st x).execs e = x := by
  show Function.update s.execs e x e = x
  rw [Function.update_self]

/-- `Acquire` has returned: the job goes on. -/
theorem rest_acquired {ph : Phase} (hacq : (s.execs e).acquiring? = some h)
    (hph : s.pool.phase? h.call = some ph) (hrest : ph.rest = 0) :
    ((jobStep cfg s (.acquired e)).execs e).stage.rest < (s.execs e).stage.rest := by
  have hreturned : (∃ k, ph = .holding k) ∨ ph = .done := by
    cases ph with
    | holding k => exact Or.inl ⟨k, rfl⟩
    | done => exact Or.inr rfl
    | _ => cases hrest
  simp only [jobStep, hacq]
  cases hstage : (s.execs e).stage with
  | opening =>
    simp only [hph, execs_set]
    rcases hreturned with ⟨k, rfl⟩ | rfl <;> simp [Exec.openReturns, JobStage.rest]
  | acquiring =>
    simp only [hph, execs_set]
    rcases hreturned with ⟨k, rfl⟩ | rfl <;> simp [Exec.sendReturns, JobStage.rest]
  | _ =>
    rw [Exec.acquiring?, hstage] at hacq
    cases hacq

/-- An execution can leave its `Acquire`. -/
theorem exists_acquired (hinv : JobsInv cfg s) (hacq : (s.execs e).acquiring? = some h) {ph : Phase}
    (hph : s.pool.phase? h.call = some ph) :
    ∃ bs : List JobAction, (∀ a ∈ bs, a.exec? = some e) ∧
      ((bs.foldl (jobStep cfg) s).execs e).stage.rest < (s.execs e).stage.rest := by
  induction hn : ph.rest using Nat.strongRecOn generalizing s ph with
  | ind n ih =>
    by_cases hrest : ph.rest = 0
    · refine ⟨[.acquired e], ?_, ?_⟩
      · intro a ha
        rw [List.mem_singleton.mp ha]
        rfl
      · rw [List.foldl_cons, List.foldl_nil]
        exact rest_acquired hacq hph hrest
    · have hnext : jobStep cfg s (.acquire e ph.next) =
          s.move cfg e h.call ph.next (s.execs e) := by
        simp only [jobStep, hacq, next_isRelease, Bool.false_eq_true, if_false]
      have hexec : (jobStep cfg s (.acquire e ph.next)).execs e = s.execs e := by
        rw [hnext, execs_move]
      obtain ⟨ph', hph', hlt⟩ := phase?_next hph hrest
      have hpool : (jobStep cfg s (.acquire e ph.next)).pool.phase? h.call = some ph' := by
        rw [hnext]
        exact hph'
      obtain ⟨bs, hown, hbs⟩ := ih ph'.rest (hn ▸ hlt) (hinv.acquire e ph.next)
        (by rw [hexec]; exact hacq) hpool rfl
      refine ⟨.acquire e ph.next :: bs, ?_, ?_⟩
      · intro a ha
        rcases List.mem_cons.mp ha with rfl | ha
        · rfl
        · exact hown a ha
      · rw [List.foldl_cons, ← hexec]
        exact hbs

/-- Outside `Acquire` every answer of the server brings the job closer to its end. -/
theorem rest_next (hc : (s.execs e).Consistent) (hrest : (s.execs e).stage.rest ≠ 0)
    (hopening : (s.execs e).stage ≠ .opening) (hacquiring : (s.execs e).stage ≠ .acquiring)
    (ok : Bool) (now : Int) :
    ((jobStep cfg s ((s.execs e).stage.next e ok now)).execs e).stage.rest <
      (s.execs e).stage.rest := by
  unfold Exec.Consistent at hc
  cases hstage : (s.execs e).stage with
  | opening => exact absurd hstage hopening
  | acquiring => exact absurd hstage hacquiring
  | before | done =>
    rw [hstage] at hrest
    exact absurd rfl hrest
  | sizing | making =>
    simp only [JobStage.next, jobStep, hstage, execs_set]
    decide
  | retrieving =>
    simp only [hstage] at hc
    obtain ⟨-, ⟨h, hsrc⟩, -⟩ := hc
    simp only [JobStage.next, jobStep, hstage, hsrc]
    cases ok <;> simp [execs_set, execs_move, JobStage.rest]
  | opened | copying | storing =>
    simp only [JobStage.next, jobStep, hstage]
    cases ok <;> simp [execs_set, JobStage.rest]
  | cleaning =>
    simp only [hstage] at hc
    obtain ⟨-, h, hdst, -⟩ := hc
    simp only [JobStage.next, jobStep, hstage, hdst, execs_move]
    decide
  | sent sendOk =>
    simp only [JobStage.next, jobStep, hstage, execs_set]
    split <;> simp [JobStage.rest]
  | closeNow =>
    simp only [JobStage.next, jobStep, hstage, execs_set]
    simp [JobStage.rest]
  | returning =>
    simp only [JobStage.next, jobStep, hstage]
    split <;> simp [execs_set, JobStage.rest]
  | closing deferred failed =>
    simp only [JobStage.next, jobStep, hstage]
    have hless : ∀ src, ((s.execs e).bodyClosed deferred src).stage.rest <
        (JobStage.closing deferred failed).rest := by
      intro src
      cases deferred <;> simp [Exec.bodyClosed, JobStage.rest]
    split
    · split
      · rw [execs_set]
        exact hless _
      · rw [execs_move]
        exact hless _
    · rw [execs_set]
      exact hless _
  | _ =>
    simp only [hstage] at hc
    obtain ⟨-, h, hdst, -⟩ := hc
    simp only [JobStage.next, jobStep, hstage, hdst]
    cases ok <;> simp [execs_set, execs_move, JobStage.rest]

theorem next_exec (st : JobStage) (e : Nat) (ok : Bool) (now : Int) :
    (st.next e ok now).exec? = some e := by
  cases st <;> rfl

theorem rest_eq_zero {x : Exec} (hrest : x.stage.rest = 0) : x.inFlight = false := by
  unfold Exec.inFlight
  cases hstage : x.stage with
  | before | done => rfl
  | closing deferred failed =>
    rw [hstage] at hrest
    cases deferred <;> cases hrest
  | _ =>
    rw [hstage] at hrest
    cases hrest

/-- Some steps of its own bring an execution in flight closer to its end. -/
theorem exists_rest_lt (hinv : JobsInv cfg s) (hrest : (s.execs e).stage.rest ≠ 0) :
    ∃ bs : List JobAction, (∀ a ∈ bs, a.exec? = some e) ∧
      ((bs.foldl (jobStep cfg) s).execs e).stage.rest < (s.execs e).stage.rest := by
  have hc := hinv.consistent e
  cases hacq : (s.execs e).acquiring? with
  | some h =>
    obtain ⟨ph, hph, -⟩ := hinv.agrees e h (hinv.acquiring hacq).1
    exact exists_acquired hinv hacq hph
  | none =>
    refine ⟨[(s.execs e).stage.next e true 0], ?_, ?_⟩
    · intro a ha
      rw [List.mem_singleton.mp ha]
      exact next_exec _ e true 0
    · rw [List.foldl_cons, List.foldl_nil]
      refine rest_next hc hrest ?_ ?_ true 0
      · intro hstage
        simp only [Exec.Consistent, hstage] at hc
        obtain ⟨-, -, ⟨h, hsrc, -⟩, -⟩ := hc
        rw [Exec.acquiring?, hstage, hsrc] at hacq
        cases hacq
      · intro hstage
        simp only [Exec.Consistent, hstage] at hc
        obtain ⟨-, h, hdst, -⟩ := hc
        rw [Exec.acquiring?, hstage, hdst] at hacq
        cases hacq

/-- Every execution can come to its end by steps of its own. -/
theorem exists_ended (hinv : JobsInv cfg s) (e : Nat) :
    ∃ bs : List JobAction, (∀ a ∈ bs, a.exec? = some e) ∧
      ((bs.foldl (jobStep cfg) s).execs e).inFlight = false := by
  induction hn : (s.execs e).stage.rest using Nat.strongRecOn generalizing s with
  | ind n ih =>
    by_cases hrest : (s.execs e).stage.rest = 0
    · exact ⟨[], nofun, rest_eq_zero hrest⟩
    · obtain ⟨bs, hown, hlt⟩ := exists_rest_lt hinv hrest
      obtain ⟨bs', hown', hend⟩ := ih _ (hn ▸ hlt)
        (foldl_invariant (JobsInv cfg) (fun _ a hinv => hinv.step a) hinv bs) rfl
      refine ⟨bs ++ bs', ?_, ?_⟩
      · intro a ha
        rcases List.mem_append.mp ha with ha | ha
        · exact hown a ha
        · exact hown' a ha
      · rw [List.foldl_append]
        exact hend

end WayOut

/-- Every connection that `Acquire` gives to a job belongs to one handle of the
job and is released at most once, and exactly once when the job has ended; it is
released as broken if RETR, a read, the close, STOR or the rename on it failed.
With no job in flight no slot is in use.  Every job in flight can end. -/
theorem no_leak (cfg : PoolConfig) (as : List JobAction) :
    (∀ e h, ((jobReach cfg as).execs e).Has h →
      h.releases.length ≤ 1 ∧ (h.releases ≠ [] → h.acquired = some true) ∧
      (∀ broken ∈ h.releases, h.failed = true → broken = true) ∧
      (((jobReach cfg as).execs e).inFlight = false → h.acquired = some true →
        h.releases.length = 1)) ∧
    (∀ c k, (jobReach cfg as).pool.phase? c = some (.holding k) →
      ∃ e h, ((jobReach cfg as).execs e).Has h ∧ h.call = c ∧
        ((jobReach cfg as).execs e).inFlight = true) ∧
    ((∀ e, ((jobReach cfg as).execs e).inFlight = false) →
      ∀ host, ((jobReach cfg as).pool.hosts host).inUse = 0) ∧
    ∀ e, ∃ bs : List JobAction, (∀ a ∈ bs, a.exec? = some e) ∧
      ((jobReach cfg (as ++ bs)).execs e).inFlight = false := by
  have hinv := reach_jobsInv cfg as
  refine ⟨?_, ?_, fun hout host => hinv.inUse_eq_zero hout host, ?_⟩
  · intro e h hh
    have hcases := (hinv.consistent e).handle hh
    refine ⟨Handle.releases_le hcases, Handle.acquired_of_released hcases,
      Handle.broken_of_failed hcases, ?_⟩
    intro hout hacq
    rcases (hinv.consistent e).gone hout hh with ⟨hno, -⟩ | ⟨-, broken, hrel, -⟩
    · rw [hacq] at hno
      cases hno
    · rw [hrel]
      rfl
  · intro c k hk
    obtain ⟨e, huses⟩ := hinv.owned c _ hk
    obtain ⟨h, hh, rfl⟩ := huses.has
    refine ⟨e, h, hh, rfl, ?_⟩
    by_contra hout
    have hgone := (hinv.consistent e).gone (Bool.not_eq_true _ ▸ hout) hh
    cases (hinv.agrees e h hh).done hgone hk
  · intro e
    obtain ⟨bs, hown, hend⟩ := exists_ended hinv e
    refine ⟨bs, hown, ?_⟩
    rw [jobReach, List.foldl_append]
    exact hend

end ImgSync.Ftp
