import ImgSync.Ftp.Pod

/-!
# Which worker owns a call of `Acquire`

`Ownership` ties the workers of a pod to the calls in its pool.  A call that
has not ended belongs to exactly one worker, which is either in the call or
keeps the call's connection for its open body.  `PodInv` adds the invariants
of the pool and the limits of `hostcap`, and `podReach_inv` proves all of it
for every run.
-/

namespace ImgSync.Ftp

open ImgSync.Lib

/-! ## Which worker owns a call -/

/-- The worker is in the call, or its body keeps the call's connection. -/
def Stage.Owns (st : Stage) (x : CallId) : Prop := st.call? = some x ∨ st.src? = some x

theorem Stage.not_owns_idle (x : CallId) : ¬ Stage.idle.Owns x := by
  intro h
  rcases h with h | h <;> cases h

/-- The phase of a call. -/
def Pod.phase? {n : Nat} (s : Pod n) (x : CallId) : Option Phase := (s.calls x.1)[x.2]?

structure Ownership {n : Nat} (s : Pod n) : Prop where
  held : ∀ w x, (s.workers w).src? = some x → ∃ c, s.phase? x = some (.holding c)
  known : ∀ w x, (s.workers w).Owns x → x.2 < (s.calls x.1).length
  owned : ∀ x ph, s.phase? x = some ph → ph ≠ .done → ∃ w, (s.workers w).Owns x
  distinct : ∀ w w' x, (s.workers w).Owns x → (s.workers w').Owns x → w = w'
  within : ∀ w x, (s.workers w).call? = some x → (s.workers w).src? ≠ some x

section Ownership

variable {n : Nat} {cfg : PodConfig} {s s' : Pod n} {w : Fin n} {st : Stage}

/-- The worker `w` moves to stage `st`, and the pool changes the phases of
calls of `w` only.  A call that `w` gives up has ended. -/
theorem Ownership.move (h : Ownership s) (hworkers : s'.workers = Function.update s.workers w st)
    (hlen : ∀ host, (s'.calls host).length = (s.calls host).length)
    (hframe : ∀ x, ¬ (s.workers w).Owns x → s'.phase? x = s.phase? x)
    (hsub : ∀ x, st.Owns x → (s.workers w).Owns x)
    (hdrop : ∀ x, (s.workers w).Owns x → ¬ st.Owns x → s'.phase? x = some .done)
    (hheld : ∀ x, st.src? = some x → ∃ c, s'.phase? x = some (.holding c))
    (hwithin : ∀ x, st.call? = some x → st.src? ≠ some x) : Ownership s' := by
  have hself : s'.workers w = st := by rw [hworkers, Function.update_self]
  have hother : ∀ w', w' ≠ w → s'.workers w' = s.workers w' := by
    intro w' hne
    rw [hworkers, Function.update_of_ne hne]
  have hback : ∀ w' x, (s'.workers w').Owns x → (s.workers w').Owns x := by
    intro w' x hx
    by_cases heq : w' = w
    · subst heq
      rw [hself] at hx
      exact hsub x hx
    · rwa [hother w' heq] at hx
  refine ⟨?_, ?_, ?_, ?_, ?_⟩
  · intro w' x hx
    by_cases heq : w' = w
    · subst heq
      rw [hself] at hx
      exact hheld x hx
    · rw [hother w' heq] at hx
      rw [hframe x fun hown => heq (h.distinct w' w x (Or.inr hx) hown)]
      exact h.held w' x hx
  · intro w' x hx
    rw [hlen]
    exact h.known w' x (hback w' x hx)
  · intro x ph hph hne
    by_cases hown : (s.workers w).Owns x
    · refine ⟨w, ?_⟩
      rw [hself]
      by_contra hnot
      rw [hdrop x hown hnot] at hph
      exact hne (Option.some.inj hph).symm
    · rw [hframe x hown] at hph
      obtain ⟨w', hw'⟩ := h.owned x ph hph hne
      refine ⟨w', ?_⟩
      rw [hother w' fun heq => hown (heq ▸ hw')]
      exact hw'
  · intro w' w'' x hx hy
    exact h.distinct w' w'' x (hback w' x hx) (hback w'' x hy)
  · intro w' x hx
    by_cases heq : w' = w
    · subst heq
      rw [hself] at hx ⊢
      exact hwithin x hx
    · rw [hother w' heq] at hx ⊢
      exact h.within w' x hx

/-- A call that starts is the only one whose phase changes. -/
theorem Pod.phase?_append {host : String} {ph : Phase} {x : CallId}
    (hcalls : s'.calls = Function.update s.calls host (s.calls host ++ [ph]))
    (hx : x ≠ (host, (s.calls host).length)) : s'.phase? x = s.phase? x := by
  obtain ⟨host', i⟩ := x
  show (s'.calls host')[i]? = (s.calls host')[i]?
  rw [hcalls]
  by_cases heq : host' = host
  · subst heq
    rw [Function.update_self]
    have hi : i ≠ (s.calls host').length := fun hi => hx (by rw [hi])
    rcases lt_or_gt_of_ne hi with hlt | hgt
    · exact List.getElem?_append_left hlt
    · rw [List.getElem?_eq_none (by simp; omega), List.getElem?_eq_none (by omega)]
  · rw [Function.update_of_ne heq]

theorem Pod.length_calls_append {host : String} {ph : Phase}
    (hcalls : s'.calls = Function.update s.calls host (s.calls host ++ [ph])) (host' : String) :
    (s'.calls host').length = (s.calls host').length + if host' = host then 1 else 0 := by
  rw [hcalls]
  by_cases heq : host' = host
  · subst heq
    rw [Function.update_self, List.length_append, if_pos rfl, List.length_singleton]
  · rw [Function.update_of_ne heq, if_neg heq, Nat.add_zero]

/-- The number of the next call belongs to nobody. -/
theorem Ownership.fresh (h : Ownership s) {x : CallId} (hx : (s.workers w).Owns x)
    (host : String) : x ≠ (host, (s.calls host).length) := by
  rintro rfl
  exact lt_irrefl _ (h.known w _ hx)

/-- The worker `w` calls `Acquire` for a host. -/
theorem Ownership.acquire (h : Ownership s) {host : String}
    (hworkers : s'.workers = Function.update s.workers w st)
    (hcalls : s'.calls = Function.update s.calls host (s.calls host ++ [.entering]))
    (hidle : (s.workers w).call? = none)
    (hcall : st.call? = some (host, (s.calls host).length))
    (hsrc : st.src? = (s.workers w).src?) : Ownership s' := by
  have hself : s'.workers w = st := by rw [hworkers, Function.update_self]
  have hother : ∀ w', w' ≠ w → s'.workers w' = s.workers w' := by
    intro w' hne
    rw [hworkers, Function.update_of_ne hne]
  have hlen := Pod.length_calls_append hcalls
  have hcases : ∀ w' x, (s'.workers w').Owns x →
      (s.workers w').Owns x ∨ (w' = w ∧ x = (host, (s.calls host).length)) := by
    intro w' x hx
    by_cases heq : w' = w
    · subst heq
      rw [hself, Stage.Owns, hcall, hsrc] at hx
      rcases hx with hx | hx
      · exact Or.inr ⟨rfl, (Option.some.inj hx).symm⟩
      · exact Or.inl (Or.inr hx)
    · rw [hother w' heq] at hx
      exact Or.inl hx
  refine ⟨?_, ?_, ?_, ?_, ?_⟩
  · intro w' x hx
    have hx' : (s.workers w').src? = some x := by
      by_cases heq : w' = w
      · subst heq
        rwa [hself, hsrc] at hx
      · rwa [hother w' heq] at hx
    rw [Pod.phase?_append hcalls (h.fresh (Or.inr hx') host)]
    exact h.held w' x hx'
  · intro w' x hx
    rw [hlen]
    rcases hcases w' x hx with hold | ⟨_, rfl⟩
    · have hlt := h.known w' x hold
      omega
    · show (s.calls host).length < (s.calls host).length + if host = host then 1 else 0
      rw [if_pos rfl]
      exact Nat.lt_succ_self _
  · intro x ph hph hne
    by_cases heq : x = (host, (s.calls host).length)
    · refine ⟨w, ?_⟩
      rw [hself, heq]
      exact Or.inl hcall
    · rw [Pod.phase?_append hcalls heq] at hph
      obtain ⟨w', hw'⟩ := h.owned x ph hph hne
      refine ⟨w', ?_⟩
      by_cases hw : w' = w
      · subst hw
        rw [hself]
        rcases hw' with hw' | hw'
        · rw [hidle] at hw'
          cases hw'
        · exact Or.inr (hsrc.trans hw')
      · rwa [hother w' hw]
  · intro w' w'' x hx hy
    rcases hcases w' x hx with hold | ⟨rfl, rfl⟩
    · rcases hcases w'' x hy with hold' | ⟨_, rfl⟩
      · exact h.distinct w' w'' x hold hold'
      · exact absurd rfl (h.fresh hold host)
    · rcases hcases w'' _ hy with hold' | ⟨rfl, _⟩
      · exact absurd rfl (h.fresh hold' host)
      · rfl
  · intro w' x hx
    by_cases heq : w' = w
    · subst heq
      rw [hself] at hx ⊢
      rw [hcall] at hx
      rw [hsrc, ← Option.some.inj hx]
      intro hsame
      exact h.fresh (Or.inr hsame) host rfl
    · rw [hother w' heq] at hx ⊢
      exact h.within w' x hx

end Ownership

/-! ## What a pool step does to the calls -/

section Move

variable {n : Nat} {cfg : PodConfig} {s : Pod n} {w : Fin n} {st : Stage} {host : String}

theorem move_acquire_calls :
    (s.move cfg host .acquire w st).calls =
      Function.update s.calls host (s.calls host ++ [.entering]) :=
  Function.comp_update Host.calls s.pool.hosts host _

theorem move_call_calls {i : Nat} {ph : Phase} (hi : s.phase? (host, i) = some ph)
    (a : CallStep) :
    ∃ ph', (s.move cfg host (.call i a) w st).calls =
      Function.update s.calls host ((s.calls host).set i ph') := by
  have hi' : (s.pool.hosts host).calls[i]? = some ph := hi
  obtain ⟨ph', hph'⟩ := @callStep_calls (newPool cfg.pool) s.pool.closed _ i ph hi' a
  refine ⟨ph', (Function.comp_update Host.calls s.pool.hosts host _).trans ?_⟩
  rw [Host.step_call hi', hph']
  rfl

theorem move_call_length {i : Nat} {ph : Phase} (hi : s.phase? (host, i) = some ph)
    (a : CallStep) (host' : String) :
    ((s.move cfg host (.call i a) w st).calls host').length = (s.calls host').length := by
  obtain ⟨ph', hcalls⟩ := @move_call_calls n cfg s w st host i ph hi a
  rw [hcalls]
  by_cases heq : host' = host
  · subst heq
    rw [Function.update_self, List.length_set]
  · rw [Function.update_of_ne heq]

theorem move_call_phase {i : Nat} {ph : Phase} (hi : s.phase? (host, i) = some ph)
    (a : CallStep) {x : CallId} (hne : x ≠ (host, i)) :
    (s.move cfg host (.call i a) w st).phase? x = s.phase? x := by
  obtain ⟨ph', hcalls⟩ := @move_call_calls n cfg s w st host i ph hi a
  obtain ⟨host', k⟩ := x
  show ((s.move cfg host (.call i a) w st).calls host')[k]? = (s.calls host')[k]?
  rw [hcalls]
  by_cases heq : host' = host
  · subst heq
    have hk : i ≠ k := fun hk => hne (by rw [hk])
    rw [Function.update_self, List.getElem?_set_ne hk]
  · rw [Function.update_of_ne heq]

/-- `Release` ends the call. -/
theorem move_release_phase {i c : Nat} (hi : s.phase? (host, i) = some (.holding c))
    (broken : Bool) (now : Int) :
    (s.move cfg host (.call i (.release broken now)) w st).phase? (host, i) = some .done := by
  have hi' : (s.pool.hosts host).calls[i]? = some (.holding c) := hi
  show (Function.update s.pool.hosts host _ host).calls[i]? = some .done
  rw [Function.update_self, Host.step_call hi']
  show ((Host.setCall _ i .done).release _ now c broken).calls[i]? = some .done
  rw [release_calls]
  obtain ⟨hlt, _⟩ := List.getElem?_eq_some_iff.mp hi'
  exact List.getElem?_set_self hlt

end Move

/-! ## The invariant of the pod -/

structure PodInv {n : Nat} (cfg : PodConfig) (s : Pod n) : Prop where
  wake : PoolWakeup (newPool cfg.pool) s.pool
  running : s.pool.closed = false
  own : Ownership s
  jobs : ∀ w job, (s.workers w).job? = some job → cfg.jobs job = true
  slots : ∀ host, s.sendersTo host ≤ cfg.slots
  conns : s.connUsers ≤ cfg.conns

section PodInv

variable {n : Nat} {cfg : PodConfig} {s : Pod n} {w : Fin n} {st : Stage} {host : String}

theorem podInv_init (cfg : PodConfig) (n : Nat) : PodInv cfg (Pod.init n) where
  wake := reach_wakeup cfg.pool []
  running := rfl
  own := by
    refine ⟨?_, ?_, ?_, ?_, ?_⟩
    · intro w x h
      cases h
    · exact fun _ x h => absurd h (Stage.not_owns_idle x)
    · intro x ph h
      cases h
    · exact fun _ _ x h => absurd h (Stage.not_owns_idle x)
    · intro w x h
      cases h
  jobs := by
    intro w job h
    cases h
  slots := by
    intro host
    simp [Pod.sendersTo, Pod.init, Stage.sendsTo]
  conns := by simp [Pod.connUsers, Pod.init, Stage.pinsConn]

/-- The job of the worker after a step is one of the queue's. -/
theorem PodInv.jobs_update (h : PodInv cfg s)
    (hjob : ∀ job, st.job? = some job → cfg.jobs job = true) :
    ∀ w' job, (Function.update s.workers w st w').job? = some job → cfg.jobs job = true :=
  (Function.forall_update_iff s.workers fun _ st =>
    ∀ job, st.job? = some job → cfg.jobs job = true).mpr ⟨hjob, fun w' _ => h.jobs w'⟩

/-- A stage change of one worker that takes neither a slot nor a database
connection.  The pool may take a step with it. -/
theorem PodInv.advance (h : PodInv cfg s) {s' : Pod n}
    (hpool : PoolWakeup (newPool cfg.pool) s'.pool) (hrun : s'.pool.closed = false)
    (hworkers : s'.workers = Function.update s.workers w st) (hown : Ownership s')
    (hjob : ∀ job, st.job? = some job → cfg.jobs job = true)
    (hsend : ∀ host, st.sendsTo host = true → (s.workers w).sendsTo host = true)
    (hconn : st.pinsConn = true → (s.workers w).pinsConn = true) : PodInv cfg s' where
  wake := hpool
  running := hrun
  own := hown
  jobs := by
    rw [hworkers]
    exact h.jobs_update hjob
  slots := by
    intro host
    unfold Pod.sendersTo
    rw [hworkers]
    exact (card_filter_update_le (hsend host)).trans (h.slots host)
  conns := by
    unfold Pod.connUsers
    rw [hworkers]
    exact (card_filter_update_le hconn).trans h.conns

/-- The same for a stage that holds neither, with the job that the worker had
or none. -/
theorem PodInv.quiet (h : PodInv cfg s) {s' : Pod n}
    (hpool : PoolWakeup (newPool cfg.pool) s'.pool) (hrun : s'.pool.closed = false)
    (hworkers : s'.workers = Function.update s.workers w st) (hown : Ownership s')
    (hjob : st.job? = none ∨ st.job? = (s.workers w).job?)
    (hsend : ∀ host, st.sendsTo host = false) (hconn : st.pinsConn = false) : PodInv cfg s' := by
  refine h.advance hpool hrun hworkers hown ?_ ?_ ?_
  · intro job heq
    rcases hjob with hnone | hsame
    · rw [hnone] at heq
      cases heq
    · exact h.jobs w job (hsame.symm.trans heq)
  · intro host hs
    rw [hsend host] at hs
    cases hs
  · intro hc
    rw [hconn] at hc
    cases hc

/-- The pool of a pod takes the steps of a pool. -/
theorem PodInv.move_wake (h : PodInv cfg s) (host : String) (a : HostAction) :
    PoolWakeup (newPool cfg.pool) (s.move cfg host a w st).pool := h.wake.step _

/-- A stage change without a pool step: the worker keeps what it owns, apart
from a call that has ended. -/
theorem Ownership.setStage (h : Ownership s)
    (hsub : ∀ x, st.Owns x → (s.workers w).Owns x)
    (hdrop : ∀ x, (s.workers w).Owns x → ¬ st.Owns x → s.phase? x = some .done)
    (hheld : ∀ x, st.src? = some x → ∃ c, s.phase? x = some (.holding c))
    (hwithin : ∀ x, st.call? = some x → st.src? ≠ some x) : Ownership (s.setStage w st) :=
  h.move rfl (fun _ => rfl) (fun _ _ => rfl) hsub hdrop hheld hwithin

/-- The worker releases a connection that it holds. -/
theorem Ownership.release (h : Ownership s) {i c : Nat}
    (hi : s.phase? (host, i) = some (.holding c)) (hown : (s.workers w).Owns (host, i))
    (broken : Bool) (now : Int) (hsub : ∀ x, st.Owns x → (s.workers w).Owns x ∧ x ≠ (host, i))
    (hdrop : ∀ x, (s.workers w).Owns x → ¬ st.Owns x → x = (host, i))
    (hsrc : ∀ x, st.src? = some x → (s.workers w).src? = some x) (hcall : st.call? = none) :
    Ownership (s.move cfg host (.call i (.release broken now)) w st) := by
  refine h.move rfl (move_call_length hi _) ?_ (fun x hx => (hsub x hx).1) ?_ ?_ ?_
  · intro x hx
    exact move_call_phase hi _ fun heq => hx (heq ▸ hown)
  · intro x hx hnot
    rw [hdrop x hx hnot]
    exact move_release_phase hi broken now
  · intro x hx
    rw [move_call_phase hi _ (hsub x (Or.inr hx)).2]
    exact h.held w x (hsrc x hx)
  · intro x hx
    rw [hcall] at hx
    cases hx

theorem PodInv.start (h : PodInv cfg s) (w : Fin n) (job : FtpJob) :
    PodInv cfg (podStep cfg s (.start w job)) := by
  simp only [podStep]
  split
  · rename_i hst
    split
    · rename_i hjob
      have hown := h.own.acquire rfl (@move_acquire_calls n cfg s w
        (.opening job (s.calls job.srcHost).length) job.srcHost)
        (by rw [hst]; rfl) rfl (by rw [hst]; rfl)
      refine h.advance (h.move_wake _ _) h.running rfl hown ?_ ?_ ?_
      · intro job' heq
        obtain rfl : job = job' := Option.some.inj heq
        exact hjob
      · intro host hsend
        cases hsend
      · intro hconn
        cases hconn
    · exact h
  · exact h

theorem PodInv.acquiring (h : PodInv cfg s) (w : Fin n) (a : CallStep) :
    PodInv cfg (podStep cfg s (.acquiring w a)) := by
  simp only [podStep]
  split
  · rename_i host i hcall
    split
    · refine h.advance (h.move_wake _ _) h.running rfl ?_ (h.jobs w) (fun _ => id) id
      have hlt := h.own.known w _ (Or.inl hcall)
      obtain ⟨ph, hph⟩ : ∃ ph, s.phase? (host, i) = some ph :=
        ⟨_, List.getElem?_eq_getElem hlt⟩
      refine h.own.move rfl (move_call_length hph _) ?_ (fun _ => id) ?_ ?_ (h.own.within w)
      · intro x hx
        exact move_call_phase hph _ fun heq => hx (heq ▸ Or.inl hcall)
      · exact fun x hx hnot => absurd hx hnot
      · intro x hx
        have hne : x ≠ (host, i) := by
          intro heq
          subst heq
          exact h.own.within w _ hcall hx
        rw [move_call_phase hph _ hne]
        exact h.own.held w x hx
    · exact h
  · exact h

theorem PodInv.opened (h : PodInv cfg s) (w : Fin n) (ok : Bool) (now : Int) :
    PodInv cfg (podStep cfg s (.opened w ok now)) := by
  simp only [podStep]
  split
  · rename_i job i hst
    have howns : ∀ x, (s.workers w).Owns x ↔ x = (job.srcHost, i) := by
      intro x
      rw [hst]
      simp [Stage.Owns, Stage.call?, Stage.src?, eq_comm]
    have hjob : (s.workers w).job? = some job := by rw [hst]; rfl
    split
    · rename_i c hph
      have hph' : s.phase? (job.srcHost, i) = some (.holding c) := hph
      split
      · -- What `Open` returns keeps the connection that it acquired.
        have hown : Ownership (s.setStage w (.opened job i)) := by
          refine h.own.setStage ?_ ?_ ?_ ?_
          · intro x hx
            rcases hx with hx | hx
            · cases hx
            · exact (howns x).mpr (Option.some.inj hx).symm
          · intro x hx hnot
            exact absurd (Or.inr (by rw [(howns x).mp hx]; rfl)) hnot
          · intro x hx
            rw [← Option.some.inj hx]
            exact ⟨c, hph'⟩
          · intro x hx
            cases hx
        exact h.quiet h.wake h.running rfl hown (Or.inr hjob.symm) (fun _ => rfl) rfl
      · have hown : Ownership (s.move cfg job.srcHost (.call i (.release true now)) w .idle) := by
          refine h.own.release hph' ((howns _).mpr rfl) true now ?_ ?_ ?_ rfl
          · exact fun x hx => absurd hx (Stage.not_owns_idle x)
          · intro x hx _
            exact (howns x).mp hx
          · intro x hx
            cases hx
        exact h.quiet (h.move_wake _ _) h.running rfl hown (Or.inl rfl) (fun _ => rfl) rfl
    · rename_i hph
      have hown : Ownership (s.setStage w .idle) := by
        refine h.own.setStage ?_ ?_ ?_ ?_
        · exact fun x hx => absurd hx (Stage.not_owns_idle x)
        · intro x hx _
          rw [(howns x).mp hx]
          exact hph
        · intro x hx
          cases hx
        · intro x hx
          cases hx
      exact h.quiet h.wake h.running rfl hown (Or.inl rfl) (fun _ => rfl) rfl
    · exact h
  · exact h

/-- A stage change that keeps exactly the connection of the open body. -/
theorem Ownership.keepSrc (h : Ownership s) (hcall : (s.workers w).call? = none)
    (hcall' : st.call? = none) (hsrc : st.src? = (s.workers w).src?) :
    Ownership (s.setStage w st) := by
  have hiff : ∀ x, st.Owns x ↔ (s.workers w).Owns x := by
    intro x
    rw [Stage.Owns, Stage.Owns, hcall, hcall', hsrc]
  refine h.setStage (fun x => (hiff x).mp) ?_ ?_ ?_
  · exact fun x hx hnot => absurd ((hiff x).mpr hx) hnot
  · intro x hx
    exact h.held w x (hsrc ▸ hx)
  · intro x hx
    rw [hcall'] at hx
    cases hx

/-- A worker that waits for the cap turns to the close of its body. -/
theorem PodInv.giveUp (h : PodInv cfg s) {job : FtpJob} {i : Nat}
    (hcall : (s.workers w).call? = none)
    (hsrc : (Stage.closing job i).src? = (s.workers w).src?)
    (hjob : (s.workers w).job? = some job) : PodInv cfg (s.setStage w (.closing job i)) :=
  h.quiet h.wake h.running rfl (h.own.keepSrc hcall rfl hsrc) (Or.inr hjob.symm) (fun _ => rfl) rfl

theorem PodInv.takeConn (h : PodInv cfg s) (w : Fin n) (ok : Bool) :
    PodInv cfg (podStep cfg s (.takeConn w ok)) := by
  simp only [podStep]
  split
  · rename_i job i hst
    have hjob : (s.workers w).job? = some job := by rw [hst]; rfl
    split
    · exact h.giveUp (by rw [hst]; rfl) (by rw [hst]; rfl) hjob
    · split
      · rename_i hfree
        have hown : Ownership (s.setStage w (.slotWait job i)) :=
          h.own.keepSrc (by rw [hst]; rfl) rfl (by rw [hst]; rfl)
        refine ⟨h.wake, h.running, hown, ?_, ?_, ?_⟩
        · exact h.jobs_update fun job' heq => h.jobs w job' (hjob.trans heq)
        · intro host
          refine (card_filter_update_le ?_).trans (h.slots host)
          intro hs
          cases hs
        · exact card_filter_update_le_succ.trans hfree
      · exact h
  · exact h

theorem PodInv.takeSlot (h : PodInv cfg s) (w : Fin n) (ok : Bool) :
    PodInv cfg (podStep cfg s (.takeSlot w ok)) := by
  simp only [podStep]
  split
  · rename_i job i hst
    have hjob : (s.workers w).job? = some job := by rw [hst]; rfl
    split
    · exact h.giveUp (by rw [hst]; rfl) (by rw [hst]; rfl) hjob
    · split
      · rename_i hfree
        have hown := h.own.acquire rfl (@move_acquire_calls n cfg s w
          (.sending job i (s.calls job.dstHost).length) job.dstHost)
          (by rw [hst]; rfl) rfl (by rw [hst]; rfl)
        refine ⟨h.move_wake _ _, h.running, hown, ?_, ?_, ?_⟩
        · exact h.jobs_update fun job' heq => h.jobs w job' (hjob.trans heq)
        · intro host
          by_cases heq : job.dstHost = host
          · subst heq
            exact card_filter_update_le_succ.trans hfree
          · refine (card_filter_update_le ?_).trans (h.slots host)
            intro hs
            exact absurd (beq_iff_eq.mp hs) heq
        · refine (card_filter_update_le ?_).trans h.conns
          intro _
          rw [hst]
          rfl
      · exact h
  · exact h

theorem PodInv.sent (h : PodInv cfg s) (w : Fin n) (broken : Bool) (now : Int) :
    PodInv cfg (podStep cfg s (.sent w broken now)) := by
  simp only [podStep]
  split
  · rename_i job i j hst
    have hjob : (s.workers w).job? = some job := by rw [hst]; rfl
    have hcall : (s.workers w).call? = some (job.dstHost, j) := by rw [hst]; rfl
    have hsrc : (s.workers w).src? = some (job.srcHost, i) := by rw [hst]; rfl
    have hne : (job.srcHost, i) ≠ (job.dstHost, j) := by
      intro heq
      rw [heq] at hsrc
      exact h.own.within w _ hcall hsrc
    -- The worker keeps the body and gives up the call in `Send`.
    have hdrop : ∀ x, (s.workers w).Owns x → ¬ (Stage.closing job i).Owns x →
        x = (job.dstHost, j) := by
      intro x hx hnot
      rcases hx with hx | hx
      · rw [hcall] at hx
        exact (Option.some.inj hx).symm
      · rw [hsrc] at hx
        exact absurd (Or.inr hx) hnot
    split
    · rename_i c hph
      have hown : Ownership
          (s.move cfg job.dstHost (.call j (.release broken now)) w (.closing job i)) := by
        refine h.own.release hph (Or.inl hcall) broken now ?_ hdrop ?_ rfl
        · intro x hx
          rcases hx with hx | hx
          · cases hx
          · obtain rfl := Option.some.inj hx
            exact ⟨Or.inr hsrc, hne⟩
        · intro x hx
          exact hsrc.trans hx
      exact h.quiet (h.move_wake _ _) h.running rfl hown (Or.inr hjob.symm) (fun _ => rfl) rfl
    · rename_i hph
      have hown : Ownership (s.setStage w (.closing job i)) := by
        refine h.own.setStage ?_ ?_ ?_ ?_
        · intro x hx
          rcases hx with hx | hx
          · cases hx
          · exact Or.inr (hsrc.trans hx)
        · intro x hx hnot
          rw [hdrop x hx hnot]
          exact hph
        · intro x hx
          exact h.own.held w x (hsrc.trans hx)
        · intro x hx
          cases hx
      exact h.quiet h.wake h.running rfl hown (Or.inr hjob.symm) (fun _ => rfl) rfl
    · exact h
  · exact h

theorem PodInv.close (h : PodInv cfg s) (w : Fin n) (broken : Bool) (now : Int) :
    PodInv cfg (podStep cfg s (.close w broken now)) := by
  simp only [podStep]
  split
  · rename_i job i hst
    have hsrc : (s.workers w).src? = some (job.srcHost, i) := by rw [hst]; rfl
    obtain ⟨c, hph⟩ := h.own.held w _ hsrc
    have hown : Ownership (s.move cfg job.srcHost (.call i (.release broken now)) w .idle) := by
      refine h.own.release hph (Or.inr hsrc) broken now ?_ ?_ ?_ rfl
      · exact fun x hx => absurd hx (Stage.not_owns_idle x)
      · intro x hx _
        rw [hst] at hx
        rcases hx with hx | hx
        · cases hx
        · exact (Option.some.inj hx).symm
      · intro x hx
        cases hx
    exact h.quiet (h.move_wake _ _) h.running rfl hown (Or.inl rfl) (fun _ => rfl) rfl
  · exact h

theorem PodInv.step (h : PodInv cfg s) (a : PodAction n) : PodInv cfg (podStep cfg s a) := by
  cases a with
  | start w job => exact h.start w job
  | acquiring w a => exact h.acquiring w a
  | opened w ok now => exact h.opened w ok now
  | takeConn w ok => exact h.takeConn w ok
  | takeSlot w ok => exact h.takeSlot w ok
  | sent w broken now => exact h.sent w broken now
  | close w broken now => exact h.close w broken now

theorem podReach_inv (cfg : PodConfig) (n : Nat) (as : List (PodAction n)) :
    PodInv cfg (podReach cfg n as) :=
  foldl_invariant (PodInv cfg) (fun _ a h => h.step a) (podInv_init cfg n) as

end PodInv

end ImgSync.Ftp
