import ImgSync.Ftp.Jobs

/-!
# Handles and executions

Every call of `Acquire` belongs to one handle of one execution (`JobsInv.owned`,
`JobsInv.distinct`), and a handle knows the phase of its call: a connection that
is acquired and not released is held, and a released one is not
(`Handle.Agrees`).  `Exec.Consistent` says for every stage of `ProcessJob` what
has happened to its two connections.

`JobsInv.update` is the only place where two executions meet: a step of one of
them touches the phases of its own calls only.
-/

namespace ImgSync.Ftp

open ImgSync.Lib

/-! ## Phases of calls -/

section Phases

variable {cfg : PoolConfig} {p : Pool} {c c' : CallId} {ph : Phase}

/-- A step of a call changes its own phase only. -/
theorem phase?_call_of_ne (st : CallStep) (hne : c' ≠ c) :
    (p.call cfg c st).phase? c' = p.phase? c' := by
  obtain ⟨host, i⟩ := c
  obtain ⟨host', i'⟩ := c'
  show (Function.update p.hosts host _ host').calls[i']? = (p.hosts host').calls[i']?
  by_cases hhost : host' = host
  · subst hhost
    rw [Function.update_self]
    cases hi : (p.hosts host').calls[i]? with
    | none => rw [Host.step_call_none hi]
    | some ph =>
      rw [Host.step_call hi]
      obtain ⟨ph', hcalls⟩ := callStep_calls hi st
      rw [hcalls, List.getElem?_set_ne]
      rintro rfl
      exact hne rfl
  · rw [Function.update_of_ne hhost]

theorem phase?_call_self (st : CallStep) (hc : p.phase? c = some ph) :
    ∃ ph', (p.call cfg c st).phase? c = some ph' := by
  obtain ⟨host, i⟩ := c
  have hi : (p.hosts host).calls[i]? = some ph := hc
  show ∃ ph', (Function.update p.hosts host _ host).calls[i]? = some ph'
  rw [Function.update_self, Host.step_call hi]
  obtain ⟨ph', hcalls⟩ := callStep_calls hi st
  obtain ⟨hlt, -⟩ := List.getElem?_eq_some_iff.mp hi
  exact ⟨ph', by rw [hcalls, List.getElem?_set_self hlt]⟩

/-- `Release` ends the call. -/
theorem phase?_release {k : Nat} (hc : p.phase? c = some (.holding k)) (broken : Bool) (now : Int) :
    (p.call cfg c (.release broken now)).phase? c = some .done := by
  obtain ⟨host, i⟩ := c
  have hi : (p.hosts host).calls[i]? = some (.holding k) := hc
  show (Function.update p.hosts host _ host).calls[i]? = some .done
  rw [Function.update_self, Host.step_call hi]
  obtain ⟨hlt, -⟩ := List.getElem?_eq_some_iff.mp hi
  show (((p.hosts host).setCall i .done).release p.closed now k broken).calls[i]? = some .done
  rw [release_calls]
  exact List.getElem?_set_self hlt

theorem phase?_nextCall (host : String) : p.phase? (p.nextCall host) = none :=
  List.getElem?_eq_none (Nat.le_refl _)

theorem phase?_acquire_self (host : String) :
    (step cfg p (.onHost host .acquire)).phase? (p.nextCall host) = some .entering := by
  show (Function.update p.hosts host _ host).calls[(p.hosts host).calls.length]? = _
  rw [Function.update_self]
  exact List.getElem?_concat_length

theorem phase?_acquire_of_ne {host : String} (hne : c ≠ p.nextCall host) :
    (step cfg p (.onHost host .acquire)).phase? c = p.phase? c := by
  obtain ⟨host', i⟩ := c
  show (Function.update p.hosts host _ host').calls[i]? = (p.hosts host').calls[i]?
  by_cases hhost : host' = host
  · subst hhost
    rw [Function.update_self]
    show ((p.hosts host').calls ++ [Phase.entering])[i]? = _
    have hi : i ≠ (p.hosts host').calls.length := fun hi => hne (by rw [hi]; rfl)
    rcases Nat.lt_or_gt_of_ne hi with hlt | hgt
    · exact List.getElem?_append_left hlt
    · rw [List.getElem?_eq_none (by rw [List.length_append, List.length_singleton]; omega),
        List.getElem?_eq_none (by omega)]
  · rw [Function.update_of_ne hhost]

end Phases

/-! ## Handles -/

/-- The execution is still in the `Acquire`. -/
def Handle.Inside (h : Handle) : Prop := h.acquired = none ∧ h.releases = []

/-- The connection is acquired and not released. -/
def Handle.Held (h : Handle) : Prop := h.acquired = some true ∧ h.releases = []

/-- There was no connection, or it is released once, as broken if a command on it
failed. -/
def Handle.Gone (h : Handle) : Prop :=
  h.acquired = some false ∧ h.releases = [] ∨
    h.acquired = some true ∧ ∃ broken, h.releases = [broken] ∧ (h.failed = true → broken = true)

/-- The phase of the call is the one that the handle says. -/
def Handle.Agrees (p : Pool) (h : Handle) : Prop :=
  ∃ ph, p.phase? h.call = some ph ∧ (h.acquired = some false → ph = .done) ∧
    (h.acquired = some true →
      if h.releases = [] then ∃ c, ph = .holding c else ph = .done)

/-- The body is open: its connection is held, and a failed read is noted. -/
structure OpenBody (src : Option Handle) (ioErr released closed : Bool) : Prop where
  released : released = false
  closed : closed = false
  held : ∀ h, src = some h → h.Held
  noted : ∀ h, src = some h → h.failed = true → ioErr = true

def Exec.BodyOpen (x : Exec) : Prop := OpenBody x.src x.ioErr x.released x.closed

/-- The connections of an execution, by its stage. -/
def Exec.Consistent (x : Exec) : Prop :=
  match x.stage with
  | .before => x.released = false ∧ x.closed = false ∧ x.src = none ∧ x.dst = none
  | .opening =>
    x.released = false ∧ x.closed = false ∧
      (∃ h, x.src = some h ∧ h.Inside ∧ (h.failed = true → x.ioErr = true)) ∧ x.dst = none
  | .sizing | .retrieving => x.BodyOpen ∧ (∃ h, x.src = some h) ∧ x.dst = none
  | .opened | .copying => x.BodyOpen ∧ x.dst = none
  | .acquiring => x.BodyOpen ∧ ∃ h, x.dst = some h ∧ h.Inside ∧ h.failed = false
  | .making | .storing | .renaming => x.BodyOpen ∧ ∃ h, x.dst = some h ∧ h.Held ∧ h.failed = false
  | .cleaning => x.BodyOpen ∧ ∃ h, x.dst = some h ∧ h.Held
  | .sent _ | .closeNow => x.BodyOpen ∧ ∀ h, x.dst = some h → h.Gone
  | .returning =>
    (if x.closed then ∀ h, x.src = some h → h.Gone else x.BodyOpen) ∧
      ∀ h, x.dst = some h → h.Gone
  | .closing _ failed =>
    x.released = false ∧ x.closed = false ∧
      (∀ h, x.src = some h → h.Held ∧ (h.failed = true → (x.ioErr || failed) = true)) ∧
      ∀ h, x.dst = some h → h.Gone
  | .done => (∀ h, x.src = some h → h.Gone) ∧ ∀ h, x.dst = some h → h.Gone

/-- The execution has a handle for the call. -/
def Exec.Uses (x : Exec) (c : CallId) : Prop :=
  x.src.map Handle.call = some c ∨ x.dst.map Handle.call = some c

def Exec.Has (x : Exec) (h : Handle) : Prop := x.src = some h ∨ x.dst = some h

theorem Exec.Has.uses {x : Exec} {h : Handle} (hh : x.Has h) : x.Uses h.call := by
  rcases hh with hh | hh
  · exact Or.inl (by rw [hh]; rfl)
  · exact Or.inr (by rw [hh]; rfl)

theorem Exec.Uses.has {x : Exec} {c : CallId} (hu : x.Uses c) : ∃ h, x.Has h ∧ h.call = c := by
  rcases hu with hu | hu
  · obtain ⟨h, hh, rfl⟩ := Option.map_eq_some_iff.mp hu
    exact ⟨h, Or.inl hh, rfl⟩
  · obtain ⟨h, hh, rfl⟩ := Option.map_eq_some_iff.mp hu
    exact ⟨h, Or.inr hh, rfl⟩

structure JobsInv (cfg : PoolConfig) (s : Jobs) : Prop where
  capacity : PoolCapacity cfg s.pool
  consistent : ∀ e, (s.execs e).Consistent
  agrees : ∀ e h, (s.execs e).Has h → h.Agrees s.pool
  distinct : ∀ e e' c, (s.execs e).Uses c → (s.execs e').Uses c → e = e'
  apart : ∀ e c, (s.execs e).src.map Handle.call = some c →
    (s.execs e).dst.map Handle.call ≠ some c
  owned : ∀ c ph, s.pool.phase? c = some ph → ∃ e, (s.execs e).Uses c

section Step

variable {cfg : PoolConfig} {s : Jobs} {e : Nat} {x : Exec} {h : Handle} {p : Pool} {c : CallId}

theorem Handle.Agrees.congr {p' : Pool} (ha : h.Agrees p)
    (heq : p'.phase? h.call = p.phase? h.call) : h.Agrees p' := by
  obtain ⟨ph, hph, hrest⟩ := ha
  exact ⟨ph, heq.trans hph, hrest⟩

/-- One execution moves on and touches the phases of its own calls only. -/
theorem JobsInv.update (hinv : JobsInv cfg s) (hcap : PoolCapacity cfg p) (hcons : x.Consistent)
    (hagrees : ∀ h, x.Has h → h.Agrees p)
    (hapart : ∀ c, x.src.map Handle.call = some c → x.dst.map Handle.call ≠ some c)
    (hkeep : ∀ c, (s.execs e).Uses c → x.Uses c)
    (hnew : ∀ c, x.Uses c → (s.execs e).Uses c ∨ s.pool.phase? c = none)
    (hframe : ∀ c, ¬x.Uses c → p.phase? c = s.pool.phase? c) :
    JobsInv cfg { pool := p, execs := Function.update s.execs e x } := by
  -- No other execution has a call of this one.
  have hother : ∀ e' c, e' ≠ e → (s.execs e').Uses c → ¬x.Uses c := by
    intro e' c hne hu hx
    rcases hnew c hx with hold | hnone
    · exact hne (hinv.distinct e' e c hu hold)
    · obtain ⟨g, hg, rfl⟩ := hu.has
      obtain ⟨ph, hph, -⟩ := hinv.agrees e' g hg
      rw [hnone] at hph
      cases hph
  refine ⟨hcap, ?_, ?_, ?_, ?_, ?_⟩
  · exact (Function.forall_update_iff s.execs fun _ y => y.Consistent).mpr
      ⟨hcons, fun e' _ => hinv.consistent e'⟩
  · refine (Function.forall_update_iff s.execs fun _ y => ∀ h, y.Has h → h.Agrees p).mpr
      ⟨hagrees, fun e' hne g hg => ?_⟩
    exact (hinv.agrees e' g hg).congr (hframe g.call (hother e' g.call hne hg.uses))
  · intro e₁ e₂ c h₁ h₂
    simp only [Function.update_apply] at h₁ h₂
    split at h₁ <;> split at h₂
    · rename_i heq₁ heq₂
      rw [heq₁, heq₂]
    · rename_i hne
      exact absurd h₁ (hother e₂ c hne h₂)
    · rename_i hne _
      exact absurd h₂ (hother e₁ c hne h₁)
    · exact hinv.distinct e₁ e₂ c h₁ h₂
  · exact (Function.forall_update_iff s.execs fun _ y =>
      ∀ c, y.src.map Handle.call = some c → y.dst.map Handle.call ≠ some c).mpr
        ⟨hapart, fun e' _ => hinv.apart e'⟩
  · intro c ph hph
    show ∃ e', (Function.update s.execs e x e').Uses c
    by_cases hx : x.Uses c
    · exact ⟨e, by rw [Function.update_self]; exact hx⟩
    · rw [hframe c hx] at hph
      obtain ⟨e', hu⟩ := hinv.owned c ph hph
      have hne : e' ≠ e := by
        rintro rfl
        exact hx (hkeep c hu)
      exact ⟨e', by rw [Function.update_of_ne hne]; exact hu⟩

/-- A step that leaves the pool alone. -/
theorem JobsInv.set (hinv : JobsInv cfg s) (hcons : x.Consistent)
    (hsrc : x.src.map Handle.call = (s.execs e).src.map Handle.call)
    (hdst : x.dst.map Handle.call = (s.execs e).dst.map Handle.call)
    (hagrees : ∀ h, x.Has h → h.Agrees s.pool) : JobsInv cfg (s.set e x) := by
  have huses : ∀ c, x.Uses c ↔ (s.execs e).Uses c := by
    intro c
    unfold Exec.Uses
    rw [hsrc, hdst]
  refine hinv.update hinv.capacity hcons hagrees ?_ (fun c hu => (huses c).mpr hu)
    (fun c hu => Or.inl ((huses c).mp hu)) (fun _ _ => rfl)
  rw [hsrc, hdst]
  exact hinv.apart e

theorem JobsInv.setStage (hinv : JobsInv cfg s) {st : JobStage}
    (hcons : Exec.Consistent { s.execs e with stage := st }) :
    JobsInv cfg (s.set e { s.execs e with stage := st }) :=
  hinv.set hcons rfl rfl fun h hh => hinv.agrees e h hh

/-- A step of a call of the execution. -/
theorem JobsInv.move (hinv : JobsInv cfg s) {st : CallStep} (hcons : x.Consistent)
    (hused : (s.execs e).Uses c)
    (hsrc : x.src.map Handle.call = (s.execs e).src.map Handle.call)
    (hdst : x.dst.map Handle.call = (s.execs e).dst.map Handle.call)
    (hagrees : ∀ h, x.Has h → h.Agrees (s.pool.call cfg c st)) :
    JobsInv cfg (s.move cfg e c st x) := by
  have huses : ∀ c, x.Uses c ↔ (s.execs e).Uses c := by
    intro c
    unfold Exec.Uses
    rw [hsrc, hdst]
  refine hinv.update (hinv.capacity.step _) hcons hagrees ?_ (fun c hu => (huses c).mpr hu)
    (fun c hu => Or.inl ((huses c).mp hu)) ?_
  · rw [hsrc, hdst]
    exact hinv.apart e
  · intro c' hnot
    refine phase?_call_of_ne st ?_
    rintro rfl
    exact hnot ((huses c').mpr hused)

/-- The two handles of an execution have two calls. -/
theorem JobsInv.eq_of_call (hinv : JobsInv cfg s) {g : Handle} (hg : (s.execs e).Has g)
    (hh : (s.execs e).Has h) (heq : g.call = h.call) : g = h := by
  rcases hg with hg | hg <;> rcases hh with hh | hh
  · rw [hg] at hh
    exact Option.some.inj hh
  · exact absurd (by rw [hh, Option.map_some, heq]) (hinv.apart e g.call (by rw [hg]; rfl))
  · exact absurd (by rw [hg, Option.map_some, heq]) (hinv.apart e h.call (by rw [hh]; rfl))
  · rw [hg] at hh
    exact Option.some.inj hh

/-- A call that the execution is in stays one. -/
theorem Handle.Agrees.of_inside (ha : h.Agrees p) (hin : h.acquired = none) (st : CallStep) :
    h.Agrees (p.call cfg h.call st) := by
  obtain ⟨ph, hph, -⟩ := ha
  obtain ⟨ph', hph'⟩ := phase?_call_self st hph
  refine ⟨ph', hph', ?_, ?_⟩
  · intro hacq
    rw [hin] at hacq
    cases hacq
  · intro hacq
    rw [hin] at hacq
    cases hacq

/-- The phase of a held connection. -/
theorem Handle.Agrees.holding (ha : h.Agrees p) (hheld : h.Held) :
    ∃ k, p.phase? h.call = some (.holding k) := by
  obtain ⟨ph, hph, -, hgot⟩ := ha
  have hgot' := hgot hheld.1
  rw [if_pos hheld.2] at hgot'
  obtain ⟨k, rfl⟩ := hgot'
  exact ⟨k, hph⟩

theorem Handle.Agrees.release (ha : h.Agrees p) (hheld : h.Held) (broken : Bool) (now : Int) :
    (h.release broken).Agrees (p.call cfg h.call (.release broken now)) := by
  obtain ⟨k, hk⟩ := ha.holding hheld
  refine ⟨.done, phase?_release hk broken now, fun _ => rfl, fun _ => ?_⟩
  show if h.releases ++ [broken] = [] then _ else _
  rw [if_neg (by simp)]

/-- A failure changes neither the call nor the release. -/
theorem Handle.Agrees.fail (ha : h.Agrees p) : h.fail.Agrees p := ha

/-- `Release` of the connection of the body. -/
theorem JobsInv.releaseSrc (hinv : JobsInv cfg s) (hsrc : (s.execs e).src = some h) (hheld : h.Held)
    {broken : Bool} {now : Int} (hcons : x.Consistent) {h' : Handle} (hx : x.src = some h')
    (hh : h' = h.release broken ∨ h' = h.fail.release broken) (hdst : x.dst = (s.execs e).dst) :
    JobsInv cfg (s.move cfg e h.call (.release broken now) x) := by
  have ha := hinv.agrees e h (Or.inl hsrc)
  refine hinv.move hcons (Or.inl (by rw [hsrc]; rfl)) ?_ (by rw [hdst]) ?_
  · rw [hx, hsrc]
    rcases hh with rfl | rfl <;> rfl
  · rintro g (hg | hg)
    · rw [hx] at hg
      cases hg
      rcases hh with rfl | rfl
      · exact ha.release hheld broken now
      · have hheld' : h.fail.Held := hheld
        exact ha.fail.release hheld' broken now
    · rw [hdst] at hg
      refine (hinv.agrees e g (Or.inr hg)).congr (phase?_call_of_ne _ ?_)
      intro heq
      exact hinv.apart e h.call (by rw [hsrc]; rfl) (by rw [hg, Option.map_some, heq])

/-- `Release` of the connection of `Send`. -/
theorem JobsInv.releaseDst (hinv : JobsInv cfg s) (hdst : (s.execs e).dst = some h) (hheld : h.Held)
    {broken : Bool} {now : Int} (hcons : x.Consistent) (hx : x.dst = some (h.release broken))
    (hsrc : x.src = (s.execs e).src) :
    JobsInv cfg (s.move cfg e h.call (.release broken now) x) := by
  refine hinv.move hcons (Or.inr (by rw [hdst]; rfl)) (by rw [hsrc]) (by rw [hx, hdst]; rfl) ?_
  rintro g (hg | hg)
  · rw [hsrc] at hg
    refine (hinv.agrees e g (Or.inl hg)).congr (phase?_call_of_ne _ ?_)
    intro heq
    exact hinv.apart e g.call (by rw [hg]; rfl) (by rw [hdst, Option.map_some, heq])
  · rw [hx] at hg
    cases hg
    exact (hinv.agrees e h (Or.inr hdst)).release hheld broken now

/-- A handle that exists does not have the next call of a host. -/
theorem JobsInv.call_ne_next (hinv : JobsInv cfg s) (hh : (s.execs e).Has h) (host : String) :
    h.call ≠ s.pool.nextCall host := by
  intro heq
  obtain ⟨ph, hph, -⟩ := hinv.agrees e h hh
  rw [heq, phase?_nextCall] at hph
  cases hph

theorem agrees_new (host : String) :
    (Handle.new (s.pool.nextCall host)).Agrees (step cfg s.pool (.onHost host .acquire)) := by
  refine ⟨.entering, phase?_acquire_self host, ?_, ?_⟩
  · intro hacq
    cases hacq
  · intro hacq
    cases hacq

/-- The execution calls `Acquire`. -/
theorem JobsInv.callAcquire (hinv : JobsInv cfg s) {host : String} (hcons : x.Consistent)
    (hnew : x.Has (.new (s.pool.nextCall host)))
    (hold : ∀ g, x.Has g → g = .new (s.pool.nextCall host) ∨ (s.execs e).Has g)
    (hkeep : ∀ g, (s.execs e).Has g → x.Has g)
    (hapart : ∀ c, x.src.map Handle.call = some c → x.dst.map Handle.call ≠ some c) :
    JobsInv cfg (s.callAcquire cfg e host x) := by
  refine hinv.update (hinv.capacity.step _) hcons ?_ hapart ?_ ?_ ?_
  · intro g hg
    rcases hold g hg with rfl | hg'
    · exact agrees_new host
    · exact (hinv.agrees e g hg').congr (phase?_acquire_of_ne (hinv.call_ne_next hg' host))
  · intro c hu
    obtain ⟨g, hg, rfl⟩ := hu.has
    exact (hkeep g hg).uses
  · intro c hu
    obtain ⟨g, hg, rfl⟩ := hu.has
    rcases hold g hg with rfl | hg'
    · exact Or.inr (phase?_nextCall host)
    · exact Or.inl hg'.uses
  · intro c hnot
    refine phase?_acquire_of_ne ?_
    rintro rfl
    exact hnot hnew.uses

theorem Handle.gone_release {broken : Bool} (hheld : h.Held)
    (hfailed : h.failed = true → broken = true) : (h.release broken).Gone := by
  refine Or.inr ⟨hheld.1, broken, ?_, hfailed⟩
  show h.releases ++ [broken] = [broken]
  rw [hheld.2, List.nil_append]

theorem gone_of_none {o : Option Handle} (ho : o = none) : ∀ h, o = some h → h.Gone := by
  intro h hh
  rw [ho] at hh
  cases hh

/-- STOR or the rename fails. -/
theorem JobsInv.failDst (hinv : JobsInv cfg s) (hdst : (s.execs e).dst = some h)
    (hbody : (s.execs e).BodyOpen) (hheld : h.Held) :
    JobsInv cfg (s.set e { s.execs e with dst := some h.fail, stage := .cleaning }) := by
  refine hinv.set ⟨hbody, h.fail, rfl, hheld⟩ rfl (by rw [hdst]; rfl) ?_
  rintro g (hg | hg)
  · exact hinv.agrees e g (Or.inl hg)
  · cases hg
    exact (hinv.agrees e h (Or.inr hdst)).fail

end Step

end ImgSync.Ftp
