import ImgSync.Ftp.Handles

/-!
# The steps of a job

`JobsInv` holds in every state that the pool and its jobs reach: one lemma for
each action, and `reach_jobsInv` for whole runs.
-/

namespace ImgSync.Ftp

open ImgSync.Lib

section Step

variable {cfg : PoolConfig} {s : Jobs} {e : Nat} {x : Exec} {h : Handle} {p : Pool}

/-! ## The steps of `Source.Open` -/

theorem JobsInv.openOther (hinv : JobsInv cfg s) (e : Nat) (ok : Bool) :
    JobsInv cfg (jobStep cfg s (.openOther e ok)) := by
  have hc := hinv.consistent e
  unfold jobStep
  dsimp only
  split
  · rename_i hstage
    simp only [Exec.Consistent, hstage] at hc
    obtain ⟨hrel, hclosed, hsrc, hdst⟩ := hc
    apply hinv.setStage
    cases ok with
    | true =>
      have hnone : ∀ h, (s.execs e).src ≠ some h := by
        intro h hh
        rw [hsrc] at hh
        cases hh
      exact ⟨⟨hrel, hclosed, fun h hh => absurd hh (hnone h), fun h hh => absurd hh (hnone h)⟩,
        hdst⟩
    | false => exact ⟨gone_of_none hsrc, gone_of_none hdst⟩
  · exact hinv

theorem JobsInv.openFtp (hinv : JobsInv cfg s) (e : Nat) (host : String) :
    JobsInv cfg (jobStep cfg s (.openFtp e host)) := by
  have hc := hinv.consistent e
  unfold jobStep
  dsimp only
  split
  · rename_i hstage
    simp only [Exec.Consistent, hstage] at hc
    obtain ⟨hrel, hclosed, hsrc, hdst⟩ := hc
    have hno : ∀ h, ¬(s.execs e).Has h := by
      rintro h (hh | hh)
      · rw [hsrc] at hh
        cases hh
      · rw [hdst] at hh
        cases hh
    refine hinv.callAcquire ⟨hrel, hclosed, ⟨_, rfl, ⟨rfl, rfl⟩, nofun⟩, hdst⟩ (Or.inl rfl) ?_
      (fun g hg => absurd hg (hno g)) ?_
    · rintro g (hg | hg)
      · exact Or.inl (Option.some.inj hg).symm
      · exact absurd (Or.inr hg) (hno g)
    · intro c _ hd
      have hd' : (s.execs e).dst.map Handle.call = some c := hd
      rw [hdst] at hd'
      cases hd'
  · exact hinv

/-- The execution waits in one `Acquire`, which has not returned. -/
theorem JobsInv.acquiring (hinv : JobsInv cfg s) (hacq : (s.execs e).acquiring? = some h) :
    (s.execs e).Has h ∧ h.acquired = none := by
  have hc := hinv.consistent e
  unfold Exec.acquiring? at hacq
  split at hacq
  · rename_i hstage
    simp only [Exec.Consistent, hstage] at hc
    obtain ⟨-, -, ⟨g, hg, hin, -⟩, -⟩ := hc
    rw [hg] at hacq
    cases hacq
    exact ⟨Or.inl hg, hin.1⟩
  · rename_i hstage
    simp only [Exec.Consistent, hstage] at hc
    obtain ⟨-, g, hg, hin, -⟩ := hc
    rw [hg] at hacq
    cases hacq
    exact ⟨Or.inr hg, hin.1⟩
  · cases hacq

theorem JobsInv.acquire (hinv : JobsInv cfg s) (e : Nat) (st : CallStep) :
    JobsInv cfg (jobStep cfg s (.acquire e st)) := by
  unfold jobStep
  dsimp only
  split
  · rename_i h hacq
    obtain ⟨hhas, hin⟩ := hinv.acquiring hacq
    split
    · exact hinv
    · refine hinv.move (hinv.consistent e) hhas.uses rfl rfl ?_
      intro g hg
      by_cases heq : g.call = h.call
      · rw [hinv.eq_of_call hg hhas heq]
        exact (hinv.agrees e h hhas).of_inside hin st
      · exact (hinv.agrees e g hg).congr (phase?_call_of_ne st heq)
  · exact hinv

/-- `Acquire` returns a connection just when its call holds one. -/
theorem Handle.agrees_returns {ph : Phase} (hph : p.phase? h.call = some ph)
    (hrel : h.releases = []) {ok : Bool}
    (hok : if ok then ∃ k, ph = .holding k else ph = .done) : (h.returns ok).Agrees p := by
  refine ⟨ph, hph, ?_, ?_⟩
  · intro hacq
    cases ok with
    | true => cases hacq
    | false => exact hok
  · intro hacq
    cases ok with
    | true =>
      show if h.releases = [] then _ else _
      rw [if_pos hrel]
      exact hok
    | false => cases hacq

theorem JobsInv.openReturns (hinv : JobsInv cfg s) {ph : Phase}
    (hstage : (s.execs e).stage = .opening) (hsrc : (s.execs e).src = some h)
    (hph : s.pool.phase? h.call = some ph) :
    JobsInv cfg (s.set e ((s.execs e).openReturns h ph)) := by
  have hc := hinv.consistent e
  simp only [Exec.Consistent, hstage] at hc
  obtain ⟨hrel, hclosed, ⟨g, hg, hin, hfailed⟩, hdst⟩ := hc
  rw [hsrc] at hg
  cases hg
  have hother : ∀ g, (s.execs e).dst ≠ some g := by
    intro g hg
    rw [hdst] at hg
    cases hg
  have hset : ∀ (ok : Bool) (st : JobStage),
      (if ok then ∃ k, ph = Phase.holding k else ph = .done) →
      Exec.Consistent { s.execs e with src := some (h.returns ok), stage := st } →
      JobsInv cfg (s.set e { s.execs e with src := some (h.returns ok), stage := st }) := by
    intro ok st hok hcons
    refine hinv.set hcons (by rw [hsrc]; rfl) rfl ?_
    rintro g (hg | hg)
    · cases hg
      exact Handle.agrees_returns hph hin.2 hok
    · exact absurd hg (hother g)
  unfold Exec.openReturns
  split
  · refine hset true .sizing ⟨_, rfl⟩ ⟨⟨hrel, hclosed, ?_, ?_⟩, ⟨_, rfl⟩, hdst⟩
    · intro g hg
      cases hg
      exact ⟨rfl, hin.2⟩
    · intro g hg hf
      cases hg
      exact hfailed hf
  · refine hset false .done rfl ⟨?_, gone_of_none hdst⟩
    intro g hg
    cases hg
    exact Or.inl ⟨rfl, hin.2⟩
  · exact hinv.set (hinv.consistent e) rfl rfl fun g hg => hinv.agrees e g hg

theorem JobsInv.sendReturns (hinv : JobsInv cfg s) {ph : Phase}
    (hstage : (s.execs e).stage = .acquiring) (hdst : (s.execs e).dst = some h)
    (hph : s.pool.phase? h.call = some ph) :
    JobsInv cfg (s.set e ((s.execs e).sendReturns h ph)) := by
  have hc := hinv.consistent e
  simp only [Exec.Consistent, hstage] at hc
  obtain ⟨hbody, g, hg, hin, hfailed⟩ := hc
  rw [hdst] at hg
  cases hg
  have hset : ∀ (ok : Bool) (st : JobStage),
      (if ok then ∃ k, ph = Phase.holding k else ph = .done) →
      Exec.Consistent { s.execs e with dst := some (h.returns ok), stage := st } →
      JobsInv cfg (s.set e { s.execs e with dst := some (h.returns ok), stage := st }) := by
    intro ok st hok hcons
    refine hinv.set hcons rfl (by rw [hdst]; rfl) ?_
    rintro g (hg | hg)
    · exact hinv.agrees e g (Or.inl hg)
    · cases hg
      exact Handle.agrees_returns hph hin.2 hok
  unfold Exec.sendReturns
  split
  · exact hset true .making ⟨_, rfl⟩
      ⟨hbody, _, rfl, ⟨rfl, hin.2⟩, hfailed⟩
  · refine hset false (.sent false) rfl ⟨hbody, ?_⟩
    intro g hg
    cases hg
    exact Or.inl ⟨rfl, hin.2⟩
  · exact hinv.set (hinv.consistent e) rfl rfl fun g hg => hinv.agrees e g hg

theorem JobsInv.acquired (hinv : JobsInv cfg s) (e : Nat) :
    JobsInv cfg (jobStep cfg s (.acquired e)) := by
  unfold jobStep
  dsimp only
  split
  · rename_i hstage hacq
    rw [Exec.acquiring?, hstage] at hacq
    split
    · rename_i hph
      exact hinv.openReturns hstage hacq hph
    · exact hinv
  · rename_i hstage hacq
    rw [Exec.acquiring?, hstage] at hacq
    split
    · rename_i hph
      exact hinv.sendReturns hstage hacq hph
    · exact hinv
  · exact hinv

theorem JobsInv.size (hinv : JobsInv cfg s) (e : Nat) (ok : Bool) :
    JobsInv cfg (jobStep cfg s (.size e ok)) := by
  have hc := hinv.consistent e
  unfold jobStep
  dsimp only
  split
  · rename_i hstage
    simp only [Exec.Consistent, hstage] at hc
    obtain ⟨hbody, hsrc, hdst⟩ := hc
    exact hinv.setStage ⟨hbody, hsrc, hdst⟩
  · exact hinv

/-- A failed RETR releases the connection in `Source.Open`; after a good one the
body has the duty. -/
theorem JobsInv.retr (hinv : JobsInv cfg s) (e : Nat) (ok : Bool) (now : Int) :
    JobsInv cfg (jobStep cfg s (.retr e ok now)) := by
  have hc := hinv.consistent e
  unfold jobStep
  dsimp only
  split
  · rename_i h hstage hsrc
    simp only [Exec.Consistent, hstage] at hc
    obtain ⟨hbody, -, hdst⟩ := hc
    have hheld := hbody.held h hsrc
    split
    · exact hinv.setStage ⟨hbody, hdst⟩
    · refine hinv.releaseSrc hsrc hheld ⟨?_, gone_of_none hdst⟩ rfl (Or.inr rfl) rfl
      intro g hg
      cases hg
      exact Handle.gone_release hheld fun _ => rfl
  · exact hinv

/-! ## The steps of `Transport.Send` -/

theorem JobsInv.sendOther (hinv : JobsInv cfg s) (e : Nat) (ok : Bool) :
    JobsInv cfg (jobStep cfg s (.sendOther e ok)) := by
  have hc := hinv.consistent e
  unfold jobStep
  dsimp only
  split
  · rename_i hstage
    simp only [Exec.Consistent, hstage] at hc
    obtain ⟨hbody, hdst⟩ := hc
    apply hinv.setStage
    cases ok with
    | true => exact ⟨hbody, hdst⟩
    | false => exact ⟨hbody, gone_of_none hdst⟩
  · exact hinv

theorem JobsInv.copied (hinv : JobsInv cfg s) (e : Nat) (ok : Bool) :
    JobsInv cfg (jobStep cfg s (.copied e ok)) := by
  have hc := hinv.consistent e
  unfold jobStep
  dsimp only
  split
  · rename_i hstage
    simp only [Exec.Consistent, hstage] at hc
    obtain ⟨hbody, hdst⟩ := hc
    exact hinv.setStage ⟨hbody, gone_of_none hdst⟩
  · exact hinv

theorem JobsInv.sendFtp (hinv : JobsInv cfg s) (e : Nat) (host : String) :
    JobsInv cfg (jobStep cfg s (.sendFtp e host)) := by
  have hc := hinv.consistent e
  unfold jobStep
  dsimp only
  split
  · rename_i hstage
    simp only [Exec.Consistent, hstage] at hc
    obtain ⟨hbody, hdst⟩ := hc
    refine hinv.callAcquire ⟨hbody, _, rfl, ⟨rfl, rfl⟩, rfl⟩ (Or.inr rfl) ?_ ?_ ?_
    · rintro g (hg | hg)
      · exact Or.inr (Or.inl hg)
      · exact Or.inl (Option.some.inj hg).symm
    · rintro g (hg | hg)
      · exact Or.inl hg
      · rw [hdst] at hg
        cases hg
    · intro c hsrc hnew
      obtain ⟨g, hg, rfl⟩ := Option.map_eq_some_iff.mp hsrc
      exact hinv.call_ne_next (Or.inl hg) host (Option.some.inj hnew).symm
  · exact hinv

theorem JobsInv.mkd (hinv : JobsInv cfg s) (e : Nat) (ok : Bool) :
    JobsInv cfg (jobStep cfg s (.mkd e ok)) := by
  have hc := hinv.consistent e
  unfold jobStep
  dsimp only
  split
  · rename_i hstage
    simp only [Exec.Consistent, hstage] at hc
    obtain ⟨hbody, hdst⟩ := hc
    exact hinv.setStage ⟨hbody, hdst⟩
  · exact hinv

theorem JobsInv.stor (hinv : JobsInv cfg s) (e : Nat) (ok : Bool) :
    JobsInv cfg (jobStep cfg s (.stor e ok)) := by
  have hc := hinv.consistent e
  unfold jobStep
  dsimp only
  split
  · rename_i hstage
    simp only [Exec.Consistent, hstage] at hc
    obtain ⟨hbody, h, hdst, hheld, hfailed⟩ := hc
    split
    · exact hinv.setStage ⟨hbody, h, hdst, hheld, hfailed⟩
    · rw [hdst]
      exact hinv.failDst hdst hbody hheld
  · exact hinv

theorem JobsInv.rename (hinv : JobsInv cfg s) (e : Nat) (ok : Bool) (now : Int) :
    JobsInv cfg (jobStep cfg s (.rename e ok now)) := by
  have hc := hinv.consistent e
  unfold jobStep
  dsimp only
  split
  · rename_i h hstage hdst
    simp only [Exec.Consistent, hstage] at hc
    obtain ⟨hbody, g, hg, hheld, hfailed⟩ := hc
    rw [hdst] at hg
    cases hg
    split
    · refine hinv.releaseDst hdst hheld ⟨hbody, ?_⟩ rfl rfl
      intro g hg
      cases hg
      -- `Release(false)`: neither STOR nor the rename failed.
      refine Handle.gone_release hheld fun hf => ?_
      rw [hfailed] at hf
      cases hf
    · exact hinv.failDst hdst hbody hheld
  · exact hinv

theorem JobsInv.dele (hinv : JobsInv cfg s) (e : Nat) (ok : Bool) (now : Int) :
    JobsInv cfg (jobStep cfg s (.dele e ok now)) := by
  have hc := hinv.consistent e
  unfold jobStep
  dsimp only
  split
  · rename_i h hstage hdst
    simp only [Exec.Consistent, hstage] at hc
    obtain ⟨hbody, g, hg, hheld⟩ := hc
    rw [hdst] at hg
    cases hg
    refine hinv.releaseDst hdst hheld ⟨hbody, ?_⟩ rfl rfl
    intro g hg
    cases hg
    exact Handle.gone_release hheld fun _ => rfl
  · exact hinv

/-! ## The body -/

theorem Handle.Held.failOpen (hheld : h.Held) : h.failOpen = h.fail := if_pos hheld.2

theorem Handle.Gone.failOpen (hgone : h.Gone) : h.failOpen.Gone := by
  unfold Handle.failOpen
  split
  · rename_i hnil
    rcases hgone with hno | ⟨-, broken, hrel, -⟩
    · exact Or.inl hno
    · rw [hrel] at hnil
      cases hnil
  · exact hgone

theorem Handle.Agrees.failOpen (ha : h.Agrees p) : h.failOpen.Agrees p := by
  unfold Handle.failOpen
  split
  · exact ha.fail
  · exact ha

@[simp] theorem call_failOpen (h : Handle) : h.failOpen.call = h.call := by
  unfold Handle.failOpen
  split <;> rfl

theorem JobsInv.readBegin (hinv : JobsInv cfg s) (e : Nat) :
    JobsInv cfg (jobStep cfg s (.readBegin e)) := by
  have hread : JobsInv cfg (s.set e { s.execs e with reading := true }) :=
    hinv.set (hinv.consistent e) rfl rfl fun h hh => hinv.agrees e h hh
  unfold jobStep
  dsimp only
  split
  · exact hread
  · exact hread
  · exact hinv

theorem Exec.BodyOpen.readFails (hb : x.BodyOpen) :
    OpenBody (x.src.map Handle.failOpen) true x.released x.closed := by
  refine ⟨hb.released, hb.closed, ?_, fun _ _ _ => rfl⟩
  intro g hg
  obtain ⟨h, hh, rfl⟩ := Option.map_eq_some_iff.mp hg
  rw [(hb.held h hh).failOpen]
  exact hb.held h hh

theorem gone_map_failOpen {o : Option Handle} (ho : ∀ h, o = some h → h.Gone) :
    ∀ h, o.map Handle.failOpen = some h → h.Gone := by
  intro g hg
  obtain ⟨h, hh, rfl⟩ := Option.map_eq_some_iff.mp hg
  exact (ho h hh).failOpen

/-- A read may return at any stage, behind the release of the connection too. -/
theorem Exec.Consistent.readEnd (hc : x.Consistent) (ok : Bool) : (x.readEnd ok).Consistent := by
  unfold Exec.readEnd
  split
  · exact hc
  · unfold Exec.Consistent at hc ⊢
    cases hstage : x.stage with
    | before =>
      simp only [hstage] at hc ⊢
      obtain ⟨hrel, hclosed, hsrc, hdst⟩ := hc
      exact ⟨hrel, hclosed, by rw [hsrc]; rfl, hdst⟩
    | opening =>
      simp only [hstage] at hc ⊢
      obtain ⟨hrel, hclosed, ⟨h, hsrc, hin, -⟩, hdst⟩ := hc
      refine ⟨hrel, hclosed, ⟨h.failOpen, by rw [hsrc]; rfl, ?_, fun _ => trivial⟩, hdst⟩
      rw [Handle.failOpen, if_pos hin.2]
      exact hin
    | sizing | retrieving =>
      simp only [hstage] at hc ⊢
      obtain ⟨hbody, ⟨h, hsrc⟩, hdst⟩ := hc
      exact ⟨hbody.readFails, ⟨h.failOpen, by rw [hsrc]; rfl⟩, hdst⟩
    | returning =>
      simp only [hstage] at hc ⊢
      obtain ⟨hbody, hdst⟩ := hc
      refine ⟨?_, hdst⟩
      split
      · rename_i hclosed
        rw [if_pos hclosed] at hbody
        exact gone_map_failOpen hbody
      · rename_i hclosed
        rw [if_neg hclosed] at hbody
        exact hbody.readFails
    | closing =>
      simp only [hstage] at hc ⊢
      obtain ⟨hrel, hclosed, hsrc, hdst⟩ := hc
      refine ⟨hrel, hclosed, ?_, hdst⟩
      intro g hg
      obtain ⟨h, hh, rfl⟩ := Option.map_eq_some_iff.mp hg
      rw [(hsrc h hh).1.failOpen]
      exact ⟨(hsrc h hh).1, fun _ => rfl⟩
    | done =>
      simp only [hstage] at hc ⊢
      exact ⟨gone_map_failOpen hc.1, hc.2⟩
    | _ =>
      simp only [hstage] at hc ⊢
      obtain ⟨hbody, hdst⟩ := hc
      exact ⟨hbody.readFails, hdst⟩

theorem JobsInv.readEnd (hinv : JobsInv cfg s) (e : Nat) (ok : Bool) :
    JobsInv cfg (jobStep cfg s (.readEnd e ok)) := by
  unfold jobStep
  dsimp only
  split
  · refine hinv.set ((hinv.consistent e).readEnd ok) ?_ ?_ ?_
    · unfold Exec.readEnd
      split
      · rfl
      · show ((s.execs e).src.map Handle.failOpen).map Handle.call = _
        rw [Option.map_map]
        exact Option.map_congr fun h _ => call_failOpen h
    · unfold Exec.readEnd
      split <;> rfl
    · intro g hg
      unfold Exec.readEnd at hg
      split at hg
      · exact hinv.agrees e g hg
      · rcases hg with hg | hg
        · obtain ⟨h, hh, rfl⟩ := Option.map_eq_some_iff.mp hg
          exact (hinv.agrees e h (Or.inl hh)).failOpen
        · exact hinv.agrees e g (Or.inr hg)
  · exact hinv

theorem JobsInv.verify (hinv : JobsInv cfg s) (e : Nat) (ok : Bool) :
    JobsInv cfg (jobStep cfg s (.verify e ok)) := by
  have hc := hinv.consistent e
  unfold jobStep
  dsimp only
  split
  · rename_i sendOk hstage
    simp only [Exec.Consistent, hstage] at hc
    obtain ⟨hbody, hdst⟩ := hc
    apply hinv.setStage
    split
    · exact ⟨hbody, hdst⟩
    · refine ⟨?_, hdst⟩
      rw [if_neg]
      · exact hbody
      · show ¬(s.execs e).closed = true
        rw [hbody.closed]
        exact Bool.false_ne_true
  · exact hinv

/-- The close of the data connection. -/
theorem JobsInv.closeData (hinv : JobsInv cfg s) (hbody : (s.execs e).BodyOpen)
    (hdst : ∀ h, (s.execs e).dst = some h → h.Gone) (deferred ok : Bool) :
    JobsInv cfg (s.set e
      { s.execs e with
        src := if ok then (s.execs e).src else (s.execs e).src.map Handle.fail
        stage := .closing deferred !ok }) := by
  cases ok with
  | true =>
    refine hinv.set ⟨hbody.released, hbody.closed, ?_, hdst⟩ rfl rfl fun g hg => hinv.agrees e g hg
    intro h hh
    refine ⟨hbody.held h hh, fun hf => ?_⟩
    rw [hbody.noted h hh hf]
    rfl
  | false =>
    refine hinv.set ⟨hbody.released, hbody.closed, ?_, hdst⟩ ?_ rfl ?_
    · intro g hg
      obtain ⟨h, hh, rfl⟩ := Option.map_eq_some_iff.mp hg
      exact ⟨hbody.held h hh, fun _ => Bool.or_true _⟩
    · show ((s.execs e).src.map Handle.fail).map Handle.call = _
      rw [Option.map_map]
      rfl
    · rintro g (hg | hg)
      · obtain ⟨h, hh, rfl⟩ := Option.map_eq_some_iff.mp hg
        exact (hinv.agrees e h (Or.inl hh)).fail
      · exact hinv.agrees e g (Or.inr hg)

/-- After the explicit close the deferred function finds `closed` set. -/
theorem JobsInv.closeBody (hinv : JobsInv cfg s) (e : Nat) (ok : Bool) :
    JobsInv cfg (jobStep cfg s (.closeBody e ok)) := by
  have hc := hinv.consistent e
  unfold jobStep
  dsimp only
  split
  · rename_i hstage
    simp only [Exec.Consistent, hstage] at hc
    exact hinv.closeData hc.1 hc.2 false ok
  · rename_i hstage
    simp only [Exec.Consistent, hstage] at hc
    obtain ⟨hbody, hdst⟩ := hc
    split
    · rename_i hclosed
      rw [if_pos hclosed] at hbody
      exact hinv.setStage ⟨hbody, hdst⟩
    · rename_i hclosed
      rw [if_neg hclosed] at hbody
      exact hinv.closeData hbody hdst true ok
  · exact hinv

theorem consistent_bodyClosed {src : Option Handle} (hsrc : ∀ h, src = some h → h.Gone)
    (hdst : ∀ h, x.dst = some h → h.Gone) (deferred : Bool) :
    (x.bodyClosed deferred src).Consistent := by
  cases deferred with
  | true => exact ⟨hsrc, hdst⟩
  | false =>
    refine ⟨?_, hdst⟩
    rw [if_pos]
    · exact hsrc
    · exact Bool.or_true _

theorem JobsInv.releaseBody (hinv : JobsInv cfg s) (e : Nat) (now : Int) :
    JobsInv cfg (jobStep cfg s (.releaseBody e now)) := by
  have hc := hinv.consistent e
  unfold jobStep
  dsimp only
  split
  · rename_i deferred failed hstage
    simp only [Exec.Consistent, hstage] at hc
    obtain ⟨hrel, -, hsrc, hdst⟩ := hc
    split
    · rename_i h hh
      obtain ⟨hheld, hfailed⟩ := hsrc h hh
      rw [if_neg (by rw [hrel]; exact Bool.false_ne_true)]
      refine hinv.releaseSrc hh hheld (consistent_bodyClosed ?_ hdst deferred) rfl (Or.inl rfl) rfl
      intro g hg
      cases hg
      exact Handle.gone_release hheld hfailed
    · rename_i hnone
      refine hinv.set (consistent_bodyClosed (gone_of_none rfl) hdst deferred)
        (by rw [hnone]; rfl) rfl ?_
      rintro g (hg | hg)
      · cases hg
      · exact hinv.agrees e g (Or.inr hg)
  · exact hinv

/-- `Pool.Close` takes idle connections only. -/
theorem JobsInv.closePool (hinv : JobsInv cfg s) : JobsInv cfg (jobStep cfg s .closePool) where
  capacity := hinv.capacity.step .close
  consistent := hinv.consistent
  agrees := hinv.agrees
  distinct := hinv.distinct
  apart := hinv.apart
  owned := hinv.owned

/-! ## Runs -/

theorem JobsInv.step (hinv : JobsInv cfg s) (a : JobAction) : JobsInv cfg (jobStep cfg s a) := by
  cases a with
  | openOther e ok => exact hinv.openOther e ok
  | openFtp e host => exact hinv.openFtp e host
  | acquire e st => exact hinv.acquire e st
  | acquired e => exact hinv.acquired e
  | size e ok => exact hinv.size e ok
  | retr e ok now => exact hinv.retr e ok now
  | sendOther e ok => exact hinv.sendOther e ok
  | sendFtp e host => exact hinv.sendFtp e host
  | copied e ok => exact hinv.copied e ok
  | readBegin e => exact hinv.readBegin e
  | readEnd e ok => exact hinv.readEnd e ok
  | mkd e ok => exact hinv.mkd e ok
  | stor e ok => exact hinv.stor e ok
  | rename e ok now => exact hinv.rename e ok now
  | dele e ok now => exact hinv.dele e ok now
  | verify e ok => exact hinv.verify e ok
  | closeBody e ok => exact hinv.closeBody e ok
  | releaseBody e now => exact hinv.releaseBody e now
  | closePool => exact hinv.closePool

end Step

theorem jobsInv_init (cfg : PoolConfig) :
    JobsInv (newPool cfg) { pool := Pool.init, execs := fun _ => Exec.init } where
  capacity := fun _ => capacity_init (newPool_maxPerHost_pos cfg).le
  consistent := fun _ => ⟨rfl, rfl, rfl, rfl⟩
  agrees := by
    rintro e h (hh | hh)
    · cases hh
    · cases hh
  distinct := by
    rintro e e' c (hu | hu)
    · cases hu
    · cases hu
  apart := nofun
  owned := nofun

theorem reach_jobsInv (cfg : PoolConfig) (as : List JobAction) :
    JobsInv (newPool cfg) (jobReach cfg as) :=
  foldl_invariant (JobsInv (newPool cfg)) (fun _ a hinv => hinv.step a) (jobsInv_init cfg) as

end ImgSync.Ftp
