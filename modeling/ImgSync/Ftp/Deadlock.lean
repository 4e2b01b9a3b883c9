import ImgSync.Ftp.Ownership

/-!
# When a pod can deadlock on its own pool

A worker that waits for its second connection keeps its first one.  If every
worker waits, then every host `h` that is waited for is at its cap, so `cap`
workers hold a connection to `h`, and each of them waits for a host of the
same kind.  The hosts that are waited for are therefore a set that the jobs
lead around in, and the pod has at least `cap` workers for each of them
(`Pod.Deadlocked.circular`).

`pod_no_deadlock` is the contrapositive.  `pod_deadlock` is the smallest pod
that does deadlock: one worker, a cap of one, and a job whose source and
destination are on one host.

`hostcap` can keep workers out of `Acquire` without helping them: the pod is then
wedged with some workers in `Acquire` and the others in the wait for `hostcap`.
`pod_not_wedged` is about this wait too.  It asks for fewer workers than slots in
every circular set, and for a `hostcap` connection for every worker.
-/

namespace ImgSync.Ftp

open ImgSync.Lib

section Deadlock

variable {n : Nat} {cfg : PodConfig} {s : Pod n}

/-- Every worker that is in `Acquire` is blocked there. -/
def Pod.Parked (s : Pod n) : Prop := ∀ w x, (s.workers w).call? = some x → s.Blocked w

theorem Pod.Deadlocked.parked (hdead : s.Deadlocked) : s.Parked := fun w _ _ => hdead w

theorem Pod.Wedged.parked (hwedged : s.Wedged cfg) : s.Parked := by
  intro w x hx
  rcases hwedged w with hblocked | ⟨job, i, hst, -⟩ | ⟨job, i, hst, -⟩
  · exact hblocked
  · rw [hst] at hx
    cases hx
  · rw [hst] at hx
    cases hx

/-- Then a call has ended, is held for the open body of a worker, or is the parked
call of a worker. -/
theorem Pod.Parked.phases (hpark : s.Parked) (h : Ownership s) {x : CallId} {ph : Phase}
    (hph : s.phase? x = some ph) :
    ph = .done ∨ (∃ c w, ph = .holding c ∧ (s.workers w).src? = some x) ∨
      ∃ ch, ph = .parked ch ∧ ch ∉ (s.pool.hosts x.1).tokens := by
  by_cases hdone : ph = .done
  · exact Or.inl hdone
  · right
    obtain ⟨w, hcall | hsrc⟩ := h.owned x ph hph hdone
    · right
      obtain ⟨host, i, ch, hcall', hparked, htok⟩ := hpark w x hcall
      obtain rfl : x = (host, i) := Option.some.inj (hcall.symm.trans hcall')
      exact ⟨ch, Option.some.inj (hph.symm.trans hparked), htok⟩
    · left
      obtain ⟨c, hc⟩ := h.held w x hsrc
      exact ⟨c, w, Option.some.inj (hph.symm.trans hc), hsrc⟩

/-- The workers whose open body keeps a connection to the host. -/
def Pod.holders (s : Pod n) (host : String) : Finset (Fin n) :=
  Finset.univ.filter fun w => (s.workers w).src?.map Prod.fst = some host

theorem Pod.mem_holders {host : String} {w : Fin n} :
    w ∈ s.holders host ↔ ∃ i, (s.workers w).src? = some (host, i) := by
  unfold Pod.holders
  rw [Finset.mem_filter]
  cases (s.workers w).src? with
  | none => simp
  | some x => simp [Prod.ext_iff]

/-- An open body keeps one connection, so no worker is a holder at two hosts. -/
theorem Pod.disjoint_holders {host host' : String} (hne : host ≠ host') :
    Disjoint (s.holders host) (s.holders host') := by
  rw [Finset.disjoint_left]
  intro w hw hw'
  obtain ⟨i, hi⟩ := Pod.mem_holders.mp hw
  obtain ⟨j, hj⟩ := Pod.mem_holders.mp hw'
  exact hne (congrArg Prod.fst (Option.some.inj (hi.symm.trans hj)))

/-- The hosts that some worker waits for. -/
def Pod.waited (s : Pod n) : Finset String :=
  Finset.univ.biUnion fun w => ((s.workers w).call?.map Prod.fst).toFinset

theorem Pod.mem_waited {host : String} :
    host ∈ s.waited ↔ ∃ w i, (s.workers w).call? = some (host, i) := by
  simp [Pod.waited]

/-- A host that somebody waits for is at its cap, and open bodies take all of its
slots. -/
theorem Pod.Parked.full (hpark : s.Parked) (h : PodInv cfg s) {w : Fin n}
    {host : String} {i : Nat} (hw : (s.workers w).call? = some (host, i)) :
    (newPool cfg.pool).maxPerHost ≤ (s.holders host).card := by
  have hwake := h.wake.2 host
  have hcap := h.wake.1 host
  have hphases : ∀ (k : Nat) ph, (s.pool.hosts host).calls[k]? = some ph → _ :=
    fun k ph hph => hpark.phases h.own (x := (host, k)) hph
  -- The parked call is still queued, because its channel has no token.
  have hqueued : (s.pool.hosts host).waiters ≠ [] := by
    obtain ⟨host', i', ch, hcall, hparked, htok⟩ := hpark w _ hw
    obtain ⟨rfl, rfl⟩ := Prod.mk.inj (Option.some.inj (hw.symm.trans hcall))
    have hchan : ch ∈ (s.pool.hosts host).chans :=
      List.mem_filterMap.mpr ⟨_, List.mem_of_getElem? hparked, rfl⟩
    rcases List.mem_append.mp (hwake.chans.mem_iff.mpr hchan) with hin | hin
    · exact List.ne_nil_of_mem hin
    · exact absurd hin htok
  have hwoken : (s.pool.hosts host).calls.countP Phase.isWoken = 0 := by
    rw [List.countP_eq_zero]
    intro ph hph
    obtain ⟨k, hk⟩ := List.mem_iff_getElem?.mp hph
    rcases hphases k ph hk with rfl | ⟨c, w', rfl, _⟩ | ⟨ch, rfl, _⟩ <;> exact Bool.false_ne_true
  have htokens : (s.pool.hosts host).tokens = [] := by
    rw [List.eq_nil_iff_forall_not_mem]
    intro ch hch
    have hchan := hwake.chans.mem_iff.mp (List.mem_append_right _ hch)
    obtain ⟨ph, hph, hsome⟩ := List.mem_filterMap.mp hchan
    obtain ⟨k, hk⟩ := List.mem_iff_getElem?.mp hph
    rcases hphases k ph hk with rfl | ⟨c, w', rfl, _⟩ | ⟨ch', rfl, htok⟩
    · cases hsome
    · cases hsome
    · obtain rfl : ch' = ch := Option.some.inj hsome
      exact htok hch
  have hheld : (s.pool.hosts host).calls.countP Phase.occupies ≤ (s.holders host).card := by
    refine (countP_le_card _
      ((s.holders host).image fun w => ((s.workers w).src?.map Prod.snd).getD 0) ?_).trans
      Finset.card_image_le
    intro k ph hk hocc
    rcases hphases k ph hk with rfl | ⟨c, w', rfl, hsrc⟩ | ⟨ch, rfl, _⟩
    · cases hocc
    · refine Finset.mem_image.mpr ⟨w', Finset.mem_filter.mpr ⟨Finset.mem_univ _, ?_⟩, ?_⟩
      · rw [hsrc]
        rfl
      · rw [hsrc]
        rfl
    · cases hocc
  have hbal := hwake.wake h.running hqueued
  have hinUse := hcap.inUse
  rw [hwoken, htokens, List.length_nil] at hbal
  push_cast at hbal
  omega

/-- A worker that waits and has an open body is inside `Send`. -/
theorem Stage.sending_of_owns {st : Stage} {x y : CallId} (hcall : st.call? = some x)
    (hsrc : st.src? = some y) :
    ∃ job i j, st = .sending job i j ∧ x = (job.dstHost, j) ∧ y = (job.srcHost, i) := by
  cases st with
  | sending job i j =>
    exact ⟨job, i, j, rfl, (Option.some.inj hcall).symm, (Option.some.inj hsrc).symm⟩
  | opening job i => cases hsrc
  | idle => cases hsrc
  | opened job i => cases hcall
  | slotWait job i => cases hcall
  | closing job i => cases hcall

/-- A nonempty set of hosts in which the jobs lead around: every host of the
set is the source of a job whose destination is in the set again. -/
def Circular (jobs : FtpJob → Bool) (H : Finset String) : Prop :=
  H.Nonempty ∧ ∀ host ∈ H, ∃ job, jobs job = true ∧ job.srcHost = host ∧ job.dstHost ∈ H

/-- Every open body of the pod is on its way to a host that somebody waits for. -/
def Pod.LeadsOn (s : Pod n) : Prop :=
  ∀ w host, w ∈ s.holders host →
    ∃ job, (s.workers w).job? = some job ∧ job.srcHost = host ∧ job.dstHost ∈ s.waited

theorem Pod.Parked.waited_circular (hpark : s.Parked) (h : PodInv cfg s) (hleads : s.LeadsOn)
    (hne : s.waited.Nonempty) : Circular cfg.jobs s.waited := by
  refine ⟨hne, fun host hhost => ?_⟩
  obtain ⟨w, i, hcall⟩ := Pod.mem_waited.mp hhost
  have hpos : 0 < (s.holders host).card := by
    have hm := newPool_maxPerHost_pos cfg.pool
    have hfull := hpark.full h hcall
    omega
  obtain ⟨w', hw'⟩ := Finset.card_pos.mp hpos
  obtain ⟨job, hjob, hsrc, hdst⟩ := hleads w' host hw'
  exact ⟨job, h.jobs w' job hjob, hsrc, hdst⟩

/-- The holders at the hosts that are waited for are different workers,
`maxPerHost` of them for every host. -/
theorem Pod.Parked.card_holders (hpark : s.Parked) (h : PodInv cfg s) :
    (newPool cfg.pool).maxPerHost * s.waited.card ≤ ((s.waited.biUnion s.holders).card : Int) := by
  have hfull : ∀ host ∈ s.waited,
      (newPool cfg.pool).maxPerHost ≤ ((s.holders host).card : Int) := by
    intro host hhost
    obtain ⟨w, i, hcall⟩ := Pod.mem_waited.mp hhost
    exact hpark.full h hcall
  rw [Finset.card_biUnion fun _ _ _ _ hne => Pod.disjoint_holders hne]
  push_cast
  calc (newPool cfg.pool).maxPerHost * s.waited.card
      = ∑ _host ∈ s.waited, (newPool cfg.pool).maxPerHost := by
        rw [Finset.sum_const, nsmul_eq_mul, mul_comm]
    _ ≤ ∑ host ∈ s.waited, ((s.holders host).card : Int) := Finset.sum_le_sum hfull

/-- In a deadlock, a worker with an open body is inside `Send` and waits for
the destination. -/
theorem Pod.Deadlocked.sending (hdead : s.Deadlocked) {w : Fin n} {host : String}
    (hw : w ∈ s.holders host) :
    ∃ job i j, s.workers w = .sending job i j ∧ job.srcHost = host ∧ job.dstHost ∈ s.waited := by
  obtain ⟨k, hsrc⟩ := Pod.mem_holders.mp hw
  obtain ⟨host', i', ch, hcall, _⟩ := hdead w
  obtain ⟨job, i, j, hst, hx, hy⟩ := Stage.sending_of_owns hcall hsrc
  refine ⟨job, i, j, hst, (congrArg Prod.fst hy).symm, Pod.mem_waited.mpr ⟨w, j, ?_⟩⟩
  rw [hcall, hx]

theorem Pod.Deadlocked.leadsOn (hdead : s.Deadlocked) : s.LeadsOn := by
  intro w host hw
  obtain ⟨job, i, j, hst, hsrc, hdst⟩ := hdead.sending hw
  exact ⟨job, by rw [hst]; rfl, hsrc, hdst⟩

/-- What a deadlock needs: a circular set of hosts, enough workers to take
every slot of every host of the set, and `hostcap` limits that let all of
them into `Send`. -/
theorem Pod.Deadlocked.circular (hdead : s.Deadlocked) (h : PodInv cfg s) (hn : 0 < n) :
    ∃ H, Circular cfg.jobs H ∧ (newPool cfg.pool).maxPerHost * H.card ≤ n ∧
      (newPool cfg.pool).maxPerHost ≤ cfg.slots ∧
      (newPool cfg.pool).maxPerHost * H.card ≤ cfg.conns := by
  have hne : s.waited.Nonempty := by
    obtain ⟨host, i, ch, hcall, _⟩ := hdead ⟨0, hn⟩
    exact ⟨host, Pod.mem_waited.mpr ⟨_, i, hcall⟩⟩
  have hcirc := hdead.parked.waited_circular h hdead.leadsOn hne
  have hcard : 0 < s.waited.card := Finset.card_pos.mpr hcirc.1
  have hsum := hdead.parked.card_holders h
  have hworkers : (s.waited.biUnion s.holders).card ≤ n := by
    simpa using Finset.card_le_univ (s.waited.biUnion s.holders)
  have hconns : (s.waited.biUnion s.holders).card ≤ cfg.conns := by
    refine (Finset.card_le_card ?_).trans h.conns
    intro w hw
    obtain ⟨host, _, hholder⟩ := Finset.mem_biUnion.mp hw
    obtain ⟨job, i, j, hst, _⟩ := hdead.sending hholder
    refine Finset.mem_filter.mpr ⟨Finset.mem_univ w, ?_⟩
    rw [hst]
    rfl
  have hslots : (s.waited.biUnion s.holders).card ≤ s.waited.card * cfg.slots := by
    refine (Finset.card_le_card ?_).trans
      (Finset.card_biUnion_le_card_mul s.waited (fun x => Finset.univ.filter fun w =>
        (s.workers w).sendsTo x) cfg.slots fun x _ => h.slots x)
    intro w hw
    obtain ⟨host, _, hholder⟩ := Finset.mem_biUnion.mp hw
    obtain ⟨job, i, j, hst, _, hdst⟩ := hdead.sending hholder
    refine Finset.mem_biUnion.mpr ⟨job.dstHost, hdst, Finset.mem_filter.mpr ⟨Finset.mem_univ w, ?_⟩⟩
    rw [hst]
    exact beq_self_eq_true _
  refine ⟨s.waited, hcirc, by omega, ?_, by omega⟩
  have hle : (newPool cfg.pool).maxPerHost * (s.waited.card : Int) ≤
      cfg.slots * (s.waited.card : Int) := by
    have hslots' : ((s.waited.biUnion s.holders).card : Int) ≤ s.waited.card * cfg.slots := by
      exact_mod_cast hslots
    rw [mul_comm (cfg.slots : Int)]
    omega
  exact le_of_mul_le_mul_right hle (by exact_mod_cast hcard)

/-! ## The wait for `hostcap` -/

/-- With a `hostcap` connection for every worker, none waits for one. -/
theorem not_waitsForConn (hconns : n ≤ cfg.conns) (w : Fin n) : ¬s.WaitsForConn cfg w := by
  rintro ⟨job, i, hst, hfull⟩
  have hlt : s.connUsers < n := by
    have hsub : (Finset.univ.filter fun v => (s.workers v).pinsConn) ⊂ Finset.univ := by
      refine Finset.filter_ssubset.mpr ⟨w, Finset.mem_univ w, ?_⟩
      rw [hst]
      exact Bool.false_ne_true
    simpa [Pod.connUsers] using Finset.card_lt_card hsub
  omega

/-- The slots of a host are taken by workers inside of `Send` to this host. -/
theorem waited_of_sendersTo (hslots : 0 < cfg.slots) {host : String}
    (hfull : cfg.slots ≤ s.sendersTo host) : host ∈ s.waited := by
  obtain ⟨v, hv⟩ := Finset.card_pos.mp (hslots.trans_le hfull)
  have hsends := (Finset.mem_filter.mp hv).2
  cases hst : s.workers v with
  | sending job' i j =>
    rw [hst, Stage.sendsTo, beq_iff_eq] at hsends
    exact Pod.mem_waited.mpr ⟨v, j, by rw [hst, ← hsends]; rfl⟩
  | _ =>
    rw [hst] at hsends
    cases hsends

theorem Pod.Wedged.leadsOn (hwedged : s.Wedged cfg) (hslots : 0 < cfg.slots)
    (hconns : n ≤ cfg.conns) : s.LeadsOn := by
  intro w host hw
  obtain ⟨k, hsrc⟩ := Pod.mem_holders.mp hw
  rcases hwedged w with ⟨host', i', ch, hcall, _⟩ | hconn | ⟨job, i, hst, hfull⟩
  · obtain ⟨job, i, j, hst, hx, hy⟩ := Stage.sending_of_owns hcall hsrc
    refine ⟨job, by rw [hst]; rfl, (congrArg Prod.fst hy).symm, Pod.mem_waited.mpr ⟨w, j, ?_⟩⟩
    rw [hcall, hx]
  · exact absurd hconn (not_waitsForConn hconns w)
  · rw [hst] at hsrc
    refine ⟨job, by rw [hst]; rfl, congrArg Prod.fst (Option.some.inj hsrc), ?_⟩
    exact waited_of_sendersTo hslots hfull

theorem Pod.Wedged.waited_nonempty (hwedged : s.Wedged cfg) (hslots : 0 < cfg.slots)
    (hconns : n ≤ cfg.conns) (hn : 0 < n) : s.waited.Nonempty := by
  rcases hwedged ⟨0, hn⟩ with ⟨host, i, ch, hcall, _⟩ | hconn | ⟨job, i, hst, hfull⟩
  · exact ⟨host, Pod.mem_waited.mpr ⟨_, i, hcall⟩⟩
  · exact absurd hconn (not_waitsForConn hconns _)
  · exact ⟨_, waited_of_sendersTo hslots hfull⟩

/-- No step gets a deadlocked pod out of its state. -/
theorem Pod.Deadlocked.stuck (hdead : s.Deadlocked) (a : PodAction n) : podStep cfg s a = s := by
  -- The stage of a blocked worker is one of the two that are in `Acquire`.
  have hstage : ∀ w, (∃ job i, s.workers w = .opening job i) ∨
      ∃ job i j, s.workers w = .sending job i j := by
    intro w
    obtain ⟨host, i, ch, hcall, _⟩ := hdead w
    cases hst : s.workers w with
    | opening job i => exact Or.inl ⟨job, i, rfl⟩
    | sending job i j => exact Or.inr ⟨job, i, j, rfl⟩
    | _ => simp [hst, Stage.call?] at hcall
  cases a with
  | start w job => rcases hstage w with ⟨_, _, h⟩ | ⟨_, _, _, h⟩ <;> simp [podStep, h]
  | takeConn w ok => rcases hstage w with ⟨_, _, h⟩ | ⟨_, _, _, h⟩ <;> simp [podStep, h]
  | takeSlot w ok => rcases hstage w with ⟨_, _, h⟩ | ⟨_, _, _, h⟩ <;> simp [podStep, h]
  | close w broken now => rcases hstage w with ⟨_, _, h⟩ | ⟨_, _, _, h⟩ <;> simp [podStep, h]
  | opened w ok now =>
    obtain ⟨host, i, ch, hcall, hpark, _⟩ := hdead w
    rcases hstage w with ⟨job, i', h⟩ | ⟨_, _, _, h⟩
    · rw [h] at hcall
      obtain ⟨rfl, rfl⟩ := Prod.mk.inj (Option.some.inj hcall)
      simp [podStep, h, hpark]
    · simp [podStep, h]
  | sent w broken now =>
    obtain ⟨host, i, ch, hcall, hpark, _⟩ := hdead w
    rcases hstage w with ⟨_, _, h⟩ | ⟨job, i', j, h⟩
    · simp [podStep, h]
    · rw [h] at hcall
      obtain ⟨rfl, rfl⟩ := Prod.mk.inj (Option.some.inj hcall)
      simp [podStep, h, hpark]
  | acquiring w st =>
    obtain ⟨host, i, ch, hcall, hpark, htok⟩ := hdead w
    simp only [podStep, hcall]
    split
    · rename_i hby
      have hhost : (s.pool.hosts host).step (newPool cfg.pool) s.pool.closed (.call i st) =
          s.pool.hosts host := by
        rw [Host.step_call hpark]
        cases st with
        | take => exact if_neg htok
        | cancel => cases hby
        | evict => cases hby
        | release => cases hby
        | _ => rfl
      simp only [Pod.move, Ftp.step]
      rw [hhost, Function.update_eq_self, Function.update_eq_self]
    · rfl

end Deadlock

/-- The pods that cannot deadlock.  For every circular set of hosts there are
fewer workers than slots in the pool, or `hostcap` lets too few of them into
`Send` to take those slots. -/
theorem pod_no_deadlock (cfg : PodConfig) (n : Nat) (hn : 0 < n)
    (hcond : ∀ H, Circular cfg.jobs H → (n : Int) < (newPool cfg.pool).maxPerHost * H.card ∨
      (cfg.slots : Int) < (newPool cfg.pool).maxPerHost ∨
      (cfg.conns : Int) < (newPool cfg.pool).maxPerHost * H.card)
    (as : List (PodAction n)) : ¬ (podReach cfg n as).Deadlocked := by
  intro hdead
  obtain ⟨H, hcirc, hworkers, hslots, hconns⟩ := hdead.circular (podReach_inv cfg n as) hn
  rcases hcond H hcirc with hlt | hlt | hlt <;> omega

/-- The pods that never wedge: there are fewer workers than slots in every circular set
of hosts, and a `hostcap` connection for every worker. -/
theorem pod_not_wedged (cfg : PodConfig) (n : Nat) (hn : 0 < n) (hslots : 0 < cfg.slots)
    (hconns : n ≤ cfg.conns)
    (hcond : ∀ H, Circular cfg.jobs H → (n : Int) < (newPool cfg.pool).maxPerHost * H.card)
    (as : List (PodAction n)) : ¬ (podReach cfg n as).Wedged cfg := by
  intro hwedged
  have hinv := podReach_inv cfg n as
  have hpark := hwedged.parked
  have hcirc := hpark.waited_circular hinv (hwedged.leadsOn hslots hconns)
    (hwedged.waited_nonempty hslots hconns hn)
  have hsum := hpark.card_holders hinv
  have hworkers := Finset.card_le_univ
    ((podReach cfg n as).waited.biUnion (podReach cfg n as).holders)
  rw [Fintype.card_fin] at hworkers
  have hlt := hcond _ hcirc
  omega

/-- A job from a host to the same host, up to the second `Acquire`. -/
def sameHostRun : List (PodAction 1) :=
  [.start 0 ⟨"h", "h"⟩, .acquiring 0 (.enter fun _ => 0), .acquiring 0 (.dial true),
   .acquiring 0 (.login true), .opened 0 true 0, .takeConn 0 true, .takeSlot 0 true,
   .acquiring 0 (.enter fun _ => 0)]

/-- With a cap of two, one worker never blocks itself. -/
theorem pod_no_deadlock_cap_two :
    ¬ (podReach ⟨⟨2, 0, 0⟩, 8, 10, fun _ => true⟩ 1 sameHostRun).Deadlocked := by
  refine pod_no_deadlock _ 1 (by decide) ?_ sameHostRun
  intro H hcirc
  have hcard := Finset.card_pos.mpr hcirc.1
  left
  show ((1 : Nat) : Int) < 2 * (H.card : Int)
  omega

/-- With a cap of one, one worker waits for the connection that it holds. -/
theorem pod_deadlock :
    (podReach ⟨⟨1, 0, 0⟩, 8, 10, fun _ => true⟩ 1 sameHostRun).Deadlocked ∧
    ∀ a, podStep ⟨⟨1, 0, 0⟩, 8, 10, fun _ => true⟩
        (podReach ⟨⟨1, 0, 0⟩, 8, 10, fun _ => true⟩ 1 sameHostRun) a =
      podReach ⟨⟨1, 0, 0⟩, 8, 10, fun _ => true⟩ 1 sameHostRun := by
  have hdead : (podReach ⟨⟨1, 0, 0⟩, 8, 10, fun _ => true⟩ 1 sameHostRun).Deadlocked := by
    intro w
    obtain rfl : w = 0 := Subsingleton.elim _ _
    exact ⟨"h", 1, 0, by decide, by decide, by decide⟩
  exact ⟨hdead, hdead.stuck⟩

/-- Workers `u` and `v` with such a job and a cap of two.  The first one is in the
second `Acquire`, and the other one waits for the only slot of `hostcap`. -/
def slotWaitRun {n : Nat} (u v : Fin n) : List (PodAction n) :=
  [.start u ⟨"h", "h"⟩, .acquiring u (.enter fun _ => 0), .acquiring u (.dial true),
   .acquiring u (.login true), .opened u true 0, .start v ⟨"h", "h"⟩,
   .acquiring v (.enter fun _ => 0), .acquiring v (.dial true), .acquiring v (.login true),
   .opened v true 0, .takeConn u true, .takeSlot u true, .acquiring u (.enter fun _ => 0),
   .takeConn v true]

/-- The pod is not deadlocked, since one worker is not in `Acquire`, and it is wedged. -/
example : ¬ (podReach ⟨⟨2, 0, 0⟩, 1, 3, fun _ => true⟩ 2 (slotWaitRun 0 1)).Deadlocked ∧
    (podReach ⟨⟨2, 0, 0⟩, 1, 3, fun _ => true⟩ 2 (slotWaitRun 0 1)).Wedged
      ⟨⟨2, 0, 0⟩, 1, 3, fun _ => true⟩ := by
  constructor
  · intro hdead
    obtain ⟨host, i, ch, hcall, -⟩ := hdead 1
    cases hcall
  · intro w
    match w with
    | 0 => exact Or.inl ⟨"h", 2, 0, by decide, by decide, by decide⟩
    | 1 => exact Or.inr (Or.inr ⟨⟨"h", "h"⟩, 1, by decide, by decide⟩)

end ImgSync.Ftp
