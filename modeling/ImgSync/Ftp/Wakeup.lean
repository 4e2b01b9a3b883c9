import ImgSync.Ftp.Capacity

/-!
# No wakeup is lost

A call that waits has a channel, and the channel is either still queued in
`hp.waiters` or has been popped and holds a token.  The tokens and the woken
calls are the ones on the way to use a free slot.  `Wakeup` says that they
are at least as many as the free slots whenever somebody still waits.

Four sections free a slot: the two that give it back after a failure,
`release`, and a cancelled waiter that was already popped.  Each of them
wakes one waiter.  In the middle of such a section the balance is off by one;
the parameter `d` of `Wakeup` is that debt, and `Wakeup.wake` pays it.
-/

namespace ImgSync.Ftp

open ImgSync.Lib

/-- The call has taken its token and is on the way back to the mutex. -/
def Phase.isWoken : Phase → Bool
  | .woken => true
  | _ => false

/-- The channels that the calls of a host wait on. -/
def Host.chans (s : Host) : List Nat := s.calls.filterMap Phase.chan?

structure Wakeup (m : Int) (closed : Bool) (d : Nat) (s : Host) : Prop where
  /-- A channel in use is queued or holds a token. -/
  chans : (s.waiters ++ s.tokens).Perm s.chans
  nodup : s.chans.Nodup
  fresh : ∀ ch ∈ s.chans, ch < s.nextChan
  created : s.created = false → s.chans = []
  wake : closed = false → s.waiters ≠ [] →
    m - s.inUse ≤ s.calls.countP Phase.isWoken + s.tokens.length + d

section Host

variable {cfg : PoolConfig} {m : Int} {closed : Bool} {s s' : Host} {i d d' : Nat}
  {ph ph' : Phase}

theorem wakeup_init : Wakeup m closed d Host.init where
  chans := List.Perm.nil
  nodup := List.nodup_nil
  fresh := by
    intro ch h
    cases h
  created := fun _ => rfl
  wake := fun _ h => absurd rfl h

/-- No channel is queued twice, and a queued channel has no token. -/
theorem Wakeup.disjoint (h : Wakeup m closed d s) : (s.waiters ++ s.tokens).Nodup :=
  h.chans.nodup_iff.mpr h.nodup

/-- A step of one call that keeps the channel it waits on, or drops it.  `C`
stands for the channels of the other calls and `n` for the woken ones. -/
theorem Wakeup.replace (h : Wakeup m closed d s) (hi : s.calls[i]? = some ph)
    (hcalls : s'.calls = s.calls.set i ph')
    (hchan : ph'.chan? = none ∨ ph'.chan? = ph.chan?)
    (hchans : ∀ C, (s.waiters ++ s.tokens).Perm (ph.chan?.toList ++ C) →
      (s'.waiters ++ s'.tokens).Perm (ph'.chan?.toList ++ C))
    (hnext : s'.nextChan = s.nextChan) (hcreated : s'.created = false → s.created = false)
    (hwake : closed = false → s'.waiters ≠ [] → ∀ n : Nat,
      (s.waiters ≠ [] →
        m - s.inUse ≤ n + (if ph.isWoken then 1 else 0) + s.tokens.length + d) →
      m - s'.inUse ≤ n + (if ph'.isWoken then 1 else 0) + s'.tokens.length + d') :
    Wakeup m closed d' s' := by
  have hslot := filterMap_slot Phase.chan? hi
  have hset := filterMap_set_slot Phase.chan? hi ph'
  have hsub : List.Subperm (s.calls.set i ph' |>.filterMap Phase.chan?) s.chans := by
    refine hset.subperm.trans (List.Subperm.trans ?_ hslot.symm.subperm)
    rcases hchan with hnone | hsame
    · rw [hnone]
      exact (List.sublist_append_right _ _).subperm
    · rw [hsame]
  have hnew : s'.chans = (s.calls.set i ph').filterMap Phase.chan? := by
    rw [Host.chans, hcalls]
  refine ⟨?_, ?_, ?_, ?_, ?_⟩
  · rw [hnew]
    exact (hchans _ (h.chans.trans hslot)).trans hset.symm
  · rw [hnew]
    obtain ⟨l, hperm, hsl⟩ := hsub
    exact hperm.nodup_iff.mp (h.nodup.sublist hsl)
  · intro ch hch
    rw [hnew] at hch
    rw [hnext]
    exact h.fresh ch (hsub.subset hch)
  · intro hc
    rw [hnew]
    have hnil := h.created (hcreated hc)
    rw [hnil] at hsub
    exact List.subperm_nil.mp hsub
  · intro hclosed hne
    have hold := h.wake hclosed
    rw [hcalls, countP_set_slot Phase.isWoken hi]
    rw [countP_slot Phase.isWoken hi] at hold
    push_cast at hold ⊢
    exact hwake hclosed hne _ hold

/-- `wakeOneWaiter` pays the debt of a freed slot. -/
theorem Wakeup.wake_one (h : Wakeup m closed 1 s) : Wakeup m closed 0 s.wakeOneWaiter := by
  have hdisj := h.disjoint
  unfold Host.wakeOneWaiter
  split
  · rename_i hnil
    exact ⟨h.chans, h.nodup, h.fresh, h.created, fun _ hne => absurd hnil hne⟩
  · rename_i ch rest hcons
    rw [hcons] at hdisj
    have hnot : ch ∉ s.tokens := fun hmem =>
      (List.nodup_cons.mp hdisj).1 (List.mem_append_right _ hmem)
    rw [if_neg hnot]
    refine ⟨?_, h.nodup, h.fresh, h.created, ?_⟩
    · have hchans := h.chans
      rw [hcons] at hchans
      exact List.perm_middle.trans hchans
    · intro hclosed _
      have hold := h.wake hclosed (by rw [hcons]; exact List.cons_ne_nil _ _)
      show m - s.inUse ≤ s.calls.countP Phase.isWoken + ((ch :: s.tokens).length : Int) + (0 : Nat)
      rw [List.length_cons]
      omega

/-- The phases before and after are neither waiting nor woken, and the step
leaves the counters and the channels alone. -/
theorem Wakeup.keep (h : Wakeup m closed d s) (hi : s.calls[i]? = some ph)
    (hcalls : s'.calls = s.calls.set i ph') (hold : ph.chan? = none) (hnew : ph'.chan? = none)
    (hwas : ph.isWoken = false) (hinUse : s.inUse + d ≤ s'.inUse + d')
    (hwaiters : s'.waiters = s.waiters) (htokens : s'.tokens = s.tokens)
    (hnext : s'.nextChan = s.nextChan) (hcreated : s'.created = false → s.created = false) :
    Wakeup m closed d' s' := by
  refine h.replace hi hcalls (Or.inl hnew) ?_ hnext hcreated ?_
  · intro C hC
    rw [hwaiters, htokens, hnew]
    rw [hold] at hC
    exact hC
  · intro _ hne n hbal
    rw [hwaiters] at hne
    have hb := hbal hne
    rw [hwas] at hb
    rw [htokens]
    simp only [Bool.false_eq_true, if_false] at hb
    split <;> omega

/-- A call that finds the host at its cap queues a fresh channel. -/
theorem Wakeup.park (h : Wakeup m closed d s) (hi : s.calls[i]? = some ph)
    (hold : ph.chan? = none) (hfull : m ≤ s.inUse)
    (hcalls : s'.calls = s.calls.set i (.parked s.nextChan))
    (hwaiters : s'.waiters = s.waiters ++ [s.nextChan]) (htokens : s'.tokens = s.tokens)
    (hinUse : s'.inUse = s.inUse) (hnext : s'.nextChan = s.nextChan + 1)
    (hcreated : s'.created = true) : Wakeup m closed d s' := by
  have hslot := filterMap_slot Phase.chan? hi
  rw [hold, Option.toList_none, List.nil_append] at hslot
  have hset : s'.chans.Perm (s.nextChan :: s.chans) := by
    rw [Host.chans, hcalls]
    exact (filterMap_set_slot Phase.chan? hi (.parked s.nextChan)).trans (hslot.symm.cons _)
  refine ⟨?_, ?_, ?_, ?_, ?_⟩
  · rw [hwaiters, htokens, List.append_assoc]
    exact List.perm_middle.trans ((h.chans.cons _).trans hset.symm)
  · rw [hset.nodup_iff, List.nodup_cons]
    refine ⟨fun hmem => ?_, h.nodup⟩
    have hlt := h.fresh _ hmem
    omega
  · intro ch hch
    rw [hnext]
    rcases List.mem_cons.mp (hset.mem_iff.mp hch) with rfl | hch
    · omega
    · have hlt := h.fresh ch hch
      omega
  · intro hc
    rw [hcreated] at hc
    cases hc
  · intro _ _
    rw [hinUse]
    omega

/-- A call that takes a slot needs no token any more. -/
theorem Wakeup.occupy (h : Wakeup m closed d s) (hi : s.calls[i]? = some ph)
    (hold : ph.chan? = none) (hnew : ph'.chan? = none)
    (hcalls : s'.calls = s.calls.set i ph') (hwaiters : s'.waiters = s.waiters)
    (htokens : s'.tokens = s.tokens) (hinUse : s'.inUse = s.inUse + 1)
    (hnext : s'.nextChan = s.nextChan) (hcreated : s'.created = false → s.created = false) :
    Wakeup m closed d s' := by
  refine h.replace hi hcalls (Or.inl hnew) ?_ hnext hcreated ?_
  · intro C hC
    rw [hwaiters, htokens, hnew]
    rw [hold] at hC
    exact hC
  · intro _ hne n hbal
    rw [hwaiters] at hne
    have hb := hbal hne
    rw [htokens, hinUse]
    split at hb <;> split <;> omega

theorem Wakeup.enter (h : Wakeup cfg.maxPerHost closed 0 s) (hi : s.calls[i]? = some ph)
    (hchan : ph.chan? = none) (clock : Nat → Int) :
    Wakeup cfg.maxPerHost closed 0 (s.enter cfg closed clock i) := by
  unfold Host.enter
  split
  · rename_i hclosed
    refine h.replace hi rfl (Or.inl rfl) ?_ rfl id ?_
    · intro C hC
      rw [hchan] at hC
      exact hC
    · intro hopen
      rw [hclosed] at hopen
      cases hopen
  · split
    · rename_i dead c needsPing left heq
      have hnew : (if needsPing then Phase.pinging c else .holding c).chan? = none := by
        cases needsPing <;> rfl
      exact h.occupy hi hchan hnew rfl rfl rfl rfl rfl (fun hc => by cases hc)
    · split
      · exact h.occupy hi hchan rfl rfl rfl rfl rfl rfl (fun hc => by cases hc)
      · rename_i hfull
        exact h.park hi hchan (not_lt.mp hfull) rfl rfl rfl rfl rfl rfl

theorem perm_cons_append_erase {ch : Nat} (w : List Nat) {t : List Nat} (h : ch ∈ t) :
    (ch :: (w ++ t.erase ch)).Perm (w ++ t) :=
  List.perm_middle.symm.trans ((List.perm_cons_erase h).symm.append_left w)

/-- The waiter receives the token of its channel. -/
theorem Wakeup.take {ch : Nat} (h : Wakeup m closed d s) (hi : s.calls[i]? = some (.parked ch))
    (hmem : ch ∈ s.tokens) :
    Wakeup m closed d (Host.setCall { s with tokens := s.tokens.erase ch } i .woken) := by
  have hlen := List.length_erase_of_mem hmem
  have hpos := List.length_pos_of_mem hmem
  refine h.replace hi rfl (Or.inl rfl) ?_ rfl id ?_
  · intro C hC
    exact ((perm_cons_append_erase s.waiters hmem).trans hC).cons_inv
  · intro _ hne n hbal
    have hb := hbal hne
    show m - s.inUse ≤ n + 1 + ((s.tokens.erase ch).length : Int) + d
    simp only [Phase.isWoken, Bool.false_eq_true, if_false] at hb
    omega

/-- A cancelled waiter leaves the queue, or hands its token on. -/
theorem Wakeup.evict {ch : Nat} (h : Wakeup m closed 0 s)
    (hi : s.calls[i]? = some (.cancelling ch)) :
    Wakeup m closed 0 ((s.setCall i .done).evict ch) := by
  have hin : ch ∈ s.waiters ++ s.tokens :=
    h.chans.mem_iff.mpr (List.mem_filterMap.mpr ⟨_, List.mem_of_getElem? hi, rfl⟩)
  unfold Host.evict
  split
  · split
    · rename_i hmem
      have hmem' : ch ∈ s.waiters := hmem
      refine h.replace hi rfl (Or.inl rfl) ?_ rfl id ?_
      · intro C hC
        have hfront : (ch :: (s.waiters.erase ch ++ s.tokens)).Perm (s.waiters ++ s.tokens) :=
          (List.perm_cons_erase hmem').symm.append_right s.tokens
        exact (hfront.trans hC).cons_inv
      · intro _ _ n hbal
        exact hbal (List.ne_nil_of_mem hmem')
    · rename_i hnot
      have hmem : ch ∈ s.tokens := (List.mem_append.mp hin).resolve_left hnot
      have hlen := List.length_erase_of_mem hmem
      have hpos := List.length_pos_of_mem hmem
      apply Wakeup.wake_one
      refine h.replace hi rfl (Or.inl rfl) ?_ rfl id ?_
      · intro C hC
        exact ((perm_cons_append_erase s.waiters hmem).trans hC).cons_inv
      · intro _ hne n hbal
        have hb := hbal hne
        show m - s.inUse ≤ n + 0 + ((s.tokens.erase ch).length : Int) + 1
        simp only [Phase.isWoken, Bool.false_eq_true, if_false] at hb
        omega
  · -- A waiting call keeps the host in the map.
    rename_i hcr
    have hnil := h.created (by simpa [Host.setCall] using hcr)
    have hmem := h.chans.mem_iff.mp hin
    rw [hnil] at hmem
    exact absurd hmem List.not_mem_nil

theorem Wakeup.freeSlot (h : Wakeup m closed 0 s) (hi : s.calls[i]? = some ph)
    (hold : ph.chan? = none) (hnew : ph'.chan? = none) (hwas : ph.isWoken = false) :
    Wakeup m closed 0 (s.setCall i ph').freeSlot := by
  apply Wakeup.wake_one
  refine h.keep hi rfl hold hnew hwas ?_ rfl rfl rfl id
  show s.inUse + 0 ≤ s.inUse - 1 + 1
  omega

theorem Wakeup.release {c : Nat} (h : Wakeup m closed 0 s) (hcap : Capacity m closed s)
    (hi : s.calls[i]? = some (.holding c)) (now : Int) (broken : Bool) :
    Wakeup m closed 0 ((s.setCall i .done).release closed now c broken) := by
  unfold Host.release
  split
  · apply Wakeup.wake_one
    have huse : s.inUse + 0 ≤ s.inUse - 1 + 1 := by omega
    split
    · exact h.keep hi rfl rfl rfl rfl huse rfl rfl rfl id
    · exact h.keep hi rfl rfl rfl rfl huse rfl rfl rfl id
  · rename_i hcr
    exact absurd (hcap.created_of_occupies hi rfl) hcr

theorem Wakeup.callStep (h : Wakeup cfg.maxPerHost closed 0 s)
    (hcap : Capacity cfg.maxPerHost closed s) (hi : s.calls[i]? = some ph) (st : CallStep) :
    Wakeup cfg.maxPerHost closed 0 (s.callStep cfg closed i ph st) := by
  cases st with
  | enter clock => cases ph <;> first | exact h.enter hi rfl clock | exact h
  | noop ok =>
    cases ph with
    | pinging c => cases ok <;> exact h.keep hi rfl rfl rfl rfl le_rfl rfl rfl rfl id
    | _ => exact h
  | dial ok =>
    cases ph with
    | dialing => cases ok <;> exact h.keep hi rfl rfl rfl rfl le_rfl rfl rfl rfl id
    | _ => exact h
  | login ok =>
    cases ph with
    | loggingIn c => cases ok <;> exact h.keep hi rfl rfl rfl rfl le_rfl rfl rfl rfl id
    | _ => exact h
  | unwind => cases ph <;> first | exact h.freeSlot hi rfl rfl rfl | exact h
  | take =>
    cases ph with
    | parked ch =>
      show Wakeup _ _ _ (if ch ∈ s.tokens then _ else s)
      split
      · rename_i hmem
        exact h.take hi hmem
      · exact h
    | _ => exact h
  | cancel =>
    cases ph with
    | parked ch =>
      exact h.replace hi rfl (Or.inr rfl) (fun C hC => hC) rfl id (fun _ hne n hbal => hbal hne)
    | _ => exact h
  | evict => cases ph <;> first | exact h.evict hi | exact h
  | release broken now => cases ph <;> first | exact h.release hcap hi now broken | exact h

theorem Wakeup.step (h : Wakeup cfg.maxPerHost closed 0 s)
    (hcap : Capacity cfg.maxPerHost closed s) (a : HostAction) :
    Wakeup cfg.maxPerHost closed 0 (s.step cfg closed a) := by
  cases a with
  | acquire =>
    have hchans : (s.step cfg closed .acquire).chans = s.chans := by
      show (s.calls ++ [Phase.entering]).filterMap Phase.chan? = _
      rw [List.filterMap_append]
      exact List.append_nil _
    refine ⟨hchans ▸ h.chans, hchans ▸ h.nodup, hchans ▸ h.fresh, hchans ▸ h.created, ?_⟩
    intro hclosed hne
    have hold := h.wake hclosed hne
    show cfg.maxPerHost - s.inUse ≤
      ((s.calls ++ [Phase.entering]).countP Phase.isWoken : Int) + _ + _
    rw [List.countP_append]
    exact hold
  | call i st =>
    cases hi : s.calls[i]? with
    | none =>
      rw [Host.step_call_none hi]
      exact h
    | some ph =>
      rw [Host.step_call hi]
      exact h.callStep hcap hi st

theorem Wakeup.close (h : Wakeup m closed d s) : Wakeup m true d s.close where
  chans := h.chans
  nodup := h.nodup
  fresh := h.fresh
  created := h.created
  wake := by
    intro hopen
    cases hopen

end Host

/-! ## The pool -/

/-- The call has been popped from the queue and signalled, and has neither
come back to the mutex nor handed its token on. -/
def Host.onTheWay (s : Host) : Phase → Bool
  | .woken => true
  | .parked ch | .cancelling ch => decide (ch ∉ s.waiters ∧ ch ∈ s.tokens)
  | _ => false

/-- The calls on the way are the woken ones and those with a token. -/
theorem countP_onTheWay (s : Host) (l : List Phase) :
    l.countP s.onTheWay = l.countP Phase.isWoken +
      (l.filterMap Phase.chan?).countP fun ch => decide (ch ∉ s.waiters ∧ ch ∈ s.tokens) := by
  induction l with
  | nil => rfl
  | cons ph l ih =>
    rw [filterMap_cons_toList, List.countP_append, List.countP_cons, List.countP_cons, ih]
    cases ph <;> simp [Host.onTheWay, Phase.isWoken, Phase.chan?] <;> omega

theorem Wakeup.countP_onTheWay {m : Int} {closed : Bool} {d : Nat} {s : Host}
    (h : Wakeup m closed d s) :
    s.calls.countP s.onTheWay = s.calls.countP Phase.isWoken + s.tokens.length := by
  have hdisj := List.nodup_append.mp h.disjoint
  rw [Ftp.countP_onTheWay, ← Host.chans, ← h.chans.countP_eq, List.countP_append]
  have hqueued : s.waiters.countP (fun ch => decide (ch ∉ s.waiters ∧ ch ∈ s.tokens)) = 0 := by
    rw [List.countP_eq_zero]
    intro ch hch
    simp [hch]
  have hpopped : s.tokens.countP (fun ch => decide (ch ∉ s.waiters ∧ ch ∈ s.tokens)) =
      s.tokens.length := by
    rw [List.countP_eq_length]
    intro ch hch
    simp only [decide_eq_true_eq]
    exact ⟨fun hw => hdisj.2.2 ch hw ch hch rfl, hch⟩
  omega

/-- Every host keeps its balance of free slots and wakeups. -/
def PoolWakeup (cfg : PoolConfig) (p : Pool) : Prop :=
  PoolCapacity cfg p ∧ ∀ host, Wakeup cfg.maxPerHost p.closed 0 (p.hosts host)

theorem PoolWakeup.step {cfg : PoolConfig} {p : Pool} (h : PoolWakeup cfg p) (a : Action) :
    PoolWakeup cfg (Ftp.step cfg p a) := by
  refine ⟨h.1.step a, ?_⟩
  intro host
  rcases step_host cfg p a host with ⟨b, _, hc, hs⟩ | ⟨_, hc, hs⟩ | ⟨hc, hs⟩
  · rw [hc, hs]
    exact (h.2 host).step (h.1 host) b
  · rw [hc, hs]
    exact (h.2 host).close
  · rw [hc, hs]
    exact h.2 host

theorem reach_wakeup (cfg : PoolConfig) (as : List Action) :
    PoolWakeup (newPool cfg) (reach cfg as) :=
  foldl_invariant (PoolWakeup (newPool cfg)) (fun _ a h => h.step a)
    ⟨fun _ => capacity_init (newPool_maxPerHost_pos cfg).le, fun _ => wakeup_init⟩ as

/-- While a call is queued at a host of an open pool, the free capacity is at
most the number of calls on the way to use it. -/
theorem no_lost_wakeup (cfg : PoolConfig) (as : List Action) (host : String)
    (hopen : (reach cfg as).closed = false)
    (hparked : ((reach cfg as).hosts host).waiters ≠ []) :
    (newPool cfg).maxPerHost - ((reach cfg as).hosts host).inUse ≤
      ((reach cfg as).hosts host).calls.countP ((reach cfg as).hosts host).onTheWay := by
  have hwake := (reach_wakeup cfg as).2 host
  have hbal := hwake.wake hopen hparked
  rw [hwake.countP_onTheWay]
  push_cast
  omega

/-- With a cap of one, two calls queue behind the first, which gives its connection
back. -/
def handOver : List Action :=
  [.acquire, .call 0 (.enter fun _ => 0), .call 0 (.dial true), .call 0 (.login true), .acquire,
    .call 1 (.enter fun _ => 0), .acquire, .call 2 (.enter fun _ => 0),
    .call 0 (.release false 0)].map (.onHost "h")

/-- The slot is free and one call is still queued.  The other one has its token. -/
theorem no_lost_wakeup_hand_over :
    ((reach ⟨1, 0, 0⟩ handOver).hosts "h").inUse = 0 ∧
    ((reach ⟨1, 0, 0⟩ handOver).hosts "h").waiters = [1] ∧
    ((reach ⟨1, 0, 0⟩ handOver).hosts "h").tokens = [0] ∧
    (newPool ⟨1, 0, 0⟩).maxPerHost - ((reach ⟨1, 0, 0⟩ handOver).hosts "h").inUse ≤
      ((reach ⟨1, 0, 0⟩ handOver).hosts "h").calls.countP
        ((reach ⟨1, 0, 0⟩ handOver).hosts "h").onTheWay :=
  ⟨by decide, by decide, by decide, no_lost_wakeup _ _ _ rfl (by decide)⟩

end ImgSync.Ftp
