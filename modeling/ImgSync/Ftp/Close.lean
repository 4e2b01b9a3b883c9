import ImgSync.Ftp.Wakeup

/-!
# Waiters of a closed pool

`Pool.Close` (`internal/transports/ftp/pool.go`) wakes nobody.  After it, a
queued call leaves the queue only when a slot is freed, or when its context
ends.  A woken call sees the flag and returns `ErrPoolClosed`; it does not wake
the next one.

So every slot that was in use at the `Close` lets one waiter go, and the rest
stay.  `closed_callStep` is what a step does to the two numbers, and both
directions follow from it: with no more waiters than slots in use nobody is left
behind, and otherwise the difference stays in the queue.
-/

namespace ImgSync.Ftp

open ImgSync.Lib

/-- The errors that end a call of `Acquire`. -/
inductive AcquireErr where
  /-- `ErrPoolClosed`. -/
  | poolClosed
  /-- `ctx.Err()`. -/
  | ctxErr
  /-- The error of the dial or the login. -/
  | dialErr
  deriving DecidableEq, Repr

/-- The error that `Acquire` returns in a step. -/
def acquireErr (closed : Bool) : Phase → CallStep → Option AcquireErr
  | .entering, .enter _ | .woken, .enter _ => if closed then some .poolClosed else none
  | .cancelling _, .evict => some .ctxErr
  | .dialFailed, .unwind => some .dialErr
  | _, _ => none

/-- The call is in the `select`, or on its way from there. -/
def Phase.waiting : Phase → Bool
  | .parked _ | .woken | .cancelling _ => true
  | _ => false

def CallStep.isEvict : CallStep → Bool
  | .evict => true
  | _ => false

/-- The steps of one call, with no other goroutine between them. -/
def Host.runCall (cfg : PoolConfig) (closed : Bool) (i : Nat) (s : Host) (sts : List CallStep) :
    Host :=
  sts.foldl (fun s st => s.step cfg closed (.call i st)) s

/-- The errors that a call returns on the way. -/
def Host.answers (cfg : PoolConfig) (closed : Bool) (i : Nat) :
    Host → List CallStep → List AcquireErr
  | _, [] => []
  | s, st :: sts =>
    ((s.calls[i]?).bind fun ph => acquireErr closed ph st).toList ++
      Host.answers cfg closed i (s.step cfg closed (.call i st)) sts

/-- Nobody is parked for good: the queue is empty, a parked call has its token,
and every waiting call can go on by itself to its error. -/
structure Host.NobodyStranded (cfg : PoolConfig) (s : Host) : Prop where
  queue : s.waiters = []
  token : ∀ (i ch : Nat), s.calls[i]? = some (.parked ch) → ch ∈ s.tokens
  returns : ∀ i ph, s.calls[i]? = some ph → ph.waiting = true →
    ∃ sts, s.answers cfg true i sts = [.poolClosed] ∨ s.answers cfg true i sts = [.ctxErr]

section Host

variable {cfg : PoolConfig} {m : Int} {s : Host} {i : Nat} {ph : Phase}

theorem wakeOneWaiter_waiters (s : Host) : s.wakeOneWaiter.waiters = s.waiters.tail := by
  unfold Host.wakeOneWaiter
  split
  · rename_i hnil
    rw [hnil]
    rfl
  · rename_i ch rest hcons
    rw [hcons]
    rfl

theorem wakeOneWaiter_inUse (s : Host) : s.wakeOneWaiter.inUse = s.inUse := by
  unfold Host.wakeOneWaiter
  split <;> rfl

/-- A slot is given back, and the first waiter is woken. -/
structure Freed (s s' : Host) : Prop where
  waiters : s'.waiters = s.waiters.tail
  inUse : s'.inUse = s.inUse - 1

theorem freed_freeSlot (s : Host) : Freed s s.freeSlot :=
  ⟨wakeOneWaiter_waiters _, wakeOneWaiter_inUse _⟩

theorem freed_release (hcr : s.created = true) (now : Int) (c : Nat) (broken : Bool) :
    Freed s (s.release true now c broken) := by
  unfold Host.release
  rw [if_pos hcr, Bool.or_true, if_pos rfl]
  exact ⟨wakeOneWaiter_waiters _, wakeOneWaiter_inUse _⟩

theorem evict_waiters_le (s : Host) (ch : Nat) :
    (s.evict ch).waiters.length ≤ s.waiters.length ∧ (s.evict ch).inUse = s.inUse := by
  unfold Host.evict
  split
  · split
    · exact ⟨List.length_erase_le, rfl⟩
    · rw [wakeOneWaiter_waiters, wakeOneWaiter_inUse, List.length_tail]
      exact ⟨Nat.sub_le _ _, rfl⟩
  · exact ⟨le_rfl, rfl⟩

theorem freed_unwind (hi : s.calls[i]? = some ph) (hph : ph = .noopFailed ∨ ph = .dialFailed) :
    Freed s (s.step cfg true (.call i .unwind)) := by
  rw [Host.step_call hi]
  rcases hph with rfl | rfl
  · exact ⟨(freed_freeSlot (s.setCall i .entering)).waiters,
      (freed_freeSlot (s.setCall i .entering)).inUse⟩
  · exact ⟨(freed_freeSlot (s.setCall i .done)).waiters,
      (freed_freeSlot (s.setCall i .done)).inUse⟩

theorem freed_holding {c : Nat} (hcr : s.created = true) (hi : s.calls[i]? = some (.holding c))
    (broken : Bool) (now : Int) : Freed s (s.step cfg true (.call i (.release broken now))) := by
  rw [Host.step_call hi]
  have hcr' : (s.setCall i .done).created = true := hcr
  have hfreed := freed_release hcr' now c broken
  exact ⟨hfreed.waiters, hfreed.inUse⟩

/-- A step of a call of a closed pool.  Nobody joins the queue. -/
theorem closed_callStep (hcap : Capacity m true s) (hi : s.calls[i]? = some ph) (st : CallStep)
    (hst : st.isEvict = false) :
    (s.step cfg true (.call i st)).waiters = s.waiters ∧
      (s.step cfg true (.call i st)).inUse = s.inUse ∨
    Freed s (s.step cfg true (.call i st)) := by
  have hsame : s.waiters = s.waiters ∧ s.inUse = s.inUse := ⟨rfl, rfl⟩
  cases st with
  | enter clock | cancel =>
    left
    rw [Host.step_call hi]
    cases ph <;> exact hsame
  | noop ok | dial ok | login ok =>
    left
    rw [Host.step_call hi]
    cases ph <;> first | exact hsame | (cases ok <;> exact hsame)
  | unwind =>
    cases ph with
    | noopFailed => exact Or.inr (freed_unwind hi (Or.inl rfl))
    | dialFailed => exact Or.inr (freed_unwind hi (Or.inr rfl))
    | _ =>
      rw [Host.step_call hi]
      exact Or.inl hsame
  | take =>
    left
    rw [Host.step_call hi]
    cases ph with
    | parked ch =>
      show Host.waiters (if ch ∈ s.tokens then _ else s) = _ ∧
        Host.inUse (if ch ∈ s.tokens then _ else s) = _
      split <;> exact hsame
    | _ => exact hsame
  | evict => cases hst
  | release broken now =>
    cases ph with
    | holding c => exact Or.inr (freed_holding (hcap.created_of_occupies hi rfl) hi broken now)
    | _ =>
      rw [Host.step_call hi]
      exact Or.inl hsame

/-- A cancelled waiter takes nobody else's place. -/
theorem evict_callStep (cfg : PoolConfig) (closed : Bool) (s : Host) (i : Nat) (ph : Phase) :
    (s.callStep cfg closed i ph .evict).waiters.length ≤ s.waiters.length ∧
      (s.callStep cfg closed i ph .evict).inUse = s.inUse := by
  cases ph with
  | cancelling ch => exact evict_waiters_le (s.setCall i .done) ch
  | _ => exact ⟨le_rfl, rfl⟩

/-- A waiting call of a closed pool goes on waiting, or returns `ErrPoolClosed`
or the error of its context. -/
theorem waiting_callStep (hi : s.calls[i]? = some ph) (hwait : ph.waiting = true) (st : CallStep) :
    (∃ ph', (s.callStep cfg true i ph st).calls[i]? = some ph' ∧ ph'.waiting = true) ∨
      (s.callStep cfg true i ph st).calls[i]? = some .done ∧
        (acquireErr true ph st = some .poolClosed ∨ acquireErr true ph st = some .ctxErr) := by
  obtain ⟨hlt, -⟩ := List.getElem?_eq_some_iff.mp hi
  have hset : ∀ ph' : Phase, (s.calls.set i ph')[i]? = some ph' :=
    fun ph' => List.getElem?_set_self hlt
  have hstay : ∃ ph', s.calls[i]? = some ph' ∧ ph'.waiting = true := ⟨ph, hi, hwait⟩
  cases ph with
  | woken =>
    cases st with
    | enter clock => exact Or.inr ⟨hset .done, Or.inl rfl⟩
    | _ => exact Or.inl hstay
  | parked ch =>
    cases st with
    | take =>
      left
      show ∃ ph', (if ch ∈ s.tokens then _ else s : Host).calls[i]? = some ph' ∧ _
      split
      · exact ⟨.woken, hset .woken, rfl⟩
      · exact hstay
    | cancel => exact Or.inl ⟨.cancelling ch, hset _, rfl⟩
    | _ => exact Or.inl hstay
  | cancelling ch =>
    cases st with
    | evict =>
      refine Or.inr ⟨?_, Or.inr rfl⟩
      show ((s.setCall i .done).evict ch).calls[i]? = _
      rw [evict_calls]
      exact hset .done
    | _ => exact Or.inl hstay
  | _ => cases hwait

/-- The steps that free the slot of a call.  The server answers where that is
the short way out. -/
def Phase.vacate : Phase → List CallStep
  | .pinging _ => [.noop true, .release true 0]
  | .noopFailed | .dialFailed => [.unwind]
  | .dialing => [.dial false, .unwind]
  | .loggingIn _ => [.login true, .release true 0]
  | .holding _ => [.release true 0]
  | _ => []

theorem freed_vacate (hcap : Capacity m true s) (hi : s.calls[i]? = some ph)
    (hocc : ph.occupies = true) : Freed s (s.runCall cfg true i ph.vacate) := by
  obtain ⟨hlt, -⟩ := List.getElem?_eq_some_iff.mp hi
  have hset : ∀ ph' : Phase, (s.setCall i ph').calls[i]? = some ph' :=
    fun ph' => List.getElem?_set_self hlt
  have hcr := hcap.created_of_occupies hi hocc
  -- The second step of a call finds the phase that the first one wrote.
  have hrel : ∀ c,
      Freed s ((s.setCall i (.holding c)).step cfg true (.call i (.release true 0))) := by
    intro c
    have hcr' : (s.setCall i (.holding c)).created = true := hcr
    have hfreed : Freed _ (Host.step cfg _ _ _) := freed_holding hcr' (hset _) true 0
    exact ⟨hfreed.waiters, hfreed.inUse⟩
  have hunw : Freed s ((s.setCall i .dialFailed).step cfg true (.call i .unwind)) := by
    have hfreed : Freed _ (Host.step cfg _ _ _) := freed_unwind (hset .dialFailed) (Or.inr rfl)
    exact ⟨hfreed.waiters, hfreed.inUse⟩
  cases ph with
  | pinging c =>
    show Freed s
      ((s.step cfg true (.call i (.noop true))).step cfg true (.call i (.release true 0)))
    rw [Host.step_call hi]
    exact hrel c
  | loggingIn c =>
    show Freed s
      ((s.step cfg true (.call i (.login true))).step cfg true (.call i (.release true 0)))
    rw [Host.step_call hi]
    exact hrel c
  | dialing =>
    show Freed s ((s.step cfg true (.call i (.dial false))).step cfg true (.call i .unwind))
    rw [Host.step_call hi]
    exact hunw
  | noopFailed => exact freed_unwind hi (Or.inl rfl)
  | dialFailed => exact freed_unwind hi (Or.inr rfl)
  | holding c => exact freed_holding hcr hi true 0
  | _ => cases hocc

theorem Capacity.inUse_nonneg {closed : Bool} (h : Capacity m closed s) : 0 ≤ s.inUse := by
  rw [h.inUse]
  exact Int.natCast_nonneg _

/-- While the queue is no longer than the slots in use, it stays so. -/
theorem room_step (hcap : Capacity cfg.maxPerHost true s)
    (hroom : (s.waiters.length : Int) ≤ s.inUse) (a : HostAction) :
    ((s.step cfg true a).waiters.length : Int) ≤ (s.step cfg true a).inUse := by
  have hnonneg := (hcap.step a).inUse_nonneg
  cases a with
  | acquire => exact hroom
  | call i st =>
    cases hi : s.calls[i]? with
    | none =>
      rw [Host.step_call_none hi]
      exact hroom
    | some ph =>
      by_cases hst : st = .evict
      · subst hst
        rw [Host.step_call hi]
        obtain ⟨hlen, hinUse⟩ := evict_callStep cfg true s i ph
        omega
      · have hev : st.isEvict = false := by
          cases st <;> first | rfl | exact absurd rfl hst
        rcases closed_callStep hcap hi st hev with ⟨hwaiters, hinUse⟩ | hfreed
        · rw [hwaiters, hinUse]
          exact hroom
        · have hinUse := hfreed.inUse
          rw [hfreed.waiters, List.length_tail]
          omega

/-- With an empty queue every parked call has its token. -/
theorem Wakeup.nobodyStranded {closed : Bool} {d : Nat} (h : Wakeup m closed d s)
    (hqueue : s.waiters = []) : s.NobodyStranded cfg := by
  have htoken : ∀ (i ch : Nat), s.calls[i]? = some (.parked ch) → ch ∈ s.tokens := by
    intro i ch hi
    have hin : ch ∈ s.waiters ++ s.tokens :=
      h.chans.mem_iff.mpr (List.mem_filterMap.mpr ⟨_, List.mem_of_getElem? hi, rfl⟩)
    rwa [hqueue] at hin
  refine ⟨hqueue, htoken, ?_⟩
  intro i ph hi hwait
  obtain ⟨hlt, -⟩ := List.getElem?_eq_some_iff.mp hi
  cases ph with
  | woken =>
    refine ⟨[.enter fun _ => 0], Or.inl ?_⟩
    simp only [Host.answers, hi]
    rfl
  | parked ch =>
    refine ⟨[.take, .enter fun _ => 0], Or.inl ?_⟩
    have htake : (s.step cfg true (.call i .take)).calls[i]? = some .woken := by
      rw [Host.step_call hi]
      show (if ch ∈ s.tokens then _ else s : Host).calls[i]? = _
      rw [if_pos (htoken i ch hi)]
      exact List.getElem?_set_self hlt
    simp only [Host.answers, hi, htake]
    rfl
  | cancelling ch =>
    refine ⟨[.evict], Or.inr ?_⟩
    simp only [Host.answers, hi]
    rfl
  | _ => cases hwait

end Host

/-! ## The pool -/

section Pool

variable {cfg : PoolConfig} {p : Pool} {host : String}

/-- The pool is closed, and the host has a slot in use for each queued call. -/
structure Room (cfg : PoolConfig) (host : String) (p : Pool) : Prop where
  closed : p.closed = true
  capacity : PoolCapacity cfg p
  room : ((p.hosts host).waiters.length : Int) ≤ (p.hosts host).inUse

theorem Room.step (h : Room cfg host p) (a : Action) : Room cfg host (Ftp.step cfg p a) := by
  refine ⟨step_closed a h.closed, h.capacity.step a, ?_⟩
  have hcap := h.capacity host
  rw [h.closed] at hcap
  rcases step_host cfg p a host with ⟨b, -, -, hs⟩ | ⟨-, -, hs⟩ | ⟨-, hs⟩
  · rw [hs, h.closed]
    exact room_step hcap h.room b
  · rw [hs]
    exact h.room
  · rw [hs]
    exact h.room

theorem foldl_runCall (cfg : PoolConfig) (p : Pool) (host : String) (i : Nat)
    (sts : List CallStep) :
    ((sts.map fun st => Action.onHost host (.call i st)).foldl (step cfg) p).closed = p.closed ∧
    ((sts.map fun st => Action.onHost host (.call i st)).foldl (step cfg) p).hosts host =
      (p.hosts host).runCall cfg p.closed i sts := by
  induction sts generalizing p with
  | nil => exact ⟨rfl, rfl⟩
  | cons st sts ih =>
    obtain ⟨hclosed, hhost⟩ := ih (step cfg p (.onHost host (.call i st)))
    refine ⟨hclosed, hhost.trans ?_⟩
    show (Function.update p.hosts host _ host).runCall cfg p.closed i sts = _
    rw [Function.update_self]
    rfl

/-- The slots of a closed pool can all be given back, and each of them lets one
waiter go. -/
theorem exists_drained (n : Nat) (hclosed : p.closed = true) (hcap : PoolCapacity cfg p)
    (hn : (p.hosts host).inUse = n) :
    ∃ bs : List Action, ((bs.foldl (step cfg) p).hosts host).inUse = 0 ∧
      ((bs.foldl (step cfg) p).hosts host).waiters.length =
        (p.hosts host).waiters.length - n := by
  induction n generalizing p with
  | zero => exact ⟨[], hn, rfl⟩
  | succ n ih =>
    have hhost := hcap host
    rw [hclosed] at hhost
    have hpos : 0 < (p.hosts host).calls.countP Phase.occupies := by
      have hinUse := hhost.inUse
      omega
    obtain ⟨ph, hmem, hocc⟩ := List.countP_pos_iff.mp hpos
    obtain ⟨i, hi⟩ := List.mem_iff_getElem?.mp hmem
    obtain ⟨hclosed', hrun⟩ := foldl_runCall cfg p host i ph.vacate
    have hfreed : Freed _ (Host.runCall cfg true i _ _) := freed_vacate hhost hi hocc
    rw [← hclosed, ← hrun] at hfreed
    have hinUse := hfreed.inUse
    have hcap' := foldl_invariant (PoolCapacity cfg) (fun _ a h => h.step a) hcap
      (ph.vacate.map fun st => Action.onHost host (.call i st))
    obtain ⟨bs, hzero, hlen⟩ := ih (hclosed'.trans hclosed) hcap' (by omega)
    refine ⟨(ph.vacate.map fun st => Action.onHost host (.call i st)) ++ bs, ?_, ?_⟩
    · rw [List.foldl_append]
      exact hzero
    · rw [List.foldl_append, hlen, hfreed.waiters, List.length_tail]
      omega

end Pool

/-- `Close` leaves nobody behind, whatever happens after it, just when there are
no more waiters than slots in use.  A waiter that ends returns `ErrPoolClosed`,
or the error of its context. -/
theorem close_strands_nobody (cfg : PoolConfig) (as : List Action) (host : String) :
    ((((reach cfg as).hosts host).waiters.length : Int) ≤ ((reach cfg as).hosts host).inUse ↔
      ∀ bs, ((reach cfg (as ++ .close :: bs)).hosts host).inUse = 0 →
        ((reach cfg (as ++ .close :: bs)).hosts host).NobodyStranded (newPool cfg)) ∧
    ∀ (bs : List Action) (i : Nat) (ph : Phase) (st : CallStep),
      ((reach cfg (as ++ .close :: bs)).hosts host).calls[i]? = some ph → ph.waiting = true →
      (∃ ph', ((reach cfg (as ++ .close :: bs ++ [.onHost host (.call i st)])).hosts
        host).calls[i]? = some ph' ∧ ph'.waiting = true) ∨
      ((reach cfg (as ++ .close :: bs ++ [.onHost host (.call i st)])).hosts host).calls[i]? =
          some .done ∧
        (acquireErr true ph st = some .poolClosed ∨ acquireErr true ph st = some .ctxErr) := by
  have hsplit : ∀ bs, reach cfg (as ++ .close :: bs) =
      bs.foldl (step (newPool cfg)) (step (newPool cfg) (reach cfg as) .close) := by
    intro bs
    rw [reach, List.foldl_append, List.foldl_cons, reach]
  have hcap := (reach_capacity cfg as).step .close
  refine ⟨⟨fun hroom bs hdrained => ?_, fun hall => ?_⟩, ?_⟩
  · have hkept : Room (newPool cfg) host (reach cfg (as ++ .close :: bs)) := by
      rw [hsplit]
      exact foldl_invariant (Room (newPool cfg) host) (fun _ a h => h.step a)
        ⟨rfl, hcap, hroom⟩ bs
    have hle := hkept.room
    rw [hdrained] at hle
    have hnil := List.eq_nil_of_length_eq_zero (Nat.le_zero.mp (Int.ofNat_le.mp hle))
    exact ((reach_wakeup cfg _).2 host).nobodyStranded hnil
  · obtain ⟨n, hn⟩ := Int.eq_ofNat_of_zero_le ((reach_capacity cfg as) host).inUse_nonneg
    obtain ⟨bs, hzero, hlen⟩ := exists_drained n rfl hcap hn
    rw [← hsplit] at hzero hlen
    have hnil := (hall bs hzero).queue
    rw [hnil] at hlen
    have hlen' : 0 = ((reach cfg as).hosts host).waiters.length - n := hlen
    omega
  · intro bs i ph st hi hwait
    have hclosed : (reach cfg (as ++ .close :: bs)).closed = true := by
      rw [hsplit]
      exact foldl_invariant (fun p : Pool => p.closed = true) (fun _ a h => step_closed a h) rfl bs
    have hnext : (reach cfg (as ++ .close :: bs ++ [.onHost host (.call i st)])).hosts host =
        ((reach cfg (as ++ .close :: bs)).hosts host).callStep (newPool cfg) true i ph st := by
      rw [reach, List.foldl_append, ← reach]
      show Function.update _ host _ host = _
      rw [Function.update_self, hclosed, Host.step_call hi]
    rw [hnext]
    exact waiting_callStep hi hwait st

/-- A host with one slot.  The first call holds the connection, two more wait
for it, the pool is closed and the connection comes back.  The second call
returns `ErrPoolClosed`, and nothing ever wakes the third. -/
theorem close_strands_third :
    let acquire (i : Nat) : List Action :=
      [.onHost "h" .acquire, .onHost "h" (.call i (.enter fun _ => 0))]
    let open_ : List Action :=
      [.onHost "h" (.call 0 (.dial true)), .onHost "h" (.call 0 (.login true))]
    let after : List Action :=
      [.onHost "h" (.call 0 (.release false 0)), .onHost "h" (.call 1 .take),
        .onHost "h" (.call 1 (.enter fun _ => 0))]
    let p := reach ⟨1, 0, 0⟩ (acquire 0 ++ open_ ++ acquire 1 ++ acquire 2 ++ .close :: after)
    p.closed = true ∧ (p.hosts "h").inUse = 0 ∧
      (p.hosts "h").calls = [.done, .done, .parked 1] ∧
      (p.hosts "h").waiters = [1] ∧ (p.hosts "h").tokens = [] := by
  decide

end ImgSync.Ftp
