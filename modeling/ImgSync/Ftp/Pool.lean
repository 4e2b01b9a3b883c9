import ImgSync.Lib.Run
import ImgSync.Lib.Slots
import ImgSync.Queue.Maintenance

/-!
# The FTP connection pool

`internal/transports/ftp/pool.go`.  The pool keeps one `hostPool` for each
host, and the hosts share nothing but the mutex and the `closed` flag.
`Host` is a `hostPool` together with the rest of the world for that host: the
calls of `Acquire` and the handles that they returned, the connections that
are open to the host, and the buffers of the wake channels.

A stretch of code under `p.mu` is one step, because no other goroutine sees
the fields in between.  What a call does without the mutex (the NOOP, the
dial, the login, the `select` on its channel) are steps of their own, so that
every interleaving of any number of goroutines is a list of actions.

Connections and channels are numbered in the order of their creation.
Instants are the readings of the monotonic clock, in nanoseconds.
-/

namespace ImgSync.Ftp

open ImgSync.Lib ImgSync.Queue

/-- `PoolConfig`, without the credentials and the dial timeout, which only
the FTP library reads. -/
structure PoolConfig where
  maxPerHost : Int
  idleTTL : Duration
  noopAfter : Duration

/-- The defaults of `NewPool`. -/
def newPool (cfg : PoolConfig) : PoolConfig where
  maxPerHost := if cfg.maxPerHost ≤ 0 then 4 else cfg.maxPerHost
  idleTTL := if cfg.idleTTL ≤ 0 then 300000000000 else cfg.idleTTL
  noopAfter := if cfg.noopAfter ≤ 0 then 60000000000 else cfg.noopAfter

/-- `idleEntry`. -/
structure IdleEntry where
  c : Nat
  enqueue : Int
  lastUse : Int

/-- Where a call of `Acquire` is, and afterwards its handle. -/
inductive Phase where
  /-- About to take the mutex at the top of the loop. -/
  | entering
  /-- Has received a token on its channel and loops back. -/
  | woken
  /-- Took an idle connection that needs a NOOP. -/
  | pinging (c : Nat)
  /-- The NOOP failed and the connection is closed. -/
  | noopFailed
  /-- Reserved a slot and dials. -/
  | dialing
  | loggingIn (c : Nat)
  /-- The dial or the login failed. -/
  | dialFailed
  /-- Waits in the `select` on its channel. -/
  | parked (ch : Nat)
  /-- The `select` chose `ctx.Done()`. -/
  | cancelling (ch : Nat)
  /-- `Acquire` returned the connection and it is not released yet. -/
  | holding (c : Nat)
  /-- `Acquire` returned an error, or the handle is released. -/
  | done
  deriving DecidableEq

/-- The call counts in `inUse`. -/
def Phase.occupies : Phase → Bool
  | .pinging _ | .noopFailed | .dialing | .loggingIn _ | .dialFailed | .holding _ => true
  | _ => false

/-- The connection that the call owns. -/
def Phase.conn? : Phase → Option Nat
  | .pinging c | .loggingIn c | .holding c => some c
  | _ => none

/-- The channel that the call waits on. -/
def Phase.chan? : Phase → Option Nat
  | .parked ch | .cancelling ch => some ch
  | _ => none

structure Host where
  /-- The key is present in `p.hosts`. -/
  created : Bool
  idle : List IdleEntry
  inUse : Int
  waiters : List Nat
  calls : List Phase
  /-- Connections that are dialled and not yet `Quit`. -/
  conns : List Nat
  /-- Channels with a token in their buffer. -/
  tokens : List Nat
  nextConn : Nat
  nextChan : Nat

def Host.init : Host where
  created := false
  idle := []
  inUse := 0
  waiters := []
  calls := []
  conns := []
  tokens := []
  nextConn := 0
  nextChan := 0

/-! ## The functions of the pool -/

def Host.setCall (s : Host) (i : Nat) (ph : Phase) : Host := { s with calls := s.calls.set i ph }

/-- `c.Quit()`. -/
def Host.quit (s : Host) (c : Nat) : Host := { s with conns := s.conns.erase c }

/-- `wakeOneWaiter`.  The channel has room for one token; a token that does
not fit is dropped. -/
def Host.wakeOneWaiter (s : Host) : Host :=
  match s.waiters with
  | [] => s
  | ch :: rest =>
    { s with waiters := rest, tokens := if ch ∈ s.tokens then s.tokens else ch :: s.tokens }

/-- The loop over `hp.idle`, on the reversed slice.  The answer is the closed
connections, the connection that is taken and whether it needs a NOOP, and
the entries that stay.  `clock` lists the readings of the clock. -/
def scanIdle (cfg : PoolConfig) :
    (Nat → Int) → List IdleEntry → List Nat × Option (Nat × Bool) × List IdleEntry
  | _, [] => ([], none, [])
  | clock, ie :: rest =>
    if clock 0 - ie.enqueue > cfg.idleTTL then
      let (dead, found, left) := scanIdle cfg (fun k => clock (k + 1)) rest
      (ie.c :: dead, found, left)
    else ([], some (ie.c, decide (clock 1 - ie.lastUse > cfg.noopAfter)), rest)

/-- The section of `Acquire` from the lock at the top of the loop. -/
def Host.enter (cfg : PoolConfig) (closed : Bool) (clock : Nat → Int) (i : Nat) (s : Host) :
    Host :=
  if closed then s.setCall i .done
  else
    match scanIdle cfg clock s.idle.reverse with
    | (dead, some (c, needsPing), left) =>
      { s with
        created := true, idle := left.reverse, inUse := s.inUse + 1, conns := s.conns.diff dead
        calls := s.calls.set i (if needsPing then .pinging c else .holding c) }
    | (dead, none, left) =>
      if s.inUse < cfg.maxPerHost then
        { s with
          created := true, idle := left.reverse, inUse := s.inUse + 1
          conns := s.conns.diff dead, calls := s.calls.set i .dialing }
      else
        { s with
          created := true, idle := left.reverse, conns := s.conns.diff dead
          waiters := s.waiters ++ [s.nextChan], nextChan := s.nextChan + 1
          calls := s.calls.set i (.parked s.nextChan) }

/-- The section that gives a slot back after a failed NOOP or dial. -/
def Host.freeSlot (s : Host) : Host := Host.wakeOneWaiter { s with inUse := s.inUse - 1 }

/-- The section of a cancelled waiter. -/
def Host.evict (ch : Nat) (s : Host) : Host :=
  if s.created then
    if ch ∈ s.waiters then { s with waiters := s.waiters.erase ch }
    else Host.wakeOneWaiter { s with tokens := s.tokens.erase ch }
  else s

/-- `Pool.release`. -/
def Host.release (closed : Bool) (now : Int) (c : Nat) (broken : Bool) (s : Host) : Host :=
  if s.created then
    Host.freeSlot
      (if broken || closed then s.quit c
       else { s with idle := s.idle ++ [{ c := c, enqueue := now, lastUse := now }] })
  else s.quit c

/-- The part of `Pool.Close` for one host. -/
def Host.close (s : Host) : Host :=
  { s with conns := s.conns.diff (s.idle.map IdleEntry.c), idle := [] }

/-! ## Steps of one host -/

/-- What a call does next.  `ok` is the answer of the FTP server. -/
inductive CallStep where
  | enter (clock : Nat → Int)
  | noop (ok : Bool)
  | dial (ok : Bool)
  | login (ok : Bool)
  /-- Take the mutex after a failed NOOP or dial. -/
  | unwind
  /-- The `select` receives from the channel. -/
  | take
  /-- The `select` chooses `ctx.Done()`. -/
  | cancel
  /-- Take the mutex after a cancellation. -/
  | evict
  | release (broken : Bool) (now : Int)

/-- One step of the call `i`, which is in phase `ph`.  A second `Release`
finds the handle empty and does nothing, like every step that the phase does
not allow. -/
def Host.callStep (cfg : PoolConfig) (closed : Bool) (s : Host) (i : Nat) (ph : Phase) :
    CallStep → Host
  | .enter clock =>
    match ph with
    | .entering | .woken => s.enter cfg closed clock i
    | _ => s
  | .noop ok =>
    match ph with
    | .pinging c => if ok then s.setCall i (.holding c) else (s.quit c).setCall i .noopFailed
    | _ => s
  | .dial ok =>
    match ph with
    | .dialing =>
      if ok then
        { s with
          conns := s.nextConn :: s.conns, nextConn := s.nextConn + 1
          calls := s.calls.set i (.loggingIn s.nextConn) }
      else s.setCall i .dialFailed
    | _ => s
  | .login ok =>
    match ph with
    | .loggingIn c => if ok then s.setCall i (.holding c) else (s.quit c).setCall i .dialFailed
    | _ => s
  | .unwind =>
    match ph with
    | .noopFailed => (s.setCall i .entering).freeSlot
    | .dialFailed => (s.setCall i .done).freeSlot
    | _ => s
  | .take =>
    match ph with
    | .parked ch =>
      if ch ∈ s.tokens then Host.setCall { s with tokens := s.tokens.erase ch } i .woken else s
    | _ => s
  | .cancel =>
    match ph with
    | .parked ch => s.setCall i (.cancelling ch)
    | _ => s
  | .evict =>
    match ph with
    | .cancelling ch => (s.setCall i .done).evict ch
    | _ => s
  | .release broken now =>
    match ph with
    | .holding c => (s.setCall i .done).release closed now c broken
    | _ => s

/-- A new call of `Acquire`, or a step of the call number `i`. -/
inductive HostAction where
  | acquire
  | call (i : Nat) (st : CallStep)

def Host.step (cfg : PoolConfig) (closed : Bool) (s : Host) : HostAction → Host
  | .acquire => { s with calls := s.calls ++ [.entering] }
  | .call i st =>
    match s.calls[i]? with
    | some ph => s.callStep cfg closed i ph st
    | none => s

theorem Host.step_call {cfg : PoolConfig} {closed : Bool} {s : Host} {i : Nat} {ph : Phase}
    (hi : s.calls[i]? = some ph) (st : CallStep) :
    s.step cfg closed (.call i st) = s.callStep cfg closed i ph st := by
  simp only [Host.step, hi]

/-- A step of a call that does not exist. -/
theorem Host.step_call_none {cfg : PoolConfig} {closed : Bool} {s : Host} {i : Nat}
    (hi : s.calls[i]? = none) (st : CallStep) : s.step cfg closed (.call i st) = s := by
  simp only [Host.step, hi]

/-! ## What a step does to the calls -/

section Frame

variable {cfg : PoolConfig} {closed : Bool} {s : Host} {i : Nat} {ph : Phase}

@[simp]
theorem wakeOneWaiter_calls (s : Host) : s.wakeOneWaiter.calls = s.calls := by
  unfold Host.wakeOneWaiter
  split <;> rfl

@[simp]
theorem freeSlot_calls (s : Host) : s.freeSlot.calls = s.calls := wakeOneWaiter_calls _

@[simp]
theorem evict_calls (s : Host) (ch : Nat) : (s.evict ch).calls = s.calls := by
  unfold Host.evict
  split
  · split
    · rfl
    · exact wakeOneWaiter_calls _
  · rfl

@[simp]
theorem release_calls (s : Host) (now : Int) (c : Nat) (broken : Bool) :
    (s.release closed now c broken).calls = s.calls := by
  unfold Host.release
  split
  · rw [freeSlot_calls]
    split <;> rfl
  · rfl

theorem enter_calls (s : Host) (clock : Nat → Int) (i : Nat) :
    ∃ ph', (s.enter cfg closed clock i).calls = s.calls.set i ph' := by
  unfold Host.enter
  split
  · exact ⟨_, rfl⟩
  · split
    · exact ⟨_, rfl⟩
    · split
      · exact ⟨_, rfl⟩
      · exact ⟨_, rfl⟩

/-- A step of a call changes no phase but its own. -/
theorem callStep_calls (hi : s.calls[i]? = some ph) (st : CallStep) :
    ∃ ph', (s.callStep cfg closed i ph st).calls = s.calls.set i ph' := by
  have hsame : ∃ ph', s.calls = s.calls.set i ph' := by
    obtain ⟨hlt, rfl⟩ := List.getElem?_eq_some_iff.mp hi
    exact ⟨_, (List.set_getElem_self hlt).symm⟩
  cases st with
  | enter clock => cases ph <;> first | exact enter_calls s clock i | exact hsame
  | noop ok => cases ph <;> first | exact hsame | (cases ok <;> exact ⟨_, rfl⟩)
  | dial ok => cases ph <;> first | exact hsame | (cases ok <;> exact ⟨_, rfl⟩)
  | login ok => cases ph <;> first | exact hsame | (cases ok <;> exact ⟨_, rfl⟩)
  | unwind => cases ph <;> first | exact hsame | exact ⟨_, freeSlot_calls _⟩
  | take =>
    cases ph with
    | parked ch =>
      show ∃ ph', Host.calls (if ch ∈ s.tokens then _ else s) = _
      split
      · exact ⟨_, rfl⟩
      · exact hsame
    | _ => exact hsame
  | cancel => cases ph <;> first | exact hsame | exact ⟨_, rfl⟩
  | evict => cases ph <;> first | exact hsame | exact ⟨_, evict_calls _ _⟩
  | release broken now => cases ph <;> first | exact hsame | exact ⟨_, release_calls _ _ _ _⟩

end Frame

/-! ## Steps of the pool -/

structure Pool where
  closed : Bool
  hosts : String → Host

inductive Action where
  | onHost (host : String) (a : HostAction)
  | close

def Pool.init : Pool where
  closed := false
  hosts := fun _ => Host.init

def step (cfg : PoolConfig) (p : Pool) : Action → Pool
  | .onHost host a =>
    { p with hosts := Function.update p.hosts host ((p.hosts host).step cfg p.closed a) }
  | .close => { closed := true, hosts := fun host => (p.hosts host).close }

/-- A step of the pool, as one host sees it: a step of its own, `Close`, or
nothing. -/
theorem step_host (cfg : PoolConfig) (p : Pool) (a : Action) (host : String) :
    (∃ b, a = .onHost host b ∧ (step cfg p a).closed = p.closed ∧
      (step cfg p a).hosts host = (p.hosts host).step cfg p.closed b) ∨
    (a = .close ∧ (step cfg p a).closed = true ∧
      (step cfg p a).hosts host = (p.hosts host).close) ∨
    ((step cfg p a).closed = p.closed ∧ (step cfg p a).hosts host = p.hosts host) := by
  cases a with
  | close => exact Or.inr (Or.inl ⟨rfl, rfl, rfl⟩)
  | onHost host' b =>
    by_cases heq : host = host'
    · subst heq
      exact Or.inl ⟨b, rfl, rfl, Function.update_self ..⟩
    · exact Or.inr (Or.inr ⟨rfl, Function.update_of_ne heq ..⟩)

/-- The pool that a run reaches.  `cfg` is the configuration that the caller
passes to `NewPool`. -/
def reach (cfg : PoolConfig) (as : List Action) : Pool :=
  as.foldl (step (newPool cfg)) Pool.init

end ImgSync.Ftp
