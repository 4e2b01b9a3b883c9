import ImgSync.Ftp.Capacity
import ImgSync.Ftp.Handles

/-!
# `Release`, statement by statement

`PooledConn.Release` (`pool.go`) reads the field `p.c`, runs `Pool.release` under
the mutex and then sets `p.c` to nil.  The field is not under the mutex.  A step
`release` of the pool does the three at once; here they are steps of their own,
and any number of goroutines may be inside `Release` of one handle.

* When no two calls of `Release` of one handle overlap (`Serial`), a run is a run of
  the pool, in which each locked section is the step `release` (`reach_pool`), so
  the pool keeps its cap.
* Two overlapping calls give the connection back twice (`overlapping`).

The check and the read of the argument are one step.
-/

namespace ImgSync.Ftp.Release

open ImgSync.Lib

/-- What a call of `Release` does next. -/
inductive Stage where
  | entered
  /-- `p.c` was not nil, and `Pool.release` is called with it. -/
  | checked (c : Nat)
  /-- `Pool.release` has returned. -/
  | released
  | returned
  deriving DecidableEq

/-- A call of `Release` of the handle that the call `handle` of `Acquire`
returned. -/
structure Call where
  handle : CallId
  broken : Bool
  stage : Stage
  deriving DecidableEq

/-- The pool, the field `c` of every `PooledConn`, and the calls of `Release`. -/
structure World where
  pool : Pool
  field : CallId → Option Nat
  calls : List Call

inductive Act where
  /-- A step of `Acquire`, or `Close`. -/
  | pool (a : Action)
  | enter (handle : CallId) (broken : Bool)
  /-- The next statement of the call number `k`. -/
  | next (k : Nat) (now : Int)

/-- Whether the step is a `Release` as a whole. -/
def isRelease : Action → Bool
  | .onHost _ (.call _ st) => st.isRelease
  | _ => false

/-- `Acquire` returns a `PooledConn` with the connection in its field. -/
def fields (p : Pool) (field : CallId → Option Nat) (x : CallId) : Option Nat :=
  match p.phase? x with
  | some (.holding c) => some c
  | _ => field x

/-- The section of `Pool.release`, for the handle `x`. -/
def locked (p : Pool) (x : CallId) (now : Int) (c : Nat) (broken : Bool) : Pool :=
  { p with
    hosts := Function.update p.hosts x.1
      (((p.hosts x.1).setCall x.2 .done).release p.closed now c broken) }

def World.setStage (s : World) (k : Nat) (call : Call) (stage : Stage) : World :=
  { s with calls := s.calls.set k { call with stage := stage } }

/-- The next statement of the call number `k`. -/
def World.next (s : World) (k : Nat) (call : Call) (now : Int) : World :=
  match call.stage with
  | .entered =>
    match s.field call.handle with
    | none => s.setStage k call .returned
    | some c => s.setStage k call (.checked c)
  | .checked c =>
    World.setStage { s with pool := locked s.pool call.handle now c call.broken } k call .released
  | .released =>
    World.setStage { s with field := Function.update s.field call.handle none } k call .returned
  | .returned => s

def step (cfg : PoolConfig) (s : World) : Act → World
  | .pool a =>
    if isRelease a then s
    else
      let p := Ftp.step cfg s.pool a
      { s with pool := p, field := fields p s.field }
  | .enter handle broken => { s with calls := s.calls ++ [⟨handle, broken, .entered⟩] }
  | .next k now =>
    match s.calls[k]? with
    | some call => s.next k call now
    | none => s

def World.init : World where
  pool := Pool.init
  field := fun _ => none
  calls := []

def reach (cfg : PoolConfig) (as : List Act) : World :=
  as.foldl (step (newPool cfg)) World.init

/-- `Release` of a handle is called when every earlier call for this handle has
returned.  This is so if each `PooledConn` is used by one goroutine. -/
def Serial (s : World) : Act → Prop
  | .enter handle _ => ∀ call ∈ s.calls, call.handle = handle → call.stage = .returned
  | _ => True

instance Serial.decidable (s : World) : (a : Act) → Decidable (Serial s a)
  | .enter handle _ =>
    inferInstanceAs (Decidable (∀ call ∈ s.calls, call.handle = handle → call.stage = .returned))
  | .pool _ | .next _ _ => isTrue trivial

/-- The step of the pool that a step of the run is. -/
def poolStep? (s : World) : Act → Option Action
  | .pool a => if isRelease a then none else some a
  | .enter _ _ => none
  | .next k now =>
    match s.calls[k]? with
    | some ⟨handle, broken, .checked _⟩ =>
      some (.onHost handle.1 (.call handle.2 (.release broken now)))
    | _ => none

/-! ## Handles that hold a connection -/

section Holding

variable {cfg : PoolConfig} {p : Pool} {x : CallId} {c : Nat}

/-- Only `Release` takes the connection from a handle. -/
theorem holding_call {st : CallStep} (hst : st.isRelease = false)
    (h : p.phase? x = some (.holding c)) : (p.call cfg x st).phase? x = some (.holding c) := by
  have hi : (p.hosts x.1).calls[x.2]? = some (.holding c) := h
  show (Function.update p.hosts x.1 _ x.1).calls[x.2]? = _
  rw [Function.update_self, Host.step_call hi]
  cases st with
  | release broken now => cases hst
  | _ => exact hi

theorem holding_step {a : Action} (ha : isRelease a = false)
    (h : p.phase? x = some (.holding c)) : (Ftp.step cfg p a).phase? x = some (.holding c) := by
  cases a with
  | close => exact h
  | onHost host b =>
    cases b with
    | acquire =>
      rw [phase?_acquire_of_ne]
      · exact h
      · rintro rfl
        rw [phase?_nextCall] at h
        cases h
    | call i st =>
      by_cases heq : x = (host, i)
      · subst heq
        exact holding_call ha h
      · exact (phase?_call_of_ne st heq).trans h

/-- The locked section is the step of the pool when the handle holds the
connection. -/
theorem locked_eq (h : p.phase? x = some (.holding c)) (now : Int) (broken : Bool) :
    locked p x now c broken = p.call cfg x (.release broken now) := by
  have hi : (p.hosts x.1).calls[x.2]? = some (.holding c) := h
  show _ = { p with hosts := Function.update p.hosts x.1 _ }
  rw [Host.step_call hi]
  rfl

end Holding

/-! ## Calls that do not overlap -/

/-- What the fields and the local variables mean when no two calls overlap. -/
structure Inv (s : World) : Prop where
  /-- At most one call of a handle is inside `Release`. -/
  single : ∀ (k l : Nat) (x y : Call), s.calls[k]? = some x → s.calls[l]? = some y →
    x.handle = y.handle → x.stage ≠ .returned → y.stage ≠ .returned → k = l
  /-- A call that is about to take the mutex has the connection of its handle. -/
  checked : ∀ x ∈ s.calls, ∀ c, x.stage = .checked c →
    s.pool.phase? x.handle = some (.holding c)
  /-- A field that is not nil is that of a handle that holds its connection, or of
  one whose `Release` is about to clear it. -/
  field : ∀ x c, s.field x = some c →
    s.pool.phase? x = some (.holding c) ∨ ∃ y ∈ s.calls, y.handle = x ∧ y.stage = .released

section Serial

variable {cfg : PoolConfig} {s : World} {k : Nat} {call : Call}

theorem inv_init : Inv World.init where
  single := by
    intro k l x y hx
    cases hx
  checked := by
    intro x hx
    cases hx
  field := by
    intro x c hx
    cases hx

theorem Inv.pool (h : Inv s) {a : Action} (ha : isRelease a = false) :
    Inv { s with pool := Ftp.step cfg s.pool a,
                 field := fields (Ftp.step cfg s.pool a) s.field } where
  single := h.single
  checked := fun x hx c hc => holding_step ha (h.checked x hx c hc)
  field := by
    intro x c (hx : fields _ _ x = some c)
    unfold fields at hx
    split at hx
    · rename_i c' hph
      obtain rfl : c' = c := Option.some.inj hx
      exact Or.inl hph
    · exact (h.field x c hx).imp_left (holding_step ha)

theorem Inv.enter (h : Inv s) {handle : CallId} {broken : Bool}
    (hserial : Serial s (.enter handle broken)) :
    Inv { s with calls := s.calls ++ [⟨handle, broken, .entered⟩] } where
  single := by
    intro k l x y hx hy heq hactive hactive'
    rcases getElem?_concat_cases hx with hx | ⟨rfl, rfl⟩ <;>
      rcases getElem?_concat_cases hy with hy | ⟨rfl, rfl⟩
    · exact h.single k l x y hx hy heq hactive hactive'
    · exact absurd (hserial x (List.mem_of_getElem? hx) heq) hactive
    · exact absurd (hserial y (List.mem_of_getElem? hy) heq.symm) hactive'
    · rfl
  checked := by
    intro x hx c hc
    rcases List.mem_append.mp hx with hx | hx
    · exact h.checked x hx c hc
    · rw [List.mem_singleton.mp hx] at hc
      cases hc
  field := fun x c hx => (h.field x c hx).imp_right fun ⟨y, hy, hrest⟩ =>
    ⟨y, List.mem_append_left _ hy, hrest⟩

/-- A call that is still inside keeps the others of its handle out, whatever its
next stage is. -/
theorem Inv.single_set (h : Inv s) (hk : s.calls[k]? = some call)
    (hinside : call.stage ≠ .returned) (stage : Stage) {i j : Nat} {x y : Call}
    (hx : (s.calls.set k { call with stage := stage })[i]? = some x)
    (hy : (s.calls.set k { call with stage := stage })[j]? = some y) (heq : x.handle = y.handle)
    (hactive : x.stage ≠ .returned) (hactive' : y.stage ≠ .returned) : i = j := by
  rcases getElem?_set_cases hx with ⟨rfl, rfl⟩ | ⟨-, hi⟩ <;>
    rcases getElem?_set_cases hy with ⟨rfl, rfl⟩ | ⟨-, hj⟩
  · rfl
  · exact h.single _ j call y hk hj heq hinside hactive'
  · exact h.single i _ x call hi hk heq hactive hinside
  · exact h.single i j x y hi hj heq hactive hactive'

/-- The other calls that are inside are calls of other handles. -/
theorem Inv.handle_ne (h : Inv s) (hk : s.calls[k]? = some call)
    (hinside : call.stage ≠ .returned) {i : Nat} {x : Call} (hi : i ≠ k)
    (hx : s.calls[i]? = some x) (hactive : x.stage ≠ .returned) : x.handle ≠ call.handle :=
  fun heq => hi (h.single i k x call hx hk heq hactive hinside)

/-- A call goes to its next stage and touches its own handle only. -/
theorem Inv.setStage (h : Inv s) (hk : s.calls[k]? = some call)
    (hinside : call.stage ≠ .returned) {p : Pool} {field : CallId → Option Nat} {stage : Stage}
    (hpool : ∀ x, x ≠ call.handle → p.phase? x = s.pool.phase? x)
    (hfield : ∀ x, x ≠ call.handle → field x = s.field x)
    (hchecked : ∀ c, stage = .checked c → p.phase? call.handle = some (.holding c))
    (hown : ∀ c, field call.handle = some c →
      p.phase? call.handle = some (.holding c) ∨ stage = .released) :
    Inv (World.setStage { s with pool := p, field := field } k call stage) where
  single := fun _ _ _ _ hx hy => h.single_set hk hinside stage hx hy
  checked := by
    intro x hx c hc
    obtain ⟨i, hi⟩ := List.mem_iff_getElem?.mp hx
    rcases getElem?_set_cases hi with ⟨rfl, rfl⟩ | ⟨hne, hi⟩
    · exact hchecked c hc
    · have hactive : x.stage ≠ .returned := by
        rw [hc]
        exact Stage.noConfusion
      exact (hpool _ (h.handle_ne hk hinside hne hi hactive)).trans
        (h.checked x (List.mem_of_getElem? hi) c hc)
  field := by
    intro x c hx
    obtain ⟨hlt, -⟩ := List.getElem?_eq_some_iff.mp hk
    by_cases heq : x = call.handle
    · subst heq
      refine (hown c hx).imp_right fun hstage => ⟨{ call with stage := stage }, ?_, rfl, hstage⟩
      exact List.mem_of_getElem? (List.getElem?_set_self hlt)
    · have hold : s.field x = some c := (hfield x heq).symm.trans hx
      rcases h.field x c hold with hph | ⟨y, hy, rfl, hstage⟩
      · exact Or.inl ((hpool x heq).trans hph)
      · obtain ⟨i, hi⟩ := List.mem_iff_getElem?.mp hy
        have hne : k ≠ i := by
          rintro rfl
          rw [hk] at hi
          exact heq (congrArg Call.handle (Option.some.inj hi).symm)
        refine Or.inr ⟨y, List.mem_of_getElem? (i := i) ?_, rfl, hstage⟩
        exact (List.getElem?_set_ne hne).trans hi

/-- One statement of `Release`: the calls still do not overlap, and the pool does
not move, or makes its step `release`. -/
theorem Inv.next (h : Inv s) (hk : s.calls[k]? = some call) (now : Int) :
    Inv (s.next k call now) ∧ (s.next k call now).pool =
      (poolStep? s (.next k now)).toList.foldl (Ftp.step cfg) s.pool := by
  obtain ⟨handle, broken, stage⟩ := call
  cases stage with
  | entered =>
    have hpool : (poolStep? s (.next k now)).toList.foldl (Ftp.step cfg) s.pool = s.pool := by
      simp only [poolStep?, hk, Option.toList_none, List.foldl_nil]
    rw [hpool]
    unfold World.next
    cases hf : s.field handle with
    | none =>
      refine ⟨h.setStage hk (by simp) (fun _ _ => rfl) (fun _ _ => rfl) (by simp) ?_, rfl⟩
      intro c hc
      rw [hf] at hc
      cases hc
    | some c =>
      -- The other call that could still clear the field would overlap with this one.
      have hholding : s.pool.phase? handle = some (.holding c) := by
        rcases h.field handle c hf with hph | ⟨y, hy, hhandle, hstage⟩
        · exact hph
        · obtain ⟨i, hi⟩ := List.mem_iff_getElem?.mp hy
          obtain rfl : i = k := h.single i k y _ hi hk hhandle (by rw [hstage]; simp) (by simp)
          rw [hk] at hi
          obtain rfl := Option.some.inj hi
          cases hstage
      refine ⟨h.setStage hk (by simp) (fun _ _ => rfl) (fun _ _ => rfl) ?_ ?_, rfl⟩
      · intro c' hc'
        obtain rfl : c = c' := Stage.checked.inj hc'
        exact hholding
      · intro c' hc'
        exact Or.inl (Option.some.inj (hf.symm.trans hc') ▸ hholding)
  | checked c =>
    have hholding : s.pool.phase? handle = some (.holding c) :=
      h.checked _ (List.mem_of_getElem? hk) c rfl
    have hlocked : locked s.pool handle now c broken =
        s.pool.call cfg handle (.release broken now) := locked_eq hholding now broken
    constructor
    · refine h.setStage hk (by simp) (fun x hx => ?_) (fun _ _ => rfl) (by simp)
        fun _ _ => Or.inr rfl
      show (locked s.pool handle now c broken).phase? x = _
      rw [hlocked]
      exact phase?_call_of_ne _ hx
    · simp only [poolStep?, hk, Option.toList_some, List.foldl_cons, List.foldl_nil]
      exact hlocked
  | released =>
    constructor
    · refine h.setStage hk (by simp) (fun _ _ => rfl) (fun x hx => Function.update_of_ne hx ..)
        (by simp) fun c hc => ?_
      rw [Function.update_self] at hc
      cases hc
    · simp only [poolStep?, hk, Option.toList_none, List.foldl_nil]
      rfl
  | returned =>
    refine ⟨h, ?_⟩
    simp only [poolStep?, hk, Option.toList_none, List.foldl_nil]
    rfl

theorem Inv.step (h : Inv s) (a : Act) (hserial : Serial s a) :
    Inv (step cfg s a) ∧
      (step cfg s a).pool = (poolStep? s a).toList.foldl (Ftp.step cfg) s.pool := by
  cases a with
  | pool a =>
    cases ha : isRelease a with
    | true =>
      simp only [Release.step, poolStep?, ha, if_true]
      exact ⟨h, rfl⟩
    | false =>
      simp only [Release.step, poolStep?, ha, Bool.false_eq_true, if_false]
      exact ⟨h.pool ha, rfl⟩
  | enter handle broken => exact ⟨h.enter hserial, rfl⟩
  | next k now =>
    cases hk : s.calls[k]? with
    | none =>
      simp only [Release.step, poolStep?, hk]
      exact ⟨h, rfl⟩
    | some call =>
      simp only [Release.step, hk]
      exact h.next hk now

end Serial

/-! ## Whole runs -/

section Runs

variable {cfg : PoolConfig} {as : List Act}

/-- The steps of the pool in a run. -/
def poolSteps (cfg : PoolConfig) (as : List Act) : List Action :=
  trace (step (newPool cfg)) poolStep? World.init as

/-- Without overlapping calls the locked sections are whole steps of the pool. -/
theorem reach_pool (h : AllSteps (step (newPool cfg)) Serial World.init as) :
    (reach cfg as).pool = Ftp.reach cfg (poolSteps cfg as) :=
  foldl_trace_all Inv (fun _ a hinv hserial => hinv.step a hserial) inv_init h

/-- The cap of the pool in every state of a run in which no two calls of `Release`
of one handle overlap, and the empty idle lists after a `Close`. -/
theorem split_pool_capacity (cfg : PoolConfig) (as bs : List Act) (host : String)
    (hserial : AllSteps (step (newPool cfg)) Serial World.init (as ++ .pool .close :: bs)) :
    0 ≤ ((reach cfg as).pool.hosts host).inUse ∧
    ((reach cfg as).pool.hosts host).inUse + ((reach cfg as).pool.hosts host).idle.length ≤
      (newPool cfg).maxPerHost ∧
    (((reach cfg as).pool.hosts host).conns.length : Int) ≤
      ((reach cfg as).pool.hosts host).inUse + ((reach cfg as).pool.hosts host).idle.length ∧
    ((reach cfg (as ++ .pool .close :: bs)).pool.hosts host).idle = [] := by
  have hfirst := reach_pool (allSteps_append.mp hserial).1
  have hsplit : poolSteps cfg (as ++ .pool .close :: bs) = poolSteps cfg as ++ .close ::
      trace (step (newPool cfg)) poolStep? (reach cfg (as ++ [.pool .close])) bs := by
    rw [poolSteps, trace_append, poolSteps, reach, List.foldl_append]
    rfl
  rw [hfirst, reach_pool hserial, hsplit]
  exact pool_capacity cfg _ _ host

/-- `Acquire` of the first connection to a host. -/
def acquired : List Act :=
  [.pool (.onHost "h" .acquire), .pool (.onHost "h" (.call 0 (.enter fun _ => 0))),
    .pool (.onHost "h" (.call 0 (.dial true))), .pool (.onHost "h" (.call 0 (.login true)))]

/-- A second `Release` after the first one has returned finds the field empty. -/
def releasedTwice : List Act :=
  acquired ++ [.enter ("h", 0) false, .next 0 1, .next 0 2, .next 0 3,
    .enter ("h", 0) false, .next 1 4]

theorem split_pool_capacity_released_twice :
    ((reach ⟨1, 0, 0⟩ releasedTwice).pool.hosts "h").inUse = 0 ∧
    ((reach ⟨1, 0, 0⟩ releasedTwice).pool.hosts "h").idle.length = 1 ∧
    (((reach ⟨1, 0, 0⟩ releasedTwice).pool.hosts "h").conns.length : Int) ≤ 0 + 1 ∧
    ((reach ⟨1, 0, 0⟩ (releasedTwice ++ [.pool .close])).pool.hosts "h").idle = [] := by
  have hzero : ((reach ⟨1, 0, 0⟩ releasedTwice).pool.hosts "h").inUse = 0 := by decide +kernel
  have hone : ((reach ⟨1, 0, 0⟩ releasedTwice).pool.hosts "h").idle.length = 1 := by
    decide +kernel
  obtain ⟨-, -, hconns, hclosed⟩ := split_pool_capacity ⟨1, 0, 0⟩ releasedTwice [] "h"
    (by decide +kernel)
  rw [hzero, hone] at hconns
  exact ⟨hzero, hone, hconns, hclosed⟩

/-- Two goroutines are past the check when the first one takes the mutex. -/
def overlapping : List Act :=
  acquired ++ [.enter ("h", 0) false, .enter ("h", 0) false, .next 0 1, .next 1 2, .next 0 3,
    .next 1 4, .next 0 5, .next 1 6]

/-- The connection is in the idle list twice, and the counter is negative. -/
theorem overlapping_releases :
    ¬(0 ≤ ((reach ⟨1, 0, 0⟩ overlapping).pool.hosts "h").inUse) ∧
    ((reach ⟨1, 0, 0⟩ overlapping).pool.hosts "h").inUse = -1 ∧
    ((reach ⟨1, 0, 0⟩ overlapping).pool.hosts "h").idle.map IdleEntry.c = [0, 0] ∧
    ((reach ⟨1, 0, 0⟩ overlapping).pool.hosts "h").conns = [0] := by
  decide +kernel

end Runs

end ImgSync.Ftp.Release
