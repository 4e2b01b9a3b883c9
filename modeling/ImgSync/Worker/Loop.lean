import ImgSync.Worker.Fencing

/-!
# One worker loop and its context

`Runner.loop` and `Runner.processOne` (`internal/worker/runner.go`) with
`ProcessJob` (`internal/worker/process.go`), call by call, as one goroutine runs
them under a context that may be cancelled between any two of its steps.  The
database and the other workers are the `System` of the runner, and the loop acts
on it by the steps that the runner has for its name.

* Every statement of the loop but the drain runs on the context of the loop.  On
  a cancelled context it has no effect and the call answers an error.
* A call of the source or the transport answers whatever it likes, also when the
  context is cancelled while it runs.
* The answer of a lease can get lost: the row is leased, and the loop sees an
  error.
* A panic inside of `processOne` is recovered, and the recovery write has a context
  of its own.  A panic elsewhere unwinds the loop, which still runs its drain; the
  process dies after that.
* The drain can fail.  The loop ignores that, so it makes no difference to it
  whether a drain that reports an error has taken effect.
-/

namespace ImgSync.Worker

open ImgSync.Lib ImgSync.Queue

/-- The goroutine that an action belongs to. -/
def Action.worker : Action → Option String
  | .external _ => none
  | .lease w _ _ | .write w _ | .writeFails w | .recover w _ _ | .recoverFails w | .finish w
  | .drain w | .crash w => some w

/-- Where the loop is.  Inside of a call, `sending` has the size that `Open`
reported, and `closing` and `writing` have the answers so far. -/
inductive Pos where
  /-- The check of the context. -/
  | top
  /-- `LeaseJob`. -/
  | leasing
  /-- `IdleBackoff.WaitOnce`. -/
  | waiting
  /-- `SourceFor` and `TransportFor`. -/
  | lookup
  /-- `Source.Open`. -/
  | opening
  /-- `Transport.Send`. -/
  | sending (srcSize : Int)
  /-- `body.Close`, after the size verification. -/
  | closing (c : Calls)
  /-- The outcome statement. -/
  | writing (run : JobRun)
  /-- The deferred `drainLease`. -/
  | draining
  | returned

/-- The loop has a job. -/
def Pos.atJob : Pos → Bool
  | .lookup | .opening | .sending _ | .closing _ | .writing _ => true
  | _ => false

structure LoopState where
  system : System
  cancelled : Bool
  pos : Pos

/-- What becomes of a `LeaseJob` whose context is not cancelled. -/
inductive LeaseAnswer where
  | failed
  | lost
  | arrived

/-- The cancellation, a step of another goroutine, or what the current call of
the loop answers. -/
inductive LoopAction where
  | other (a : Action)
  | cancel
  | checked
  | leased (rowLocked : List Nat) (answer : LeaseAnswer)
  | woken
  | lookedUp (source transport : Option GoError)
  | opened (answer : Except GoError Int)
  | sent (answer : Except GoError (Int × GoString)) (read : Int)
  | closed (err : Option GoError)
  | wrote (fails : Bool) (durationMs backoffMs : Int)
  /-- A panic inside of `processOne`, and the recovery write.  With `behind` the panic
  comes from a callback or the deferred close, after an outcome statement with these
  answers. -/
  | panicked (behind : Option (Bool × Int × Int)) (rec_ : GoString) (backoffMs : Int)
    (fails : Bool)
  /-- A panic outside of `processOne`. -/
  | unwound
  | drained (fails : Bool)

/-- The answers of calls that are not made.  `processOne` reads none of them. -/
def noCalls : Calls := ⟨.ok 0, .ok (0, []), 0, none, 0, 0⟩

/-- The answer of `LeaseJob` on a live context. -/
def LoopState.lease (w : String) (s : LoopState) (now : Time) (rowLocked : List Nat) :
    LeaseAnswer → LoopState
  | .failed => { s with pos := .waiting }
  | .lost => { s with system := step s.system (now, .lease w rowLocked true), pos := .waiting }
  | .arrived =>
    let system := step s.system (now, .lease w rowLocked false)
    match system.workers w with
    | .idle => { s with system := system, pos := .waiting }
    | .working _ _ _ => { s with system := system, pos := .lookup }

/-- Behind a `Send` that wrote: the size verification of `ProcessJob`. -/
def afterSend (c : Calls) (srcSize written : Int) : Pos :=
  if 0 ≤ srcSize ∧ written ≠ srcSize then .writing ⟨none, none, c⟩
  else if srcSize < 0 ∧ c.read ≠ written then .writing ⟨none, none, c⟩
  else .closing c

/-- The outcome statement on the context of the loop, and the return of
`processOne`. -/
def LoopState.write (w : String) (s : LoopState) (now : Time) (fails : Bool) (run : JobRun) :
    LoopState :=
  let a := if s.cancelled || fails then .writeFails w else .write w run
  { s with system := step (step s.system (now, a)) (now, .finish w), pos := .top }

/-- The statements of a `processOne` that panics: the outcome statement if the panic comes
behind it, and the recovery write. -/
def LoopState.panicActs (w : String) (s : LoopState) (behind : Option (Bool × Int × Int))
    (rec_ : GoString) (backoffMs : Int) (fails : Bool) : List Action :=
  let recovery := if fails then .recoverFails w else .recover w rec_ backoffMs
  match s.pos, behind with
  | .writing run, some (writeFails, durationMs, backoffMs) =>
    let run' : JobRun :=
      { run with calls := { run.calls with durationMs := durationMs, backoffMs := backoffMs } }
    [if s.cancelled || writeFails then .writeFails w else .write w run', recovery]
  | _, _ => [recovery]

/-- One step.  An answer that the loop does not wait for leaves it alone. -/
def loopStep (w : String) (s : LoopState) : Time × LoopAction → LoopState
  | (now, .other a) =>
    if a.worker = some w then s else { s with system := step s.system (now, a) }
  | (_, .cancel) => { s with cancelled := true }
  | (_, .checked) =>
    match s.pos with
    | .top => { s with pos := if s.cancelled then .draining else .leasing }
    | _ => s
  | (now, .leased rowLocked answer) =>
    match s.pos with
    | .leasing => if s.cancelled then { s with pos := .waiting } else s.lease w now rowLocked answer
    | _ => s
  | (_, .woken) =>
    match s.pos with
    | .waiting => { s with pos := .top }
    | _ => s
  | (_, .lookedUp source transport) =>
    match s.pos with
    | .lookup =>
      match source, transport with
      | some e, _ => { s with pos := .writing ⟨some e, none, noCalls⟩ }
      | none, some e => { s with pos := .writing ⟨none, some e, noCalls⟩ }
      | none, none => { s with pos := .opening }
    | _ => s
  | (_, .opened answer) =>
    match s.pos with
    | .opening =>
      match answer with
      | .error e => { s with pos := .writing ⟨none, none, { noCalls with opened := .error e }⟩ }
      | .ok srcSize => { s with pos := .sending srcSize }
    | _ => s
  | (_, .sent answer read) =>
    match s.pos with
    | .sending srcSize =>
      let c : Calls := { noCalls with opened := .ok srcSize, sent := answer, read := read }
      match answer with
      | .error _ => { s with pos := .writing ⟨none, none, c⟩ }
      | .ok (written, _) => { s with pos := afterSend c srcSize written }
    | _ => s
  | (_, .closed err) =>
    match s.pos with
    | .closing c => { s with pos := .writing ⟨none, none, { c with closed := err }⟩ }
    | _ => s
  | (now, .wrote fails durationMs backoffMs) =>
    match s.pos with
    | .writing run =>
      s.write w now fails
        { run with calls := { run.calls with durationMs := durationMs, backoffMs := backoffMs } }
    | _ => s
  | (now, .panicked behind rec_ backoffMs fails) =>
    if s.pos.atJob then
      let acts := (s.panicActs w behind rec_ backoffMs fails).map fun a => (now, a)
      { s with system := acts.foldl step s.system, pos := .top }
    else s
  | (_, .unwound) =>
    match s.pos with
    | .top | .leasing | .waiting => { s with pos := .draining }
    | _ => s
  | (now, .drained fails) =>
    match s.pos with
    | .draining =>
      { s with
        system := if fails then s.system else step s.system (now, .drain w)
        pos := .returned }
    | _ => s

/-- The loop that starts in a state of the system. -/
def LoopState.init (start : System) : LoopState := ⟨start, false, .top⟩

def loopReach (w : String) (start : System) (as : List (Time × LoopAction)) : LoopState :=
  as.foldl (loopStep w) (.init start)

end ImgSync.Worker
