import ImgSync.Ftp.Pod

/-!
# Jobs on the FTP pool

Any number of executions of `ProcessJob` (`internal/worker/process.go`) whose
source or transport is FTP, on one pool.  `Source.Open` acquires a connection and
passes the duty to release it to the body; `ProcessJob` closes the body, at the
end of a good transfer or in its deferred function.  `Transport.Send` acquires a
connection and releases it at one of three exits.

Every FTP command is a step with its answer, and the steps of `Acquire` are those
of the pool, a cancellation among them.  A read of the body may outlive `Send`
and even the close, because the context reader leaves its goroutine behind.

A `Handle` is the connection of one `Acquire`, with what happened to it: whether
a command on it failed, and the arguments of all calls of `Release`.
-/

namespace ImgSync.Ftp

open ImgSync.Lib

/-- The `*PooledConn` of one `Acquire`. -/
structure Handle where
  call : CallId
  /-- What `Acquire` returned, once it has: a connection or an error. -/
  acquired : Option Bool
  /-- RETR, a read of the body before its release, the close, STOR or the rename
  failed on it. -/
  failed : Bool
  /-- The arguments of the calls of `Release`. -/
  releases : List Bool

def Handle.new (x : CallId) : Handle where
  call := x
  acquired := none
  failed := false
  releases := []

def Handle.returns (h : Handle) (ok : Bool) : Handle := { h with acquired := some ok }

def Handle.fail (h : Handle) : Handle := { h with failed := true }

/-- A failure on a connection that has been released already does not count. -/
def Handle.failOpen (h : Handle) : Handle := if h.releases = [] then h.fail else h

def Handle.release (h : Handle) (broken : Bool) : Handle :=
  { h with releases := h.releases ++ [broken] }

/-- Where `ProcessJob` is. -/
inductive JobStage where
  | before
  /-- In the `Acquire` of `Source.Open`. -/
  | opening
  | sizing
  | retrieving
  /-- `Source.Open` has returned a body. -/
  | opened
  /-- In the `Send` of a transport that is not FTP. -/
  | copying
  /-- In the `Acquire` of `Transport.Send`. -/
  | acquiring
  | making
  | storing
  | renaming
  /-- STOR or the rename failed. -/
  | cleaning
  /-- `Send` has returned. -/
  | sent (ok : Bool)
  /-- The size is right; the explicit close is next. -/
  | closeNow
  /-- The outcome is written, or about to be; the deferred function is next. -/
  | returning
  /-- In `Close` of the body, behind the close of the data connection. -/
  | closing (deferred failed : Bool)
  | done
  deriving DecidableEq

structure Exec where
  stage : JobStage
  /-- The connection of the body; `none` for a source that is not FTP. -/
  src : Option Handle
  /-- The connection of `Send`. -/
  dst : Option Handle
  /-- A read of the body is outstanding. -/
  reading : Bool
  /-- `retrReader.ioErr` is set. -/
  ioErr : Bool
  /-- `retrReader.released`. -/
  released : Bool
  /-- `closed` of `ProcessJob`. -/
  closed : Bool

def Exec.init : Exec where
  stage := .before
  src := none
  dst := none
  reading := false
  ioErr := false
  released := false
  closed := false

/-- The execution has begun and has not returned. -/
def Exec.inFlight (x : Exec) : Bool :=
  match x.stage with
  | .before | .done => false
  | _ => true

/-- The handle of the `Acquire` that the execution is in. -/
def Exec.acquiring? (x : Exec) : Option Handle :=
  match x.stage with
  | .opening => x.src
  | .acquiring => x.dst
  | _ => none

structure Jobs where
  pool : Pool
  execs : Nat → Exec

inductive JobAction where
  /-- `Source.Open` without an `Acquire`: another source, or an error before it. -/
  | openOther (e : Nat) (ok : Bool)
  | openFtp (e : Nat) (host : String)
  /-- A step of the `Acquire` that the execution is in. -/
  | acquire (e : Nat) (st : CallStep)
  /-- That `Acquire` returns. -/
  | acquired (e : Nat)
  | size (e : Nat) (ok : Bool)
  | retr (e : Nat) (ok : Bool) (now : Int)
  /-- `Transport.Send` without an `Acquire`: another transport, or an error before it. -/
  | sendOther (e : Nat) (ok : Bool)
  | sendFtp (e : Nat) (host : String)
  | copied (e : Nat) (ok : Bool)
  /-- A read of the body is called, and returns. -/
  | readBegin (e : Nat)
  | readEnd (e : Nat) (ok : Bool)
  | mkd (e : Nat) (ok : Bool)
  | stor (e : Nat) (ok : Bool)
  | rename (e : Nat) (ok : Bool) (now : Int)
  /-- DELE, whose answer is ignored, and `Release(true)`. -/
  | dele (e : Nat) (ok : Bool) (now : Int)
  | verify (e : Nat) (ok : Bool)
  /-- The close of the data connection in `Close` of the body. -/
  | closeBody (e : Nat) (ok : Bool)
  /-- The rest of `Close`. -/
  | releaseBody (e : Nat) (now : Int)
  /-- `Pool.Close`. -/
  | closePool

def CallStep.isRelease : CallStep → Bool
  | .release _ _ => true
  | _ => false

/-- The phase of a call of `Acquire`. -/
def Pool.phase? (p : Pool) (x : CallId) : Option Phase := (p.hosts x.1).calls[x.2]?

/-- A step of the call `x`. -/
def Pool.call (cfg : PoolConfig) (p : Pool) (x : CallId) (st : CallStep) : Pool :=
  step cfg p (.onHost x.1 (.call x.2 st))

/-- The identity of the next call for a host. -/
def Pool.nextCall (p : Pool) (host : String) : CallId := (host, (p.hosts host).calls.length)

def Jobs.set (s : Jobs) (e : Nat) (x : Exec) : Jobs :=
  { s with execs := Function.update s.execs e x }

/-- A step of the call `c`, and the next state of the execution. -/
def Jobs.move (cfg : PoolConfig) (s : Jobs) (e : Nat) (c : CallId) (st : CallStep) (x : Exec) :
    Jobs where
  pool := s.pool.call cfg c st
  execs := Function.update s.execs e x

/-- A new call of `Acquire` for the host. -/
def Jobs.callAcquire (cfg : PoolConfig) (s : Jobs) (e : Nat) (host : String) (x : Exec) : Jobs where
  pool := step cfg s.pool (.onHost host .acquire)
  execs := Function.update s.execs e x

/-- `Acquire` returns in `Source.Open`. -/
def Exec.openReturns (x : Exec) (h : Handle) : Phase → Exec
  | .holding _ => { x with src := some (h.returns true), stage := .sizing }
  | .done => { x with src := some (h.returns false), stage := .done }
  | _ => x

/-- `Acquire` returns in `Transport.Send`. -/
def Exec.sendReturns (x : Exec) (h : Handle) : Phase → Exec
  | .holding _ => { x with dst := some (h.returns true), stage := .making }
  | .done => { x with dst := some (h.returns false), stage := .sent false }
  | _ => x

/-- A read of the body returns. -/
def Exec.readEnd (x : Exec) (ok : Bool) : Exec :=
  if ok then { x with reading := false }
  else
    { x with reading := false, ioErr := true, src := x.src.map Handle.failOpen }

/-- The end of `Close` of the body, with the connection behind it. -/
def Exec.bodyClosed (x : Exec) (deferred : Bool) (src : Option Handle) : Exec :=
  { x with
    src := src, released := true
    closed := x.closed || !deferred, stage := if deferred then .done else .returning }

def jobStep (cfg : PoolConfig) (s : Jobs) : JobAction → Jobs
  | .openOther e ok =>
    match (s.execs e).stage with
    | .before => s.set e { s.execs e with stage := if ok then .opened else .done }
    | _ => s
  | .openFtp e host =>
    match (s.execs e).stage with
    | .before =>
      s.callAcquire cfg e host
        { s.execs e with src := some (.new (s.pool.nextCall host)), stage := .opening }
    | _ => s
  | .acquire e st =>
    match (s.execs e).acquiring? with
    | some h => if st.isRelease then s else s.move cfg e h.call st (s.execs e)
    | none => s
  | .acquired e =>
    match (s.execs e).stage, (s.execs e).acquiring? with
    | .opening, some h =>
      match s.pool.phase? h.call with
      | some ph => s.set e ((s.execs e).openReturns h ph)
      | none => s
    | .acquiring, some h =>
      match s.pool.phase? h.call with
      | some ph => s.set e ((s.execs e).sendReturns h ph)
      | none => s
    | _, _ => s
  | .size e _ =>
    match (s.execs e).stage with
    | .sizing => s.set e { s.execs e with stage := .retrieving }
    | _ => s
  | .retr e ok now =>
    match (s.execs e).stage, (s.execs e).src with
    | .retrieving, some h =>
      if ok then s.set e { s.execs e with stage := .opened }
      else
        s.move cfg e h.call (.release true now)
          { s.execs e with src := some (h.fail.release true), stage := .done }
    | _, _ => s
  | .sendOther e ok =>
    match (s.execs e).stage with
    | .opened => s.set e { s.execs e with stage := if ok then .copying else .sent false }
    | _ => s
  | .sendFtp e host =>
    match (s.execs e).stage with
    | .opened =>
      s.callAcquire cfg e host
        { s.execs e with dst := some (.new (s.pool.nextCall host)), stage := .acquiring }
    | _ => s
  | .copied e ok =>
    match (s.execs e).stage with
    | .copying => s.set e { s.execs e with stage := .sent ok }
    | _ => s
  | .readBegin e =>
    match (s.execs e).stage with
    | .copying | .storing => s.set e { s.execs e with reading := true }
    | _ => s
  | .readEnd e ok => if (s.execs e).reading then s.set e ((s.execs e).readEnd ok) else s
  | .mkd e _ =>
    match (s.execs e).stage with
    | .making => s.set e { s.execs e with stage := .storing }
    | _ => s
  | .stor e ok =>
    match (s.execs e).stage with
    | .storing =>
      if ok then s.set e { s.execs e with stage := .renaming }
      else s.set e { s.execs e with dst := (s.execs e).dst.map Handle.fail, stage := .cleaning }
    | _ => s
  | .rename e ok now =>
    match (s.execs e).stage, (s.execs e).dst with
    | .renaming, some h =>
      if ok then
        s.move cfg e h.call (.release false now)
          { s.execs e with dst := some (h.release false), stage := .sent true }
      else s.set e { s.execs e with dst := some h.fail, stage := .cleaning }
    | _, _ => s
  | .dele e _ now =>
    match (s.execs e).stage, (s.execs e).dst with
    | .cleaning, some h =>
      s.move cfg e h.call (.release true now)
        { s.execs e with dst := some (h.release true), stage := .sent false }
    | _, _ => s
  | .verify e ok =>
    match (s.execs e).stage with
    | .sent sendOk =>
      s.set e { s.execs e with stage := if sendOk && ok then .closeNow else .returning }
    | _ => s
  | .closeBody e ok =>
    let src := if ok then (s.execs e).src else (s.execs e).src.map Handle.fail
    match (s.execs e).stage with
    | .closeNow => s.set e { s.execs e with src := src, stage := .closing false !ok }
    | .returning =>
      if (s.execs e).closed then s.set e { s.execs e with stage := .done }
      else s.set e { s.execs e with src := src, stage := .closing true !ok }
    | _ => s
  | .releaseBody e now =>
    match (s.execs e).stage with
    | .closing deferred failed =>
      match (s.execs e).src with
      | some h =>
        if (s.execs e).released then s.set e ((s.execs e).bodyClosed deferred (some h))
        else
          let broken := (s.execs e).ioErr || failed
          s.move cfg e h.call (.release broken now)
            ((s.execs e).bodyClosed deferred (some (h.release broken)))
      | none => s.set e ((s.execs e).bodyClosed deferred none)
    | _ => s
  | .closePool => { s with pool := step cfg s.pool .close }

/-- The pool and its jobs after the actions, from `NewPool`. -/
def jobReach (cfg : PoolConfig) (as : List JobAction) : Jobs :=
  as.foldl (jobStep (newPool cfg)) { pool := Pool.init, execs := fun _ => Exec.init }

end ImgSync.Ftp
