import ImgSync.Ftp.Wakeup

/-!
# A worker pod on its FTP pool

`cmd/imgsync/worker.go` gives one pool to the FTP source and to the FTP
transport.  A worker that runs an ftp-to-ftp job (`ProcessJob`) acquires a
connection in `Source.Open`, keeps it until `body.Close`, and acquires a
second one inside `Transport.Send`.  Between the two it waits for a database
connection and for a slot of the destination host (`hostcap`).

The pod is the pool of `ImgSync.Ftp.Pool` and the stage of every worker.  The
context is not cancelled, so no call is cancelled and the pool is not closed.

`Deadlocked` says that every worker is parked in `Acquire`.  `Wedged` also counts
the workers that wait for `hostcap`, as long as its database does not fail.
-/

namespace ImgSync.Ftp

open ImgSync.Lib

/-- The hosts of an ftp-to-ftp job. -/
structure FtpJob where
  srcHost : String
  dstHost : String
  deriving DecidableEq

/-- A call of `Acquire`: the host and the number of the call there. -/
abbrev CallId := String × Nat

/-- Where a worker is in `ProcessJob`.  `i` is its call in `Source.Open` and
`j` its call in `Transport.Send`. -/
inductive Stage where
  | idle
  /-- In `Source.Open`. -/
  | opening (job : FtpJob) (i : Nat)
  /-- `Open` has returned; waits for a connection of the `hostcap` pool. -/
  | opened (job : FtpJob) (i : Nat)
  /-- In `acquireSlot`. -/
  | slotWait (job : FtpJob) (i : Nat)
  /-- In the inner `Send`. -/
  | sending (job : FtpJob) (i j : Nat)
  /-- `Send` has returned; the body is still open. -/
  | closing (job : FtpJob) (i : Nat)
  deriving DecidableEq

/-- The call of `Acquire` that the worker is in. -/
def Stage.call? : Stage → Option CallId
  | .opening job i => some (job.srcHost, i)
  | .sending job _ j => some (job.dstHost, j)
  | _ => none

/-- The call whose connection the open body keeps. -/
def Stage.src? : Stage → Option CallId
  | .opened job i | .slotWait job i | .sending job i _ | .closing job i => some (job.srcHost, i)
  | _ => none

def Stage.job? : Stage → Option FtpJob
  | .idle => none
  | .opening job _ | .opened job _ | .slotWait job _ | .sending job _ _ | .closing job _ => some job

/-- The worker is inside the inner `Send` to the host. -/
def Stage.sendsTo (host : String) : Stage → Bool
  | .sending job _ _ => job.dstHost == host
  | _ => false

/-- The worker holds a connection of the `hostcap` pool. -/
def Stage.pinsConn : Stage → Bool
  | .slotWait _ _ | .sending _ _ _ => true
  | _ => false

/-- `slots` is `Cap` of `hostcap` after its default, and `conns` the size of
its connection pool, which `newHostcapTransport` sets to `Cap + 2`.  `jobs` says
which jobs the queue may hand out. -/
structure PodConfig where
  pool : PoolConfig
  slots : Nat
  conns : Nat
  jobs : FtpJob → Bool

structure Pod (n : Nat) where
  pool : Pool
  workers : Fin n → Stage

/-- A step of worker `w`.  `ok` and `broken` are answers of the servers. -/
inductive PodAction (n : Nat) where
  | start (w : Fin n) (job : FtpJob)
  | acquiring (w : Fin n) (st : CallStep)
  | opened (w : Fin n) (ok : Bool) (now : Int)
  | takeConn (w : Fin n) (ok : Bool)
  | takeSlot (w : Fin n) (ok : Bool)
  | sent (w : Fin n) (broken : Bool) (now : Int)
  | close (w : Fin n) (broken : Bool) (now : Int)

/-- The steps that `Acquire` takes on its own, without a cancellation. -/
def CallStep.byAcquire : CallStep → Bool
  | .enter _ | .noop _ | .dial _ | .login _ | .unwind | .take => true
  | _ => false

section Model

variable {n : Nat}

def Pod.init (n : Nat) : Pod n where
  pool := Pool.init
  workers := fun _ => .idle

def Pod.calls (s : Pod n) (host : String) : List Phase := (s.pool.hosts host).calls

def Pod.sendersTo (s : Pod n) (host : String) : Nat :=
  (Finset.univ.filter fun w => (s.workers w).sendsTo host).card

def Pod.connUsers (s : Pod n) : Nat := (Finset.univ.filter fun w => (s.workers w).pinsConn).card

/-- A step of the pool at `host`, and the next stage of the worker. -/
def Pod.move (cfg : PodConfig) (s : Pod n) (host : String) (a : HostAction) (w : Fin n)
    (st : Stage) : Pod n where
  pool := Ftp.step (newPool cfg.pool) s.pool (.onHost host a)
  workers := Function.update s.workers w st

def Pod.setStage (s : Pod n) (w : Fin n) (st : Stage) : Pod n :=
  { s with workers := Function.update s.workers w st }

def podStep (cfg : PodConfig) (s : Pod n) : PodAction n → Pod n
  | .start w job =>
    match s.workers w with
    | .idle =>
      if cfg.jobs job then
        s.move cfg job.srcHost .acquire w (.opening job (s.calls job.srcHost).length)
      else s
    | _ => s
  | .acquiring w st =>
    match (s.workers w).call? with
    | some (host, i) => if st.byAcquire then s.move cfg host (.call i st) w (s.workers w) else s
    | none => s
  | .opened w ok now =>
    match s.workers w with
    | .opening job i =>
      match (s.calls job.srcHost)[i]? with
      | some (.holding _) =>
        -- A failed RETR gives the connection back as broken.
        if ok then s.setStage w (.opened job i)
        else s.move cfg job.srcHost (.call i (.release true now)) w .idle
      | some .done => s.setStage w .idle
      | _ => s
    | _ => s
  | .takeConn w ok =>
    match s.workers w with
    | .opened job i =>
      if !ok then s.setStage w (.closing job i)
      else if s.connUsers < cfg.conns then s.setStage w (.slotWait job i)
      else s
    | _ => s
  | .takeSlot w ok =>
    match s.workers w with
    | .slotWait job i =>
      if !ok then s.setStage w (.closing job i)
      else if s.sendersTo job.dstHost < cfg.slots then
        s.move cfg job.dstHost .acquire w (.sending job i (s.calls job.dstHost).length)
      else s
    | _ => s
  | .sent w broken now =>
    match s.workers w with
    | .sending job i j =>
      match (s.calls job.dstHost)[j]? with
      | some (.holding _) =>
        s.move cfg job.dstHost (.call j (.release broken now)) w (.closing job i)
      | some .done => s.setStage w (.closing job i)
      | _ => s
    | _ => s
  | .close w broken now =>
    match s.workers w with
    | .closing job i => s.move cfg job.srcHost (.call i (.release broken now)) w .idle
    | _ => s

/-- The pod that a run reaches. -/
def podReach (cfg : PodConfig) (n : Nat) (as : List (PodAction n)) : Pod n :=
  as.foldl (podStep cfg) (Pod.init n)

/-- The worker waits in the `select` of `Acquire`, and its channel holds no
token. -/
def Pod.Blocked (s : Pod n) (w : Fin n) : Prop :=
  ∃ host i ch, (s.workers w).call? = some (host, i) ∧
    (s.calls host)[i]? = some (.parked ch) ∧ ch ∉ (s.pool.hosts host).tokens

/-- Every worker of the pod is blocked. -/
def Pod.Deadlocked (s : Pod n) : Prop := ∀ w, s.Blocked w

/-- The worker waits for a connection of the `hostcap` pool, and there is none. -/
def Pod.WaitsForConn (cfg : PodConfig) (s : Pod n) (w : Fin n) : Prop :=
  ∃ job i, s.workers w = .opened job i ∧ cfg.conns ≤ s.connUsers

/-- The worker waits for a slot of its destination, and there is none. -/
def Pod.WaitsForSlot (cfg : PodConfig) (s : Pod n) (w : Fin n) : Prop :=
  ∃ job i, s.workers w = .slotWait job i ∧ cfg.slots ≤ s.sendersTo job.dstHost

/-- Every worker of the pod waits for another one, in `Acquire` or in `hostcap`. -/
def Pod.Wedged (cfg : PodConfig) (s : Pod n) : Prop :=
  ∀ w, s.Blocked w ∨ s.WaitsForConn cfg w ∨ s.WaitsForSlot cfg w

end Model

end ImgSync.Ftp
