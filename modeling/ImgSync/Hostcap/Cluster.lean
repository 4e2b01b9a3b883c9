import ImgSync.Lib.AdvisoryLock
import ImgSync.Lib.Run
import ImgSync.Queue.Schema

/-!
# The cap on concurrent transfers to a host

`CapTransport.Send` of `internal/hostcap/hostcap.go` takes a database
connection of its own, scans the `Cap` slots of the host for an advisory lock
that it can take in that session, runs the inner `Send`, unlocks and gives the
connection back.

`Cluster` is the lock table of the database and any number of `Send` calls,
on any number of pods.  Every statement that a call sends is a step of its
own.  What the model takes from Postgres and from `pgxpool`:

* a connection is one session, and belongs to one call at a time;
* the session of a call that holds a connection ends only through a failed
  statement of that call or when the call gives the connection back;
* a failed statement may or may not have had its effect, and may or may not
  end the session.

`hashtext` is any function.  The wait between two scans has no duration here.
-/

namespace ImgSync.Hostcap

open ImgSync.Lib ImgSync.Queue

/-- `Cap` after the default of `Wrap`. -/
def wrapCap (cap : Int) : Int := if cap ≤ 0 then 8 else cap

theorem wrapCap_pos (cap : Int) : 0 < wrapCap cap := by
  unfold wrapCap
  split <;> omega

/-- `slotKey`. -/
def slotKey (host : GoString) (slot : Nat) : GoString :=
  goString "ftp_host_" ++ host ++ goString "_" ++ goString (toString slot)

/-- 32-bit FNV-1a, as in `hash/fnv`. -/
def fnv32a (data : GoString) : UInt32 :=
  data.foldl (fun h b => (h ^^^ b.toUInt32) * 16777619) 2166136261

/-- `slotHash`.  The divisor is `uint32(cap)`, and `none` is the panic of a
division by zero. -/
def slotHash (host dst : GoString) (cap : Int) : Option Nat :=
  let divisor := (cap % 2 ^ 32).toNat
  if divisor = 0 then none else some ((fnv32a (host ++ [0] ++ dst)).toNat % divisor)

/-- The first statements of `acquireSlot`: the slot at which the scan starts.
The seed of the jitter is computed too, and its hash can panic as well. -/
def startSlot (host dst : GoString) (cap : Int) : Option Nat := do
  let start ← slotHash host dst cap
  let _seed ← slotHash host (dst ++ goString "#jitter") (cap * 7 + 13)
  return start

/-- The slot that a scan from `start` probes in its round `i`. -/
def probedSlot (start i : Nat) (cap : Int) : Nat := (start + i) % cap.toNat

/-- What `Send` returns: the number of bytes and the checksum, or the text of
the error. -/
abbrev Result := Except GoString (Int × GoString)

/-- The calls, and the functions that the code takes from outside. -/
structure CapConfig (n : Nat) where
  /-- `Config.Cap`, the same on every pod. -/
  cap : Int
  /-- `Config.Host` of the transport that runs the call. -/
  cfgHost : Fin n → GoString
  dst : Fin n → GoString
  /-- The host in `url.Parse(dst)`, unless that fails. -/
  urlHost : GoString → Option GoString
  /-- `hashtext` of Postgres. -/
  hashtext : GoString → Int

variable {n : Nat}

/-- The `host` of a call; the empty string when there is none. -/
def CapConfig.host (c : CapConfig n) (k : Fin n) : GoString :=
  if c.cfgHost k = [] then (c.urlHost (c.dst k)).getD [] else c.cfgHost k

/-- The key of the advisory lock of a slot. -/
def CapConfig.lockKey (c : CapConfig n) (host : GoString) (slot : Nat) : Int :=
  c.hashtext (slotKey host slot)

/-- Where a call of `Send` is. -/
inductive Phase where
  | start
  /-- In the inner loop of `acquireSlot`. -/
  | scanning (session start i : Nat)
  /-- In the `select` of `acquireSlot`. -/
  | waiting (session start : Nat)
  /-- Inside the inner `Send`. -/
  | sending (session slot : Nat)
  /-- The inner `Send` has returned; the deferred unlock is next. -/
  | unlocking (session slot : Nat) (r : Result)
  /-- The deferred `Release` is next. -/
  | releasing (session : Nat) (r : Result)
  | done (r : Result)

/-- The session of the connection that the call owns. -/
def Phase.session? : Phase → Option Nat
  | .start | .done _ => none
  | .scanning session _ _ | .waiting session _ | .sending session _ | .unlocking session _ _
  | .releasing session _ => some session

def Phase.isSending : Phase → Bool
  | .sending _ _ => true
  | _ => false

structure Cluster (n : Nat) where
  locks : Locks Nat Int
  phase : Fin n → Phase

inductive Action (n : Nat) where
  /-- `Send` derives the host and acquires a connection. -/
  | acquireConn (k : Fin n) (conn : Except GoString Nat)
  /-- One `pg_try_advisory_lock` of the scan. -/
  | probe (k : Fin n)
  /-- The statement fails, perhaps after it has taken the lock. -/
  | probeFails (k : Fin n) (err : GoString) (taken closed : Bool)
  /-- The wait between two scans is over. -/
  | wake (k : Fin n)
  /-- The context ends during the wait. -/
  | cancel (k : Fin n) (err : GoString)
  /-- The inner `Send` returns. -/
  | innerReturns (k : Fin n) (r : Result)
  /-- The deferred `pg_advisory_unlock`, with or without effect. -/
  | unlock (k : Fin n) (unlocked closed : Bool)
  /-- `Release` puts the connection back into the pool, or closes it. -/
  | release (k : Fin n) (closed : Bool)
  /-- A session that no call owns takes or gives back some key. -/
  | otherLock (session : Nat) (key : Int)
  | otherUnlock (session : Nat) (key : Int)
  /-- A session that no call owns ends. -/
  | otherEnds (session : Nat)

/-- No call owns the session. -/
def Cluster.unowned (s : Cluster n) (session : Nat) : Bool :=
  decide (∀ k, (s.phase k).session? ≠ some session)

/-- The call moves on to `p`, and leaves the lock table `t`. -/
def Cluster.move (s : Cluster n) (k : Fin n) (t : Locks Nat Int) (p : Phase) : Cluster n :=
  { locks := t, phase := Function.update s.phase k p }

/-- The table after a statement that may have ended its session. -/
def closeIf (closed : Bool) (t : Locks Nat Int) (session : Nat) : Locks Nat Int :=
  if closed then endSession t session else t

/-- `Send` up to the first probe. -/
def Cluster.acquireConn (c : CapConfig n) (s : Cluster n) (k : Fin n)
    (conn : Except GoString Nat) : Cluster n :=
  if c.host k = [] then
    s.move k s.locks (.done (.error (goString "hostcap: cannot derive host from dst")))
  else match conn with
    | .error err =>
      s.move k s.locks (.done (.error (goString "hostcap: acquire dedicated conn: " ++ err)))
    | .ok session =>
      if s.unowned session then
        match startSlot (c.host k) (c.dst k) (wrapCap c.cap) with
        | none =>
          -- The panic runs the deferred `Release`.
          s.move k s.locks
            (.releasing session (.error (goString "runtime error: integer divide by zero")))
        | some start => s.move k s.locks (.scanning session start 0)
      else s

/-- One round of the inner loop of `acquireSlot`. -/
def Cluster.probe (c : CapConfig n) (s : Cluster n) (k : Fin n) (session start i : Nat) :
    Cluster n :=
  let slot := probedSlot start i (wrapCap c.cap)
  let (t, got) := tryLock s.locks session (c.lockKey (c.host k) slot)
  if got then s.move k t (.sending session slot)
  else if ((i + 1 : Nat) : Int) < wrapCap c.cap then s.move k t (.scanning session start (i + 1))
  else s.move k t (.waiting session start)

def step (c : CapConfig n) (s : Cluster n) : Action n → Cluster n
  | .acquireConn k conn =>
    match s.phase k with
    | .start => s.acquireConn c k conn
    | _ => s
  | .probe k =>
    match s.phase k with
    | .scanning session start i => s.probe c k session start i
    | _ => s
  | .probeFails k err taken closed =>
    match s.phase k with
    | .scanning session start i =>
      let key := c.lockKey (c.host k) (probedSlot start i (wrapCap c.cap))
      let t := if taken then (tryLock s.locks session key).1 else s.locks
      s.move k (closeIf closed t session)
        (.releasing session (.error (goString "hostcap: try lock: " ++ err)))
    | _ => s
  | .wake k =>
    match s.phase k with
    | .waiting session start => s.move k s.locks (.scanning session start 0)
    | _ => s
  | .cancel k err =>
    match s.phase k with
    | .waiting session _ => s.move k s.locks (.releasing session (.error err))
    | _ => s
  | .innerReturns k r =>
    match s.phase k with
    | .sending session slot => s.move k s.locks (.unlocking session slot r)
    | _ => s
  | .unlock k unlocked closed =>
    match s.phase k with
    | .unlocking session slot r =>
      let key := c.lockKey (c.host k) slot
      let t := if unlocked then Lib.unlock s.locks session key else s.locks
      s.move k (closeIf closed t session) (.releasing session r)
    | _ => s
  | .release k closed =>
    match s.phase k with
    | .releasing session r => s.move k (closeIf closed s.locks session) (.done r)
    | _ => s
  | .otherLock session key =>
    if s.unowned session then { s with locks := (tryLock s.locks session key).1 } else s
  | .otherUnlock session key =>
    if s.unowned session then { s with locks := Lib.unlock s.locks session key } else s
  | .otherEnds session =>
    if s.unowned session then { s with locks := endSession s.locks session } else s

/-- The cluster after the run, from any lock table and before any call has
started. -/
def reach (c : CapConfig n) (locks : Locks Nat Int) (as : List (Action n)) : Cluster n :=
  as.foldl (step c) { locks := locks, phase := fun _ => .start }

/-- The calls for the host that are inside the inner `Send`. -/
def Cluster.sends (c : CapConfig n) (s : Cluster n) (host : GoString) : Finset (Fin n) :=
  Finset.univ.filter fun k => c.host k = host ∧ (s.phase k).isSending = true

end ImgSync.Hostcap
