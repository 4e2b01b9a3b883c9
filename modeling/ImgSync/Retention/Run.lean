import ImgSync.Queue.Paths

/-!
# One retention sweep among the other writers

`retention.Sweep` (`internal/retention/retention.go`) is one transaction: a try
of the advisory lock, a loop of batched `DELETE`s, and the `COMMIT`.  `Server`
holds the committed tables and the point that the call has reached; the rows
that the transaction has deleted are still in the committed tables.  Other
clients commit statements at any time in between.

* `NOW()` is the start of the transaction in every batch.
* A `DELETE` sees what is committed when it runs, without the rows that its own
  transaction has deleted.
* While the call holds the lock, no other retention sweep gets it, and an enqueue
  of a key that the call has deleted waits.
* A statement of another client may have begun long before it commits.  `Timely` is
  the condition that its `NOW()` is not before the cutoff of the sweep.
* A `COMMIT` may take effect and lose its answer; the call then returns an error.
-/

namespace ImgSync.Retention

open ImgSync.Lib ImgSync.Queue

/-- The order in which the subquery of a batch meets the rows. -/
structure Scan where
  order : List JobRow → List JobRow
  perm : ∀ rows, (order rows).Perm rows

/-- Where the call is.  `gone` are the ids of the deleted rows. -/
inductive Phase where
  | begun (start : Time)
  | deleting (start : Time) (gone : List Nat) (deleted : Nat)
  | drained (start : Time) (gone : List Nat) (deleted : Nat)
  | returned (deleted : Nat) (err : Option String)
  deriving DecidableEq, Repr

structure Server where
  tables : Tables
  phase : Phase

/-- The next statement of the call with its answer, or a statement of another
client. -/
inductive Action where
  | lock (answer : Except String Bool)
  | delete (answer : Except String Scan)
  | commit (fault : Option Fault)
  | other (now : Time) (op : Op)

/-- `int(cfg.Window.Seconds())`. -/
def seconds (cfg : RetentionConfig) : Int := Duration.seconds cfg.window

/-- `NOW() - $1::INTERVAL` in a transaction that began at `start`. -/
def cutoff (cfg : RetentionConfig) (start : Time) : Time := start - secondsInterval (seconds cfg)

/-- The tables without the rows of the given ids, and without their events. -/
def without (t : Tables) (gone : List Nat) : Tables := t.deleteJobs fun r => gone.contains r.id

/-- The keys that an operation inserts. -/
def keysOf : Op → List (String × String)
  | .enqueue a => [(a.traceId, a.dst)]
  | .snifferEnqueue j => [j.key]
  | .enqueueBatch specs => specs.map JobSpec.key
  | _ => []

/-- Whether the statement is the one-step transaction of a retention sweep. -/
def isRetention : Op → Bool
  | .retention _ _ _ => true
  | _ => false

/-- Whether a statement of another client can commit now. -/
def Server.admits (s : Server) (op : Op) : Bool :=
  match s.phase with
  | .deleting _ gone _ | .drained _ gone _ =>
    !isRetention op &&
      s.tables.jobs.all fun r => !(gone.contains r.id && (keysOf op).contains r.key)
  | _ => true

/-- The return with an error; the transaction is rolled back. -/
def Server.fail (s : Server) (context text : String) : Server :=
  { s with phase := .returned 0 (some (context ++ text)) }

/-- `Sweep` up to `Begin`.  A window that is not positive disables it. -/
def beginTx (cfg : RetentionConfig) (t : Tables) (answer : Except String Time) : Server :=
  if cfg.window ≤ 0 then ⟨t, .returned 0 none⟩
  else
    match answer with
    | .error e => Server.fail ⟨t, .returned 0 none⟩ "retention: begin: " e
    | .ok start => ⟨t, .begun start⟩

/-- The ids that one `DELETE` of the loop deletes. -/
def batchIds (cfg : RetentionConfig) (t : Tables) (start : Time) (gone : List Nat) (scan : Scan) :
    List Nat :=
  victims scan.order start (seconds cfg) cfg.batch (without t gone)

def step (cfg : RetentionConfig) (s : Server) : Action → Server
  | .lock answer =>
    match s.phase with
    | .begun start =>
      match answer with
      | .error e => s.fail "retention: try advisory lock: " e
      | .ok locked =>
        if locked then { s with phase := .deleting start [] 0 }
        else { s with phase := .returned 0 none }
    | _ => s
  | .delete answer =>
    match s.phase with
    | .deleting start gone deleted =>
      match answer with
      | .error e => s.fail "retention: delete: " e
      | .ok scan =>
        let ids := batchIds cfg s.tables start gone scan
        if ids.length < cfg.batch then
          { s with phase := .drained start (gone ++ ids) (deleted + ids.length) }
        else { s with phase := .deleting start (gone ++ ids) (deleted + ids.length) }
    | _ => s
  | .commit fault =>
    match s.phase with
    | .drained _ gone deleted =>
      let committed : Server := ⟨without s.tables gone, .returned deleted none⟩
      match fault with
      | none => committed
      | some (.refused e) => s.fail "retention: commit: " e
      | some (.lost e) => committed.fail "retention: commit: " e
    | _ => s
  | .other now op => if s.admits op then { s with tables := exec s.tables now op } else s

/-- The server that a run of one call reaches. -/
def reach (cfg : RetentionConfig) (t : Tables) (begin : Except String Time) (as : List Action) :
    Server :=
  as.foldl (step cfg) (beginTx cfg t begin)

/-- The clock of the transaction, once it has begun. -/
def Phase.start : Phase → Option Time
  | .begun start | .deleting start _ _ | .drained start _ _ => some start
  | .returned _ _ => none

/-- A statement that another client commits while the transaction is open has a
`NOW()` that is not before the cutoff: it took less time than the window. -/
def Timely (cfg : RetentionConfig) (s : Server) : Action → Prop
  | .other now _ => ∀ start ∈ s.phase.start, cutoff cfg start ≤ now
  | _ => True

instance Timely.decidable (cfg : RetentionConfig) (s : Server) :
    (a : Action) → Decidable (Timely cfg s a)
  | .other now _ => inferInstanceAs (Decidable (∀ start ∈ s.phase.start, cutoff cfg start ≤ now))
  | .lock _ | .delete _ | .commit _ => isTrue trivial

end ImgSync.Retention
