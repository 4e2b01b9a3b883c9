import ImgSync.Lib.Run
import ImgSync.Queue.Ops
import ImgSync.Sniffer.Query

/-!
# `RunOnce` against a changing source table

`runOnceImpl` of `internal/sniffer/sniffer.go` is four database calls: `Load`,
`Fetch`, `EnqueueBatch` and `Upsert`.  `World` holds the source table, the
queue, the watermark row and the point that the one running sniffer has
reached.  `step` interleaves the calls with commits of the source
application, with the other writers of the queue, and with crashes.

A version becomes visible no later than `bias` after its timestamp: a query
whose `NOW()` has reached `ts + bias` sees it.  `step` therefore takes a
commit only while every query so far had an earlier `NOW()`.
-/

namespace ImgSync.Sniffer

open ImgSync.Lib ImgSync.Queue

/-- The part of `Config` that `runOnceImpl` reads. -/
structure Config where
  sourceId : String
  query : Query
  dst : DstTemplate
  srcPattern : String
  srcProtocol : String
  dstProtocol : String

/-- `New` builds the renderer of the source pattern. -/
def Config.src (cfg : Config) : DstTemplate := { pattern := cfg.srcPattern, shadow := false }

/-- The job of one fetched row.  A row whose destination or source does not
render is skipped. -/
def Config.spec (cfg : Config) (lib : GoLib) (r : Row) : Option JobSpec :=
  match cfg.dst.render lib r.fields with
  | .error _ => none
  | .ok dst =>
    match cfg.src.render lib r.fields with
    | .error _ => none
    | .ok src =>
      some { traceId := traceID cfg.query.table r.pk, src := src, dst := dst,
             srcProtocol := cfg.srcProtocol, dstProtocol := cfg.dstProtocol }

/-- The loop that collects the renderable rows. -/
def Config.specs (cfg : Config) (lib : GoLib) (rows : List Row) : List JobSpec :=
  rows.filterMap (cfg.spec lib)

/-- The state that `Upsert` persists: the last fetched row. -/
def Config.advance (cfg : Config) (last : Row) : State :=
  { sourceId := cfg.sourceId, lastRunTS := last.ts, lastRunPK := last.pk }

/-- Where the running sniffer is in `runOnceImpl`. -/
inductive Phase where
  | idle
  | loaded (st : State)
  | fetched (rows : List Row)
  | enqueued (rows : List Row)

structure World (K : Type) where
  visible : List (Version K)
  /-- The latest `NOW()` of a query against the source database. -/
  clock : Time
  tables : Tables
  states : StateTable
  phase : Phase

/-- How a writing call ends.  `lost` commits and then returns an error. -/
inductive Outcome where
  | ok
  | lost
  | failed

/-- One step.  `commit` makes an inserted or updated row version visible;
`queue` is a statement of another writer of the two tables. -/
inductive Action (K : Type) where
  | commit (v : Version K)
  | delete (pk : K)
  | load (ok : Bool)
  | fetch (now : Time) (ok : Bool)
  | enqueueBatch (now : Time) (o : Outcome)
  | upsert (o : Outcome)
  | crash
  | queue (now : Time) (op : Op)

section System

variable {K : Type} [LinearOrder K] (lib : GoLib) (col : PkColumn K) (cfg : Config)

/-- The phase after `Fetch`.  An error and an empty batch end the poll. -/
def afterFetch : Except String (List Row) → Phase
  | .error _ => .idle
  | .ok [] => .idle
  | .ok (r :: rows) => .fetched (r :: rows)

def step (s : World K) : Action K → World K
  | .commit v =>
    if s.clock < v.ts + cfg.query.bias then
      { s with visible := v :: s.visible.filter fun x => decide (x.pk ≠ v.pk) }
    else s
  | .delete pk => { s with visible := s.visible.filter fun x => decide (x.pk ≠ pk) }
  | .load ok =>
    match s.phase with
    | .idle =>
      if ok then { s with phase := .loaded (s.states.load cfg.sourceId) } else s
    | _ => s
  | .fetch now ok =>
    match s.phase with
    | .loaded st =>
      if now < s.clock then s
      else if ok then
        { s with clock := now,
                 phase := afterFetch (cfg.query.fetch lib col s.visible now st) }
      else { s with clock := now, phase := .idle }
    | _ => s
  | .enqueueBatch now o =>
    match s.phase with
    | .fetched rows =>
      let t := exec s.tables now (.enqueueBatch (cfg.specs lib rows))
      match o with
      | .ok => { s with tables := t, phase := .enqueued rows }
      | .lost => { s with tables := t, phase := .idle }
      | .failed => { s with phase := .idle }
    | _ => s
  | .upsert o =>
    match s.phase with
    | .enqueued rows =>
      match rows.getLast?, o with
      | some last, .ok => { s with states := s.states.upsert (cfg.advance last), phase := .idle }
      | some last, .lost => { s with states := s.states.upsert (cfg.advance last), phase := .idle }
      | _, _ => { s with phase := .idle }
    | _ => s
  | .crash => { s with phase := .idle }
  | .queue now op =>
    match op with
    | .retention _ _ _ => s
    | op => { s with tables := exec s.tables now op }

/-- The first start: no watermark, an empty queue, and no visible row. -/
def World.init (clock : Time) : World K where
  visible := []
  clock := clock
  tables := Tables.empty
  states := fun _ => none
  phase := .idle

/-- The state that a run reaches. -/
def reach (clock : Time) (as : List (Action K)) : World K :=
  as.foldl (step lib col cfg) (World.init clock)

/-- The persisted watermark, with its key in the native type of the column.
There is none before the first `Upsert`. -/
def World.watermark (s : World K) : WithBot (Time ×ₗ K) :=
  match s.states cfg.sourceId with
  | none => ⊥
  | some r =>
    match r.lastRunPK.bind col.parse with
    | none => ⊥
    | some k => ((toLex (r.lastRunTS, k) : Time ×ₗ K) : WithBot (Time ×ₗ K))

end System

end ImgSync.Sniffer
