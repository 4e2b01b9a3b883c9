import ImgSync.Lib.Page
import ImgSync.Queue.Enqueue

/-!
# The sniffer's query, templates and watermark row

`internal/sniffer/query.go`, `traceid.go` and `state.go`.  The source table is
the list of its visible row versions, at most one for each primary key.

Three things are outside the repository and stay parameters:

* `PkColumn` is the primary key column: its native order, the text that Go
  prints for a key, and the cast of that text back to the native type;
* `GoLib` is `text/template` (with `missingkey=error`) and the RFC 3339
  rendering of a timestamp;
* the columns other than the key and the timestamp hold arbitrary values.
-/

namespace ImgSync.Sniffer

open ImgSync.Lib ImgSync.Queue

/-- A primary key column whose text form round-trips and is never empty. -/
structure PkColumn (K : Type) where
  goType : String
  text : K → String
  parse : String → Option K
  parse_text : ∀ k, parse (text k) = some k
  text_ne : ∀ k, text k ≠ ""

/-- A column value as `rows.Values()` returns it: `nil`, a `time.Time`, or a
value of some other Go type with its `%v` text. -/
inductive Value where
  | null
  | time (t : Time)
  | other (goType text : String)

/-- `%T` of a value. -/
def Value.goType : Value → String
  | .null => "<nil>"
  | .time _ => "time.Time"
  | .other goType _ => goType

/-- `Row.Fields`: column name to text. -/
abbrev Fields := String → Option String

/-- The library functions that the sniffer calls. -/
structure GoLib where
  Template : Type
  parse : String → Except String Template
  execute : Template → Fields → Except String String
  rfc3339Nano : Time → String

/-- The zero `time.Time`, 0001-01-01 00:00:00 UTC, in microseconds. -/
def zeroTime : Time := -62135596800000000

/-- A row version of the source table.  Its timestamp is after the zero
time. -/
structure Version (K : Type) where
  pk : K
  ts : Time
  extra : String → Value
  after_zero : zeroTime < ts

/-- The sort key of the query, `(ts, pk)` in lexicographic order. -/
def Version.key {K : Type} (v : Version K) : Time ×ₗ K := toLex (v.ts, v.pk)

/-- `Query`.  The bias is a `time.Duration` in nanoseconds. -/
structure Query where
  table : String
  pkColumn : String
  tsColumn : String
  extraColumns : List String
  batchSize : Int
  biasDuration : Int

/-- `int(q.BiasDuration.Seconds())`. -/
def Query.biasSec (q : Query) : Int := q.biasDuration.tdiv 1000000000

/-- The bias as an interval of the source database, in microseconds. -/
def Query.bias (q : Query) : Time := q.biasSec * 1000000

/-- `Row`. -/
structure Row where
  pk : String
  ts : Time
  fields : Fields

/-- `State`. -/
structure State where
  sourceId : String
  lastRunTS : Time
  lastRunPK : String

/-! ## Reading a row -/

section Scan

variable {K : Type} (lib : GoLib) (col : PkColumn K) (q : Query)

/-- The value of a row version in a named column. -/
def Version.value (v : Version K) (c : String) : Value :=
  if c = q.pkColumn then .other col.goType (col.text v.pk)
  else if c = q.tsColumn then .time v.ts
  else v.extra c

/-- The text that `Fetch` stores for a value. -/
def fieldText : Value → String
  | .null => ""
  | .time t => lib.rfc3339Nano t
  | .other _ text => text

/-- The selected columns. -/
def Query.cols : List String := q.pkColumn :: q.tsColumn :: q.extraColumns

/-- The loop that fills `r.Fields`. -/
def Version.fields (v : Version K) : Fields :=
  q.cols.foldl (fun f c => Function.update f c (some (fieldText lib (v.value col q c))))
    fun _ => none

/-- One iteration of `rows.Next()`. -/
def Query.scanRow (v : Version K) : Except String Row :=
  let fields := v.fields lib col q
  match v.value col q q.tsColumn with
  | .time ts => .ok { pk := (fields q.pkColumn).getD "", ts := ts, fields := fields }
  | other => .error ("unexpected ts type " ++ other.goType)

variable [LinearOrder K]

/-- The watermark predicate.  Without a carried-over key the query compares
the timestamp only; otherwise the key text is cast to the column's type, and
a text that is no key fails the query. -/
def State.after (st : State) : Except String (Version K → Bool) :=
  if st.lastRunPK = "" then
    .ok fun v => decide (st.lastRunTS < v.ts)
  else
    match col.parse st.lastRunPK with
    | none => .error "query: invalid input syntax"
    | some k =>
      .ok fun v => decide (st.lastRunTS < v.ts) ||
        (decide (v.ts = st.lastRunTS) && decide (k < v.pk))

/-- `Query.Fetch` over the visible row versions, with `now` the `NOW()` of
the source database. -/
def Query.fetch (visible : List (Version K)) (now : Time) (st : State) :
    Except String (List Row) :=
  if q.batchSize ≤ 0 then
    .error "batch_size must be > 0"
  else if !int4 q.biasSec then
    .error "query: bias is out of range for type integer"
  else do
    let after ← st.after col
    (page Version.key (fun v => after v && decide (v.ts ≤ now - q.bias)) q.batchSize.toNat
      visible).mapM (q.scanRow lib col)

end Scan

/-! ## Templates -/

/-- `TraceID`. -/
def traceID (sourceTable pk : String) : String := sourceTable ++ "-" ++ pk

/-- `DstTemplate`. -/
structure DstTemplate where
  pattern : String
  shadow : Bool

def shadowSuffix : String := ".imgsync_shadow_v1"

/-- `DstTemplate.Render`. -/
def DstTemplate.render (lib : GoLib) (t : DstTemplate) (fields : Fields) : Except String String :=
  if t.pattern = "" then
    .error "dst template: empty pattern"
  else
    match lib.parse t.pattern with
    | .error e => .error ("parse pattern: " ++ e)
    | .ok tmpl =>
      match lib.execute tmpl fields with
      | .error e => .error ("render: " ++ e)
      | .ok out => .ok (if t.shadow then out ++ shadowSuffix else out)

/-! ## The watermark row -/

/-- A row of `sniffer_state`. -/
structure StateRow where
  lastRunTS : Time
  lastRunPK : Option String

/-- `sniffer_state`, by `source_id`. -/
abbrev StateTable := String → Option StateRow

/-- `StateRepo.Load`. -/
def StateTable.load (t : StateTable) (sourceId : String) : State :=
  match t sourceId with
  | none => { sourceId := sourceId, lastRunTS := zeroTime, lastRunPK := "" }
  | some r => { sourceId := sourceId, lastRunTS := r.lastRunTS, lastRunPK := r.lastRunPK.getD "" }

/-- `StateRepo.Upsert`. -/
def StateTable.upsert (t : StateTable) (s : State) : StateTable :=
  Function.update t s.sourceId
    (some { lastRunTS := s.lastRunTS,
            lastRunPK := if s.lastRunPK = "" then none else some s.lastRunPK })

end ImgSync.Sniffer
