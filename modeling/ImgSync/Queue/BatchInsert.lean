import ImgSync.Lib.Decimal
import ImgSync.Queue.Paths

/-!
# The statement of `EnqueueBatch`

`EnqueueBatch` (`internal/sniffer/enqueue.go`) writes the text of a multi-row
`INSERT` and collects its arguments side by side.  The two meet again in the
database, which reads the placeholders of the text and takes the arguments by
their numbers.

There are three groups.

* `buildBatch` is the loop of the source.  `parseInsert` and `InsertStmt.bindTuple`
  are the reading side: they take the table, the columns, the placeholders and the
  conflict target from the text.
* The text reads back: tuple `i` has the placeholders `5 * i + 1` to
  `5 * i + 5` (`parseInsert_buildBatch`), and each column is bound to its field of
  job `i` (`value_buildBatch`).  So the statement inserts the jobs
  (`enqueueBatch_eq`), which is what `Queue.enqueueBatch` says.
* `insertAll` against repeated `Enqueue` calls, whose rows have clock readings
  of their own.
-/

namespace ImgSync.Queue

open ImgSync.Lib

/-! ## The text and the arguments -/

/-- The text in front of the tuples. -/
def insertHead : List Char :=
  "INSERT INTO transfer_jobs (trace_id, src, dst, src_protocol, dst_protocol) VALUES ".toList

/-- The text behind the tuples. -/
def insertTail : List Char := " ON CONFLICT (trace_id, dst) DO NOTHING".toList

/-- The tuple whose first placeholder is `$(n+1)`. -/
def tupleText (n : Nat) : List Char :=
  ['(', '$'] ++ itoa (n + 1) ++ [',', '$'] ++ itoa (n + 2) ++ [',', '$'] ++ itoa (n + 3) ++
    [',', '$'] ++ itoa (n + 4) ++ [',', '$'] ++ itoa (n + 5) ++ [')']

/-- The arguments of one job. -/
def JobSpec.values (j : JobSpec) : List String :=
  [j.traceId, j.src, j.dst, j.srcProtocol, j.dstProtocol]

/-- The loop of `EnqueueBatch` from index `i` on, with the text and the
arguments so far. -/
def buildLoop : Nat → List JobSpec → List Char → List String → List Char × List String
  | _, [], b, args => (b, args)
  | i, j :: rest, b, args =>
    let b := if i > 0 then b ++ [','] else b
    let n := i * 5
    buildLoop (i + 1) rest (b ++ tupleText n) (args ++ j.values)

/-- The statement and its arguments. -/
def buildBatch (specs : List JobSpec) : List Char × List String :=
  let (b, args) := buildLoop 0 specs insertHead []
  (b ++ insertTail, args)

/-! ## Reading the statement -/

/-- The placeholders up to the closing bracket of a tuple. -/
def readParams : Nat → List Char → Option (List Nat × List Char)
  | fuel + 1, '$' :: cs => do
    let (k, cs) ← readNat cs
    match cs with
    | ')' :: cs => some ([k], cs)
    | ',' :: cs =>
      let (ks, cs) ← readParams fuel cs
      some (k :: ks, cs)
    | _ => none
  | _, _ => none

/-- The tuples of a `VALUES` list, and the text behind it. -/
def readTuples : Nat → List Char → Option (List (List Nat) × List Char)
  | fuel + 1, '(' :: cs => do
    let (ks, cs) ← readParams fuel cs
    match cs with
    | ',' :: cs =>
      let (tuples, cs) ← readTuples fuel cs
      some (ks :: tuples, cs)
    | cs => some ([ks], cs)
  | _, _ => none

/-- A character of a name. -/
def nameChar (c : Char) : Bool := c.isAlphanum || c == '_'

/-- The names of a list up to its closing bracket. -/
def readNames : Nat → List Char → Option (List String × List Char)
  | 0, _ => none
  | fuel + 1, cs =>
    let name := String.ofList (cs.takeWhile nameChar)
    match cs.dropWhile nameChar with
    | ')' :: cs => some ([name], cs)
    | ',' :: ' ' :: cs => do
      let (names, cs) ← readNames fuel cs
      some (name :: names, cs)
    | _ => none

/-- The text behind a fixed part of the statement. -/
def keyword (word : String) (cs : List Char) : Option (List Char) := word.toList.isPrefixOf? cs

/-- `INSERT INTO table (columns) VALUES tuples ON CONFLICT (target) DO NOTHING`.  A
tuple is the list of its placeholder numbers. -/
structure InsertStmt where
  table : String
  columns : List String
  tuples : List (List Nat)
  target : List String
  deriving DecidableEq, Repr

/-- The statement that the text is.  Every name and every tuple has at least one
character, so the length of the text is fuel enough. -/
def parseInsert (text : List Char) : Option InsertStmt := do
  let cs ← keyword "INSERT INTO " text
  let table := String.ofList (cs.takeWhile nameChar)
  let cs ← keyword " (" (cs.dropWhile nameChar)
  let (columns, cs) ← readNames text.length cs
  let cs ← keyword " VALUES " cs
  let (tuples, cs) ← readTuples text.length cs
  let cs ← keyword " ON CONFLICT (" cs
  let (target, cs) ← readNames text.length cs
  let cs ← keyword " DO NOTHING" cs
  if cs = [] then some ⟨table, columns, tuples, target⟩ else none

/-- `$k`. -/
def argument (args : List String) : Nat → Option String
  | 0 => none
  | k + 1 => args[k]?

/-- The value that a tuple has for a column. -/
def InsertStmt.value (st : InsertStmt) (args : List String) (tuple : List Nat) (column : String) :
    Option String :=
  ((st.columns.zip tuple).lookup column).bind (argument args)

/-- The row of a tuple.  The model has the five columns of a job, and none of them
has a default. -/
def InsertStmt.bindTuple (st : InsertStmt) (args : List String) (tuple : List Nat) :
    Option JobSpec := do
  if tuple.length ≠ st.columns.length ∨ st.columns.length ≠ 5 then none
  else
    some ⟨← st.value args tuple "trace_id", ← st.value args tuple "src",
      ← st.value args tuple "dst", ← st.value args tuple "src_protocol",
      ← st.value args tuple "dst_protocol"⟩

/-- The parameters of one statement of the extended protocol, at most. -/
def maxParams : Nat := 65535

/-- `pool.Exec` of the statement. -/
def execInsert (t : Tables) (now : Time) (text : List Char) (args : List String) :
    Tables × Except String Nat :=
  match parseInsert text with
  | none => (t, .error "syntax error")
  | some st =>
    if st.tuples.flatten.foldl max 0 ≠ args.length then
      (t, .error "mismatched param and argument count")
    else if maxParams < args.length then
      (t, .error "extended protocol limited to 65535 parameters")
    else if st.table ≠ "transfer_jobs" then (t, .error "relation does not exist")
    -- The only unique index of the table that a target can name.
    else if ¬st.target.Perm ["trace_id", "dst"] then
      (t, .error "there is no unique constraint matching the ON CONFLICT specification")
    else
      match st.tuples.mapM (st.bindTuple args) with
      | none => (t, .error "the columns do not match")
      | some specs =>
        let (t', n) := insertAll now t specs
        (t', .ok n)

/-- `Enqueuer.EnqueueBatch`. -/
def Enqueuer.enqueueBatch (fault : Option Fault) (t : Tables) (now : Time)
    (specs : List JobSpec) : Tables × Except String Nat :=
  if specs.isEmpty then (t, .ok 0)
  else
    let fail := fun e => Except.error ("enqueue batch of " ++ toString specs.length ++ ": " ++ e)
    let (text, args) := buildBatch specs
    match fault with
    | some (.refused e) => (t, fail e)
    | some (.lost e) =>
      match execInsert t now text args with
      | (t', .ok _) => (t', fail e)
      | (t', .error e') => (t', fail e')
    | none =>
      match execInsert t now text args with
      | (t', .ok n) => (t', .ok n)
      | (t', .error e) => (t', fail e)

/-! ## The text reads back -/

theorem endsNumber_cons {c : Char} (hc : c.isDigit = false) (rest : List Char) :
    EndsNumber (c :: rest) :=
  fun _ hd => Option.some.inj hd ▸ hc

theorem readParams_last (fuel n : Nat) (rest : List Char) :
    readParams (fuel + 1) ('$' :: (itoa n ++ ')' :: rest)) = some ([n], rest) := by
  rw [readParams, readNat_itoa n (endsNumber_cons rfl _)]
  rfl

theorem readParams_more {fuel n : Nat} {ks : List Nat} {text rest : List Char}
    (h : readParams fuel text = some (ks, rest)) :
    readParams (fuel + 1) ('$' :: (itoa n ++ ',' :: text)) = some (n :: ks, rest) := by
  rw [readParams, readNat_itoa n (endsNumber_cons rfl _)]
  simp [h]

/-- The placeholders of a tuple. -/
def tupleNumbers (n : Nat) : List Nat := [n + 1, n + 2, n + 3, n + 4, n + 5]

theorem readParams_tuple (fuel n : Nat) (rest : List Char) :
    ∃ text, tupleText n ++ rest = '(' :: text ∧
      readParams (fuel + 5) text = some (tupleNumbers n, rest) := by
  refine ⟨'$' :: (itoa (n + 1) ++ ',' :: '$' :: (itoa (n + 2) ++ ',' :: '$' :: (itoa (n + 3) ++
    ',' :: '$' :: (itoa (n + 4) ++ ',' :: '$' :: (itoa (n + 5) ++ ')' :: rest))))), ?_, ?_⟩
  · simp [tupleText]
  · exact readParams_more (readParams_more (readParams_more (readParams_more
      (readParams_last fuel (n + 5) rest))))

theorem readTuples_last (fuel n : Nat) :
    readTuples (fuel + 6) (tupleText n ++ insertTail) = some ([tupleNumbers n], insertTail) := by
  obtain ⟨text, htext, hparams⟩ := readParams_tuple fuel n insertTail
  have htail : insertTail = ' ' :: insertTail.tail := by decide +kernel
  rw [htext, readTuples, hparams, htail]
  rfl

theorem readTuples_more {fuel n : Nat} {tuples : List (List Nat)} {text rest : List Char}
    (h : readTuples (fuel + 5) text = some (tuples, rest)) :
    readTuples (fuel + 6) (tupleText n ++ ',' :: text) = some (tupleNumbers n :: tuples, rest) := by
  obtain ⟨text', htext, hparams⟩ := readParams_tuple fuel n (',' :: text)
  rw [htext, readTuples, hparams]
  simp [h]

/-- The text of the tuples from index `i` on, with the comma in front of every
tuple but the first. -/
def tuplesText : Nat → Nat → List Char
  | _, 0 => []
  | i, k + 1 => (if i > 0 then [','] else []) ++ tupleText (i * 5) ++ tuplesText (i + 1) k

/-- What the loop has written when it is done. -/
theorem buildLoop_eq (specs : List JobSpec) (i : Nat) (b : List Char) (args : List String) :
    buildLoop i specs b args =
      (b ++ tuplesText i specs.length, args ++ specs.flatMap JobSpec.values) := by
  induction specs generalizing i b args with
  | nil => simp [buildLoop, tuplesText]
  | cons j rest ih =>
    have hcomma : (if i > 0 then b ++ [','] else b) = b ++ (if i > 0 then [','] else []) := by
      split <;> simp
    simp only [buildLoop, ih, hcomma]
    simp [tuplesText]

theorem buildBatch_eq (specs : List JobSpec) :
    buildBatch specs =
      (insertHead ++ (tuplesText 0 specs.length ++ insertTail), specs.flatMap JobSpec.values) := by
  simp [buildBatch, buildLoop_eq]

/-- The tuples behind the first one, read with a comma in front. -/
theorem readTuples_text (k : Nat) {i fuel : Nat} (hfuel : k ≤ fuel) :
    readTuples (fuel + 6) (tupleText (i * 5) ++ (tuplesText (i + 1) k ++ insertTail)) =
      some ((List.range' i (k + 1)).map fun i => tupleNumbers (i * 5), insertTail) := by
  induction k generalizing i fuel with
  | zero =>
    simpa [tuplesText] using readTuples_last fuel (i * 5)
  | succ k ih =>
    obtain ⟨fuel, rfl⟩ : ∃ f, fuel = f + 1 := ⟨fuel - 1, by omega⟩
    have hrest := ih (i := i + 1) (Nat.le_of_succ_le_succ hfuel)
    have hmore := readTuples_more (n := i * 5) hrest
    rw [List.range'_succ, List.map_cons, ← hmore]
    simp [tuplesText]

theorem length_tupleText (n : Nat) : 6 ≤ (tupleText n).length := by
  simp only [tupleText, List.length_append, List.length_cons, List.length_nil]
  omega

theorem length_tuplesText (i k : Nat) : k * 6 ≤ (tuplesText i k).length := by
  induction k generalizing i with
  | zero => exact Nat.zero_le _
  | succ k ih =>
    have htuple := length_tupleText (i * 5)
    have hrest := ih (i + 1)
    simp only [tuplesText, List.length_append]
    omega

theorem keyword_append (word : String) (cs : List Char) :
    keyword word (word.toList ++ cs) = some cs :=
  List.isPrefixOf?_eq_some_iff_append_eq.mpr rfl

/-- A name ends at the first other character. -/
theorem takeWhile_name (name : String) (hname : ∀ c ∈ name.toList, nameChar c = true) {c : Char}
    (hc : nameChar c = false) (rest : List Char) :
    String.ofList ((name.toList ++ c :: rest).takeWhile nameChar) = name ∧
      (name.toList ++ c :: rest).dropWhile nameChar = c :: rest := by
  have hstop : ¬nameChar c = true := Bool.eq_false_iff.mp hc
  rw [List.takeWhile_append_of_pos hname, List.dropWhile_append_of_pos hname,
    List.takeWhile_cons_of_neg hstop, List.dropWhile_cons_of_neg hstop, List.append_nil,
    String.ofList_toList]
  exact ⟨rfl, rfl⟩

theorem readNames_last {name : String} (hname : ∀ c ∈ name.toList, nameChar c = true)
    (fuel : Nat) (rest : List Char) :
    readNames (fuel + 1) (name.toList ++ ')' :: rest) = some ([name], rest) := by
  obtain ⟨htake, hdrop⟩ := takeWhile_name name hname (c := ')') rfl rest
  rw [readNames, htake, hdrop]
  rfl

theorem readNames_more {name : String} (hname : ∀ c ∈ name.toList, nameChar c = true)
    {fuel : Nat} {names : List String} {text rest : List Char}
    (h : readNames fuel text = some (names, rest)) :
    readNames (fuel + 1) (name.toList ++ ',' :: ' ' :: text) = some (name :: names, rest) := by
  obtain ⟨htake, hdrop⟩ := takeWhile_name name hname (c := ',') rfl (' ' :: text)
  rw [readNames, htake, hdrop]
  show (readNames fuel text).bind (fun x => some (name :: x.1, x.2)) = _
  rw [h]
  rfl

/-- A list of names, up to its closing bracket. -/
def namesText : List String → List Char
  | [] => [')']
  | [name] => name.toList ++ [')']
  | name :: names => name.toList ++ ',' :: ' ' :: namesText names

theorem readNames_text (names : List String) (hne : names ≠ [])
    (hnames : ∀ name ∈ names, ∀ c ∈ name.toList, nameChar c = true) {fuel : Nat}
    (hfuel : names.length ≤ fuel) (rest : List Char) :
    readNames fuel (namesText names ++ rest) = some (names, rest) := by
  induction names generalizing fuel with
  | nil => exact absurd rfl hne
  | cons name names ih =>
    obtain ⟨fuel, rfl⟩ : ∃ f, fuel = f + 1 := ⟨fuel - 1, by rw [List.length_cons] at hfuel; omega⟩
    have hname := hnames name List.mem_cons_self
    cases names with
    | nil =>
      rw [namesText, List.append_assoc]
      exact readNames_last hname fuel rest
    | cons next names =>
      have hrest := ih (List.cons_ne_nil next names)
        (fun n hn => hnames n (List.mem_cons_of_mem name hn)) (Nat.le_of_succ_le_succ hfuel)
      rw [namesText, List.append_assoc]
      · exact readNames_more hname hrest
      · exact List.cons_ne_nil next names

/-- The columns of the statement. -/
def jobColumns : List String := ["trace_id", "src", "dst", "src_protocol", "dst_protocol"]

theorem insertHead_eq : insertHead =
    "INSERT INTO ".toList ++ ("transfer_jobs".toList ++ (" (".toList ++ (namesText jobColumns ++
      " VALUES ".toList))) := by
  decide +kernel

theorem insertTail_eq : insertTail =
    " ON CONFLICT (".toList ++ (namesText ["trace_id", "dst"] ++ " DO NOTHING".toList) := by
  decide +kernel

/-- The text in front of the tuples, part by part. -/
theorem read_insertHead {fuel : Nat} (hfuel : 5 ≤ fuel) (rest : List Char) : ∃ cs₁ cs₂ cs₃ cs₄,
    keyword "INSERT INTO " (insertHead ++ rest) = some cs₁ ∧
    String.ofList (cs₁.takeWhile nameChar) = "transfer_jobs" ∧ cs₁.dropWhile nameChar = cs₂ ∧
    keyword " (" cs₂ = some cs₃ ∧ readNames fuel cs₃ = some (jobColumns, cs₄) ∧
    keyword " VALUES " cs₄ = some rest := by
  have hspace : " (".toList = [' ', '('] := by simp
  have hcolumns := readNames_text jobColumns (by decide) (by simp [jobColumns, nameChar]) hfuel
    (" VALUES ".toList ++ rest)
  obtain ⟨htable, hbehind⟩ := takeWhile_name "transfer_jobs" (by simp [nameChar])
    (c := ' ') rfl ('(' :: (namesText jobColumns ++ (" VALUES ".toList ++ rest)))
  refine ⟨_, _, _, _, ?_, htable, hbehind, ?_, hcolumns, keyword_append _ rest⟩
  · rw [insertHead_eq, hspace, List.append_assoc, List.append_assoc, List.append_assoc,
      List.append_assoc]
    exact keyword_append _ _
  · have happend := keyword_append " (" (namesText jobColumns ++ (" VALUES ".toList ++ rest))
    rwa [hspace] at happend

/-- The text behind the tuples. -/
theorem read_insertTail {fuel : Nat} (hfuel : 2 ≤ fuel) : ∃ cs₁ cs₂,
    keyword " ON CONFLICT (" insertTail = some cs₁ ∧
    readNames fuel cs₁ = some (["trace_id", "dst"], cs₂) ∧
    keyword " DO NOTHING" cs₂ = some [] := by
  have htarget := readNames_text ["trace_id", "dst"] (by decide) (by simp [nameChar])
    hfuel " DO NOTHING".toList
  refine ⟨_, _, ?_, htarget, ?_⟩
  · rw [insertTail_eq]
    exact keyword_append _ _
  · have happend := keyword_append " DO NOTHING" []
    rwa [List.append_nil] at happend

/-- The statement around its tuples. -/
theorem parseInsert_eq {tuples : List (List Nat)} {body : List Char}
    (hfuel : 5 ≤ (insertHead ++ (body ++ insertTail)).length)
    (h : readTuples (insertHead ++ (body ++ insertTail)).length (body ++ insertTail) =
      some (tuples, insertTail)) :
    parseInsert (insertHead ++ (body ++ insertTail)) =
      some ⟨"transfer_jobs", jobColumns, tuples, ["trace_id", "dst"]⟩ := by
  obtain ⟨cs₁, cs₂, cs₃, cs₄, hinto, htable, hbehind, hbracket, hcolumns, hvalues⟩ :=
    read_insertHead hfuel (body ++ insertTail)
  obtain ⟨cs₅, cs₆, hconflict, htarget, hnothing⟩ :=
    read_insertTail (le_trans (by decide) hfuel)
  unfold parseInsert
  generalize (insertHead ++ (body ++ insertTail)).length = fuel at *
  simp only [hinto, htable, hbehind, hbracket, hcolumns, hvalues, h, hconflict,
    htarget, hnothing, Option.bind_eq_bind, Option.bind_some, if_true]

/-- The statement for a batch of `n` jobs. -/
def batchStmt (n : Nat) : InsertStmt where
  table := "transfer_jobs"
  columns := jobColumns
  tuples := (List.range n).map fun i => tupleNumbers (i * 5)
  target := ["trace_id", "dst"]

/-- Tuple `i` of the statement has the placeholders `5 * i + 1` to
`5 * i + 5`. -/
theorem parseInsert_buildBatch {specs : List JobSpec} (hne : specs ≠ []) :
    parseInsert (buildBatch specs).1 = some (batchStmt specs.length) := by
  obtain ⟨k, hk⟩ : ∃ k, specs.length = k + 1 :=
    Nat.exists_eq_succ_of_ne_zero (List.length_pos_iff.mpr hne).ne'
  -- The tuples alone are long enough for the fuel.
  obtain ⟨fuel, hle, hfuel⟩ : ∃ fuel, k ≤ fuel ∧
      (insertHead ++ (tuplesText 0 (k + 1) ++ insertTail)).length = fuel + 6 := by
    have hlen := length_tuplesText 0 (k + 1)
    refine ⟨_ - 6, ?_, (Nat.sub_add_cancel ?_).symm⟩ <;>
      simp only [List.length_append] <;> omega
  rw [buildBatch_eq, hk]
  refine parseInsert_eq (by omega) ?_
  rw [hfuel, show tuplesText 0 (k + 1) ++ insertTail =
    tupleText (0 * 5) ++ (tuplesText 1 k ++ insertTail) by simp [tuplesText],
    readTuples_text k (i := 0) hle, ← List.range_eq_range']

/-! ## The arguments are found -/

theorem length_values (specs : List JobSpec) :
    (specs.flatMap JobSpec.values).length = specs.length * 5 := by
  simp [List.length_flatMap, JobSpec.values]

/-- The arguments lie five by five. -/
theorem getElem?_values (specs : List JobSpec) (i : Nat) {c : Nat} (hc : c < 5) :
    (specs.flatMap JobSpec.values)[i * 5 + c]? = specs[i]?.bind fun j => j.values[c]? := by
  induction specs generalizing i with
  | nil => rfl
  | cons j rest ih =>
    have hlen : j.values.length = 5 := rfl
    rw [List.flatMap_cons]
    cases i with
    | zero =>
      rw [List.getElem?_append_left (by omega), Nat.zero_mul, Nat.zero_add]
      rfl
    | succ i =>
      rw [List.getElem?_append_right (by omega), List.getElem?_cons_succ, ← ih i, hlen]
      congr 1
      omega

/-- The placeholders of tuple `i` are the fields of job `i`. -/
theorem argument_buildBatch {specs : List JobSpec} {i : Nat} (hi : i < specs.length) :
    (tupleNumbers (i * 5)).map (argument (buildBatch specs).2) = specs[i].values.map some := by
  have hget : ∀ c < 5, argument (buildBatch specs).2 (i * 5 + c + 1) = specs[i].values[c]? := by
    intro c hc
    rw [buildBatch_eq]
    show (specs.flatMap JobSpec.values)[i * 5 + c]? = _
    rw [getElem?_values specs i hc, List.getElem?_eq_getElem hi, Option.bind_some]
  simp only [tupleNumbers, List.map_cons, List.map_nil, JobSpec.values]
  rw [hget 0 (by decide), hget 1 (by decide), hget 2 (by decide), hget 3 (by decide),
    hget 4 (by decide)]
  rfl

/-- The columns take the placeholders in their order. -/
theorem value_batchStmt (n m : Nat) (args : List String) :
    jobColumns.map ((batchStmt n).value args (tupleNumbers m)) =
      (tupleNumbers m).map (argument args) := by
  simp [InsertStmt.value, batchStmt, jobColumns, tupleNumbers, List.lookup_cons]

/-- Tuple `i` has the fields of job `i`, each in its column. -/
theorem value_buildBatch {specs : List JobSpec} {i : Nat} (hi : i < specs.length) :
    jobColumns.map ((batchStmt specs.length).value (buildBatch specs).2 (tupleNumbers (i * 5))) =
      specs[i].values.map some :=
  (value_batchStmt _ _ _).trans (argument_buildBatch hi)

theorem bindTuple_buildBatch {specs : List JobSpec} {i : Nat} (hi : i < specs.length) :
    (batchStmt specs.length).bindTuple (buildBatch specs).2 (tupleNumbers (i * 5)) =
      some specs[i] := by
  have hvalues := value_buildBatch hi
  have hlen : ¬((tupleNumbers (i * 5)).length ≠ (batchStmt specs.length).columns.length ∨
      (batchStmt specs.length).columns.length ≠ 5) := by
    rintro (h | h) <;> exact h rfl
  simp only [jobColumns, List.map_cons, List.map_nil, JobSpec.values, List.cons.injEq,
    and_true] at hvalues
  obtain ⟨htrace, hsrc, hdst, hsrcp, hdstp⟩ := hvalues
  rw [InsertStmt.bindTuple, if_neg hlen, htrace, hsrc, hdst, hsrcp, hdstp]
  rfl

theorem mapM_bindTuple (specs : List JobSpec) :
    (batchStmt specs.length).tuples.mapM
      ((batchStmt specs.length).bindTuple (buildBatch specs).2) = some specs := by
  have hbind : ((batchStmt specs.length).bindTuple (buildBatch specs).2 ∘
        fun i => tupleNumbers (i * 5)) ∘ (fun i : Fin specs.length => i.val) =
      fun i => pure (specs.get i) :=
    funext fun i => bindTuple_buildBatch i.isLt
  show ((List.range specs.length).map fun i => tupleNumbers (i * 5)).mapM _ = _
  rw [← List.map_coe_finRange_eq_range, List.mapM_map, List.mapM_map, hbind, List.mapM_pure,
    List.map_get_finRange]
  rfl

/-- The highest placeholder is the number of the arguments. -/
theorem max_tupleNumbers (n : Nat) :
    ((List.range n).map fun i => tupleNumbers (i * 5)).flatten.foldl max 0 = n * 5 := by
  induction n with
  | zero => rfl
  | succ n ih =>
    rw [List.range_succ, List.map_append, List.flatten_append, List.foldl_append, ih]
    simp [tupleNumbers]
    omega

/-- The statement has five parameters for each job. -/
theorem length_args (specs : List JobSpec) : (buildBatch specs).2.length = specs.length * 5 := by
  rw [buildBatch_eq, length_values]

/-- The statement inserts the jobs, or has too many parameters. -/
theorem execInsert_buildBatch (t : Tables) (now : Time) {specs : List JobSpec} (hne : specs ≠ []) :
    execInsert t now (buildBatch specs).1 (buildBatch specs).2 =
      if maxParams < specs.length * 5 then
        (t, .error "extended protocol limited to 65535 parameters")
      else ((insertAll now t specs).1, .ok (insertAll now t specs).2) := by
  have hmax : (batchStmt specs.length).tuples.flatten.foldl max 0 = specs.length * 5 :=
    max_tupleNumbers specs.length
  have htable : (batchStmt specs.length).table = "transfer_jobs" := rfl
  have htarget : (batchStmt specs.length).target.Perm ["trace_id", "dst"] := .refl _
  simp only [execInsert, parseInsert_buildBatch hne, hmax, length_args, ne_eq, not_true_eq_false,
    if_false, htable, htarget, mapM_bindTuple]

/-- The error of a statement with too many parameters. -/
def tooManyParams (n : Nat) : String :=
  "enqueue batch of " ++ toString n ++ ": " ++ "extended protocol limited to 65535 parameters"

/-- `EnqueueBatch` with its statement is `Queue.enqueueBatch`, up to the number
of parameters. -/
theorem enqueueBatch_eq (t : Tables) (now : Time) (specs : List JobSpec) :
    Enqueuer.enqueueBatch none t now specs =
      if maxParams < specs.length * 5 then (t, .error (tooManyParams specs.length))
      else ((enqueueBatch t now specs).1, .ok (enqueueBatch t now specs).2) := by
  cases specs with
  | nil => rfl
  | cons j rest =>
    have hexec := execInsert_buildBatch t now (List.cons_ne_nil j rest)
    simp only [Enqueuer.enqueueBatch, enqueueBatch, List.isEmpty_cons, Bool.false_eq_true,
      if_false, hexec]
    split_ifs
    · rfl
    · rfl

/-- A lost answer turns the success into an error. -/
theorem enqueueBatch_lost_eq (t : Tables) (now : Time) {specs : List JobSpec} (hne : specs ≠ [])
    (e : String) :
    Enqueuer.enqueueBatch (some (.lost e)) t now specs =
      if maxParams < specs.length * 5 then (t, .error (tooManyParams specs.length))
      else ((enqueueBatch t now specs).1,
        .error ("enqueue batch of " ++ toString specs.length ++ ": " ++ e)) := by
  have hexec := execInsert_buildBatch t now hne
  have hempty : specs.isEmpty = false := by rwa [List.isEmpty_eq_false_iff]
  simp only [Enqueuer.enqueueBatch, enqueueBatch, hempty, Bool.false_eq_true, if_false, hexec]
  split_ifs
  · rfl
  · rfl

/-- The statement of a failed call committed. -/
def committed (fault : Option Fault) (specs : List JobSpec) : Bool :=
  match fault with
  | some (.lost _) => decide (specs.length * 5 ≤ maxParams)
  | _ => false

/-- A failed `EnqueueBatch` has no effect, or its statement committed and the
answer was lost. -/
theorem enqueueBatch_error {fault : Option Fault} {t t' : Tables} {now : Time}
    {specs : List JobSpec} {e : String}
    (h : Enqueuer.enqueueBatch fault t now specs = (t', .error e)) :
    t' = if committed fault specs then (enqueueBatch t now specs).1 else t := by
  by_cases hempty : specs = []
  · subst hempty
    cases h
  · rcases fault with _ | ⟨e' | e'⟩
    · rw [enqueueBatch_eq] at h
      split at h
      · cases h
        rfl
      · cases h
    · rw [Enqueuer.enqueueBatch, if_neg (by simpa using hempty)] at h
      cases h
      rfl
    · rw [enqueueBatch_lost_eq t now hempty] at h
      split at h
      · rename_i hmany
        cases h
        exact (if_neg (by simpa [committed] using hmany)).symm
      · rename_i hfit
        cases h
        exact (if_pos (decide_eq_true (Nat.not_lt.mp hfit))).symm

/-- A call that succeeds has inserted the batch. -/
theorem enqueueBatch_ok {fault : Option Fault} {t t' : Tables} {now : Time}
    {specs : List JobSpec} {n : Nat}
    (h : Enqueuer.enqueueBatch fault t now specs = (t', .ok n)) :
    enqueueBatch t now specs = (t', n) := by
  by_cases hempty : specs = []
  · subst hempty
    cases h
    rfl
  · rcases fault with _ | ⟨e | e⟩
    · rw [enqueueBatch_eq] at h
      split at h
      · cases h
      · cases h
        rfl
    · rw [Enqueuer.enqueueBatch, if_neg (by simpa using hempty)] at h
      cases h
    · rw [enqueueBatch_lost_eq t now hempty] at h
      split at h
      · cases h
      · cases h

/-! ## One statement against repeated calls -/

/-- `Enqueue` call by call, each at its own time, and the number of the calls
that answer true. -/
def enqueueEach : Tables → List (Time × JobSpec) → Tables × Nat
  | t, [] => (t, 0)
  | t, (now, j) :: rest =>
    let (t', inserted) := snifferEnqueue t now j
    let (t'', n) := enqueueEach t' rest
    (t'', if inserted then n + 1 else n)

/-- The row with another id and other clock readings. -/
def JobRow.restamp (r : JobRow) (id : Nat) (now : Time) : JobRow :=
  { r with id := id, nextRunAt := now, createdAt := now, updatedAt := now }

theorem enqueueBatch_eq_insertAll (t : Tables) (now : Time) (specs : List JobSpec) :
    enqueueBatch t now specs = insertAll now t specs := by
  cases specs <;> rfl

theorem enqueueEach_eq_insertAll (t : Tables) (now : Time) (specs : List JobSpec) :
    enqueueEach t (specs.map (now, ·)) = insertAll now t specs := by
  induction specs generalizing t with
  | nil => rfl
  | cons j rest ih => simp only [List.map_cons, enqueueEach, insertAll, ih]

theorem snifferEnqueue_taken {t : Tables} {j : JobSpec} (now : Time) (h : t.HasKey j.key) :
    snifferEnqueue t now j = ({ t with jobSeq := t.jobSeq + 1 }, false) := by
  rcases insertJob_eq t now j.newJob with ⟨_, hins⟩ | ⟨hkey, _⟩
  · rw [snifferEnqueue, hins]
    rfl
  · exact absurd h hkey

theorem snifferEnqueue_new {t : Tables} {j : JobSpec} (now : Time) (h : ¬t.HasKey j.key) :
    snifferEnqueue t now j =
      ({ t with jobs := t.jobs ++ [j.newJob.row now t.jobSeq], jobSeq := t.jobSeq + 1 },
        true) := by
  rcases insertJob_eq t now j.newJob with ⟨hkey, _⟩ | ⟨_, hins⟩
  · exact absurd hkey h
  · rw [snifferEnqueue, hins]
    rfl

/-- The count is the growth of the table. -/
theorem length_insertAll (now : Time) (specs : List JobSpec) (t : Tables) :
    (insertAll now t specs).1.jobs.length = t.jobs.length + (insertAll now t specs).2 := by
  induction specs generalizing t with
  | nil => rfl
  | cons j rest ih =>
    simp only [insertAll]
    by_cases hkey : t.HasKey j.key
    · rw [snifferEnqueue_taken now hkey, ih]
      rfl
    · rw [snifferEnqueue_new now hkey, ih]
      simp
      omega

/-- The keys are those of the table and those of the jobs. -/
theorem hasKey_insertAll (now : Time) (specs : List JobSpec) (t : Tables)
    (key : String × String) :
    (insertAll now t specs).1.HasKey key ↔ t.HasKey key ∨ ∃ j ∈ specs, j.key = key := by
  have hrow : ∀ t : Tables, t.HasKey key ↔ (t.rowOf key).isSome := by
    intro t
    refine ⟨rowOf_isSome, fun h => ?_⟩
    by_contra hkey
    rw [rowOf_eq_none hkey] at h
    cases h
  rw [hrow, hrow, rowOf_insertAll, Option.isSome_or, Option.isSome_map, Bool.or_eq_true,
    List.find?_isSome]
  simp

theorem hasKey_append {t : Tables} {rows : List JobRow} {n : Nat} {key : String × String} :
    ({ t with jobs := t.jobs ++ rows, jobSeq := n } : Tables).HasKey key ↔
      t.HasKey key ∨ ∃ r ∈ rows, r.key = key := by
  simp [Tables.HasKey, or_and_right, exists_or]

/-- Two tables with the same keys take the same jobs, whatever the clocks
say. -/
theorem enqueueEach_agrees (now : Time) (specs : List JobSpec) {times : List Time}
    (hlen : times.length = specs.length) {t u : Tables}
    (hkeys : ∀ key, t.HasKey key ↔ u.HasKey key) :
    ∃ new new', (insertAll now t specs).1.jobs = t.jobs ++ new ∧
      (enqueueEach u (times.zip specs)).1.jobs = u.jobs ++ new' ∧
      new.map (·.restamp 0 0) = new'.map (·.restamp 0 0) ∧
      (enqueueEach u (times.zip specs)).2 = (insertAll now t specs).2 ∧
      (enqueueEach u (times.zip specs)).1.events = u.events := by
  induction specs generalizing times t u with
  | nil =>
    rw [List.length_eq_zero_iff.mp hlen]
    exact ⟨[], [], by simp [insertAll, enqueueEach]⟩
  | cons j rest ih =>
    obtain ⟨now', times, rfl⟩ := List.exists_cons_of_length_eq_add_one hlen
    have hlen' : times.length = rest.length := by simpa using hlen
    simp only [List.zip_cons_cons, enqueueEach, insertAll]
    by_cases hkey : t.HasKey j.key
    · simp only [snifferEnqueue_taken now hkey, snifferEnqueue_taken now' ((hkeys _).mp hkey),
        Bool.false_eq_true, if_false]
      exact ih hlen' hkeys
    · have hkey' : ¬u.HasKey j.key := fun h => hkey ((hkeys _).mpr h)
      simp only [snifferEnqueue_new now hkey, snifferEnqueue_new now' hkey', if_true]
      obtain ⟨new, new', hnew, hnew', hmap, hcount, hevents⟩ := ih hlen'
        (t := { t with jobs := t.jobs ++ [j.newJob.row now t.jobSeq], jobSeq := t.jobSeq + 1 })
        (u := { u with jobs := u.jobs ++ [j.newJob.row now' u.jobSeq], jobSeq := u.jobSeq + 1 })
        fun key => by
          rw [hasKey_append, hasKey_append, hkeys]
          simp [NewJob.row, JobRow.key]
      refine ⟨j.newJob.row now t.jobSeq :: new, j.newJob.row now' u.jobSeq :: new', ?_, ?_, ?_, ?_,
        hevents⟩
      · rw [hnew, List.append_assoc, List.singleton_append]
      · rw [hnew', List.append_assoc, List.singleton_append]
      · rw [List.map_cons, List.map_cons, hmap]
        rfl
      · rw [hcount]

/-- `EnqueueBatch` is repeated `Enqueue`.  The placeholders of tuple `i` stand
for the fields of job `i`, each in the column of its name.  A call that succeeds
leaves what the calls one by one leave at the same time; calls at other times
leave the same rows up to ids and clock readings, and the count and the events in
any case.  A call that fails leaves the tables, unless its statement committed and
the answer was lost: then it leaves what a success leaves.  Without an error of
the database no call fails. -/
theorem enqueueBatch_eq_repeated (specs : List JobSpec) (hfit : specs.length * 5 ≤ maxParams) :
    (∀ i (hi : i < specs.length), ∃ st, parseInsert (buildBatch specs).1 = some st ∧
      st.tuples.length = specs.length ∧ st.tuples[i]? = some (tupleNumbers (i * 5)) ∧
      st.columns = jobColumns ∧
      (tupleNumbers (i * 5)).map (argument (buildBatch specs).2) = specs[i].values.map some ∧
      jobColumns.map (st.value (buildBatch specs).2 (tupleNumbers (i * 5))) =
        specs[i].values.map some) ∧
    (∀ fault t now t' n, Enqueuer.enqueueBatch fault t now specs = (t', .ok n) →
      enqueueEach t (specs.map (now, ·)) = (t', n) ∧
      ∀ times : List Time, times.length = specs.length →
        ∃ new new', t'.jobs = t.jobs ++ new ∧
          (enqueueEach t (times.zip specs)).1.jobs = t.jobs ++ new' ∧
          new.map (·.restamp 0 0) = new'.map (·.restamp 0 0) ∧
          (enqueueEach t (times.zip specs)).2 = n ∧
          t'.events = t.events ∧ (enqueueEach t (times.zip specs)).1.events = t.events) ∧
    (∀ fault t now t' e, Enqueuer.enqueueBatch fault t now specs = (t', .error e) →
      t' = t ∨ (∃ e', fault = some (.lost e')) ∧ t' = (enqueueEach t (specs.map (now, ·))).1) ∧
    ∀ t now, ∃ t' n, Enqueuer.enqueueBatch none t now specs = (t', .ok n) := by
  refine ⟨fun i hi => ?_, fun fault t now t' n h => ?_, fun fault t now t' e h => ?_,
    fun t now => ?_⟩
  · have hne : specs ≠ [] := List.ne_nil_of_length_pos (Nat.zero_lt_of_lt hi)
    refine ⟨_, parseInsert_buildBatch hne, ?_, ?_, rfl, argument_buildBatch hi,
      value_buildBatch hi⟩
    · rw [batchStmt, List.length_map, List.length_range]
    · rw [batchStmt, List.getElem?_map, List.getElem?_range hi]
      rfl
  · have hall : insertAll now t specs = (t', n) := by
      rw [← enqueueBatch_ok h, enqueueBatch_eq_insertAll]
    refine ⟨(enqueueEach_eq_insertAll t now specs).trans hall, fun times hlen => ?_⟩
    obtain ⟨new, new', hnew, hnew', hmap, hcount, hevents⟩ :=
      enqueueEach_agrees now specs hlen fun key => Iff.rfl
    have hsame := insertAll_events now specs t
    rw [hall] at hnew hcount hsame
    exact ⟨new, new', hnew, hnew', hmap, hcount, hsame, hevents⟩
  · have ht := enqueueBatch_error h
    rw [enqueueEach_eq_insertAll, ← enqueueBatch_eq_insertAll]
    rcases fault with _ | ⟨e' | e'⟩
    · exact Or.inl ht
    · exact Or.inl ht
    · exact Or.inr ⟨⟨e', rfl⟩, ht.trans (if_pos (decide_eq_true hfit))⟩
  · rw [enqueueBatch_eq, if_neg (Nat.not_lt.mpr hfit)]
    exact ⟨_, _, rfl⟩

/-- A key twice in one batch: the first tuple wins, and the count is one. -/
theorem enqueueBatch_eq_repeated_twice :
    [sighting, { sighting with src := "c.png" }].length * 5 ≤ maxParams ∧
    ∃ t, Enqueuer.enqueueBatch none .empty 0 [sighting, { sighting with src := "c.png" }] =
        (t, .ok 1) ∧
      enqueueEach .empty [(0, sighting), (0, { sighting with src := "c.png" })] = (t, 1) ∧
      t.jobs.map JobRow.src = ["a.png"] := by
  have hfit : [sighting, { sighting with src := "c.png" }].length * 5 ≤ maxParams := by decide
  obtain ⟨-, hsame, -, hok⟩ := enqueueBatch_eq_repeated _ hfit
  obtain ⟨t, n, ht⟩ := hok .empty 0
  have heach := (hsame none .empty 0 t n ht).1
  have hrun : enqueueEach .empty [(0, sighting), (0, { sighting with src := "c.png" })] =
      (⟨[sighting.newJob.row 0 1], [], 3, 1⟩, 1) := by decide
  obtain ⟨rfl, rfl⟩ := Prod.mk.inj (heach.symm.trans hrun)
  exact ⟨hfit, _, ht, hrun, rfl⟩

/-- The connection breaks after the commit: the call fails and has inserted its
row. -/
theorem enqueueBatch_lost_inserts :
    ∃ t e, Enqueuer.enqueueBatch (some (.lost "unexpected EOF")) .empty 0 [sighting] =
        (t, .error e) ∧
      e = "enqueue batch of 1: unexpected EOF" ∧ t.jobs = [sighting.newJob.row 0 1] ∧
      t ≠ .empty := by
  have hlost := enqueueBatch_lost_eq .empty 0 (List.cons_ne_nil sighting []) "unexpected EOF"
  have hinsert : (enqueueBatch .empty 0 [sighting]).1.jobs = [sighting.newJob.row 0 1] := by decide
  rw [if_neg (by decide)] at hlost
  refine ⟨_, _, hlost, rfl, hinsert, fun hempty => ?_⟩
  rw [hempty] at hinsert
  cases hinsert

end ImgSync.Queue
