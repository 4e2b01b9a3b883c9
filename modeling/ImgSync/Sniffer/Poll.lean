import ImgSync.Queue.BatchInsert
import ImgSync.Sniffer.NoLoss

/-!
# One call of `RunOnce`

`runOnce` is `runOnceImpl` as one call, with the statement that `EnqueueBatch`
really builds, its errors and its count.  It is a run of four actions of the
interleaved model (`runOnce_eq_steps`), so it keeps `SnifferInv`.

What a call without an error does is said once, in terms of the list of the
versions that are still to come (`Todo`): it fetches the first `BatchSize` of
them, and the others are to come after it (`Todo.takes`).
-/

namespace ImgSync.Sniffer

open ImgSync.Lib ImgSync.Queue

/-- A call of `RunOnce`: the errors of the databases at its four calls, and the
clock of each of the two databases.  A writing call may fail after its commit. -/
structure Poll where
  load : Option String
  fetch : Option String
  enqueue : Option Fault
  upsert : Option Fault
  source : Time
  queue : Time

/-- A call that meets no error of a database. -/
def Poll.clean (source queue : Time) : Poll := ⟨none, none, none, none, source, queue⟩

/-- What a call leaves, and the two values that it returns. -/
structure Polled (K : Type) where
  world : World K
  inserted : Nat
  error : Option String

section Model

variable {K : Type} [LinearOrder K] (lib : GoLib) (col : PkColumn K) (cfg : Config)

/-- `Fetch` in the call. -/
def Poll.fetched (c : Poll) (s : World K) : Except String (List Row) :=
  match c.fetch with
  | some e => .error e
  | none => cfg.query.fetch lib col s.visible c.source (s.states.load cfg.sourceId)

/-- `runOnceImpl`. -/
def runOnce (c : Poll) (s : World K) : Polled K :=
  match c.load with
  | some e => ⟨s, 0, some ("load state: " ++ e)⟩
  | none =>
    match c.fetched lib col cfg s with
    | .error e => ⟨{ s with clock := c.source }, 0, some ("fetch: " ++ e)⟩
    | .ok rows =>
      match rows.getLast? with
      | none => ⟨{ s with clock := c.source }, 0, none⟩
      | some last =>
        match Enqueuer.enqueueBatch c.enqueue s.tables c.queue (cfg.specs lib rows) with
        | (t, .error e) =>
          ⟨{ s with clock := c.source, tables := t }, 0, some ("enqueue batch: " ++ e)⟩
        | (t, .ok n) =>
          let written := { s with clock := c.source, tables := t,
                                  states := s.states.upsert (cfg.advance last) }
          match c.upsert with
          | some (.refused e) =>
            ⟨{ s with clock := c.source, tables := t }, n, some ("upsert state: " ++ e)⟩
          | some (.lost e) => ⟨written, n, some ("upsert state: " ++ e)⟩
          | none => ⟨written, n, none⟩

/-! ## The call as a run of the interleaved model -/

/-- How the statement of `EnqueueBatch` ends. -/
def Poll.enqueues (c : Poll) (s : World K) : Outcome :=
  match c.fetched lib col cfg s with
  | .error _ => .failed
  | .ok rows =>
    match (Enqueuer.enqueueBatch c.enqueue s.tables c.queue (cfg.specs lib rows)).2 with
    | .error _ => if committed c.enqueue (cfg.specs lib rows) then .lost else .failed
    | .ok _ => .ok

/-- How `Upsert` ends. -/
def Poll.upserts (c : Poll) : Outcome :=
  match c.upsert with
  | some (.refused _) => .failed
  | some (.lost _) => .lost
  | none => .ok

/-- The four database calls. -/
def Poll.actions (c : Poll) (s : World K) : List (Action K) :=
  [.load c.load.isNone, .fetch c.source c.fetch.isNone,
    .enqueueBatch c.queue (c.enqueues lib col cfg s), .upsert c.upserts]

variable {lib col cfg} {c : Poll} {s : World K}

theorem runOnce_eq_steps (hidle : s.phase = .idle) (hclock : s.clock ≤ c.source) :
    (runOnce lib col cfg c s).world = (c.actions lib col cfg s).foldl (step lib col cfg) s := by
  obtain ⟨visible, clock, tables, states, phase⟩ := s
  obtain rfl : phase = .idle := hidle
  have hnow : ¬c.source < clock := not_lt.mpr hclock
  simp only [Poll.actions, List.foldl_cons, List.foldl_nil]
  cases hload : c.load with
  | some e => simp only [runOnce, hload, step, Option.isNone_some, Bool.false_eq_true, if_false]
  | none =>
    cases hfetch : c.fetch with
    | some e =>
      simp only [runOnce, hload, Poll.fetched, hfetch, step, Option.isNone_some, Option.isNone_none,
        Bool.false_eq_true, if_false, if_true, hnow]
    | none =>
      simp only [runOnce, hload, Poll.fetched, Poll.enqueues, hfetch, step, Option.isNone_none,
        if_false, if_true, hnow]
      cases hrows : cfg.query.fetch lib col visible c.source (states.load cfg.sourceId) with
      | error e => rfl
      | ok rows =>
        cases rows with
        | nil => rfl
        | cons r rows =>
          obtain ⟨last, hlast⟩ : ∃ last, (r :: rows).getLast? = some last :=
            ⟨_, List.getLast?_eq_some_getLast (List.cons_ne_nil r rows)⟩
          simp only [hlast, afterFetch]
          cases hres :
              Enqueuer.enqueueBatch c.enqueue tables c.queue (cfg.specs lib (r :: rows)) with
          | mk t res =>
            cases res with
            | error e =>
              simp only [enqueueBatch_error hres]
              split
              · rfl
              · rfl
            | ok n =>
              have ht := enqueueBatch_ok hres
              rcases hup : c.upsert with _ | ⟨e | e⟩ <;> simp [exec, ht, hlast, Poll.upserts, hup]

/-- A call keeps what every reachable state satisfies. -/
theorem SnifferInv.runOnce (h : SnifferInv lib col cfg s) (hidle : s.phase = .idle)
    (hclock : s.clock ≤ c.source) :
    SnifferInv lib col cfg (Sniffer.runOnce lib col cfg c s).world := by
  rw [runOnce_eq_steps hidle hclock]
  exact foldl_invariant (SnifferInv lib col cfg) (fun _ a h => (step_inv h a).1) h _

/-! ## A call without an error -/

/-- An error-free call has inserted the jobs of the rows that it fetched, and
the last of them is the watermark. -/
theorem runOnce_ok (h : (runOnce lib col cfg c s).error = none) :
    ∃ rows, c.fetched lib col cfg s = .ok rows ∧
      cfg.query.fetch lib col s.visible c.source (s.states.load cfg.sourceId) = .ok rows ∧
      (runOnce lib col cfg c s).world =
        { s with
          clock := c.source
          tables := (enqueueBatch s.tables c.queue (cfg.specs lib rows)).1
          states := rows.getLast?.elim s.states fun last => s.states.upsert (cfg.advance last) } ∧
      (runOnce lib col cfg c s).inserted =
        (enqueueBatch s.tables c.queue (cfg.specs lib rows)).2 := by
  cases hload : c.load with
  | some e => simp [runOnce, hload] at h
  | none =>
    cases hrows : c.fetched lib col cfg s with
    | error e => simp [runOnce, hload, hrows] at h
    | ok rows =>
      have hquery : cfg.query.fetch lib col s.visible c.source (s.states.load cfg.sourceId) =
          .ok rows := by
        cases hfetch : c.fetch with
        | some e => simp [Poll.fetched, hfetch] at hrows
        | none => simpa [Poll.fetched, hfetch] using hrows
      refine ⟨rows, rfl, hquery, ?_⟩
      cases hlast : rows.getLast? with
      | none =>
        obtain rfl := List.getLast?_eq_none_iff.mp hlast
        simp [runOnce, hload, hrows, Config.specs, enqueueBatch]
      | some last =>
        cases hres : Enqueuer.enqueueBatch c.enqueue s.tables c.queue (cfg.specs lib rows) with
        | mk t res =>
          cases res with
          | error e => simp [runOnce, hload, hrows, hlast, hres] at h
          | ok n =>
            have ht := enqueueBatch_ok hres
            rcases hup : c.upsert with _ | ⟨e | e⟩
            · simp [runOnce, hload, hrows, hlast, hres, hup, ht]
            · simp [runOnce, hload, hrows, hlast, hres, hup] at h
            · simp [runOnce, hload, hrows, hlast, hres, hup] at h

/-- `Fetch` from any state that its query accepts. -/
theorem fetch_ok {q : Query} {visible : List (Version K)} {now : Time} {st : State}
    {rows : List Row} {p : Version K → Bool} (hp : st.after col = .ok p)
    (h : q.fetch lib col visible now st = .ok rows) :
    0 < q.batchSize ∧ rows = (page Version.key (fun v => p v && decide (v.ts ≤ now - q.bias))
      q.batchSize.toNat visible).map (Version.row lib col q) := by
  unfold Query.fetch at h
  rw [hp] at h
  split_ifs at h with hsize hbias
  exact ⟨not_le.mp hsize, mapM_eq_map (fun a b => scanRow_eq) h⟩

/-- The predicate of the query goes upwards. -/
theorem after_mono {st : State} {p : Version K → Bool} (hp : st.after col = .ok p)
    {v w : Version K} (hv : p v = true) (hlt : v.key < w.key) : p w = true := by
  rw [Version.key, Version.key, Prod.Lex.toLex_lt_toLex] at hlt
  unfold State.after at hp
  split at hp
  · cases hp
    rw [decide_eq_true_eq] at hv ⊢
    rcases hlt with hlt | ⟨heq, -⟩
    · exact hv.trans hlt
    · exact hv.trans_eq heq
  · split at hp
    · cases hp
    · cases hp
      simp only [Bool.or_eq_true, Bool.and_eq_true, decide_eq_true_eq] at hv ⊢
      rcases hv with hv | ⟨heq, hk⟩ <;> rcases hlt with hlt | ⟨heq', hk'⟩
      · exact Or.inl (hv.trans hlt)
      · exact Or.inl (hv.trans_eq heq')
      · exact Or.inl (heq ▸ hlt)
      · exact Or.inr ⟨heq'.symm.trans heq, hk.trans hk'⟩

omit [LinearOrder K] in
/-- The persisted row after an `Upsert` of a version. -/
theorem states_upsert {w : World K} {states : StateTable} {z : Version K}
    (h : w.states = states.upsert (cfg.advance (z.row lib col cfg.query))) :
    KeyedRow col cfg w ∧ w.watermark col cfg = (z.key : WithBot (Time ×ₗ K)) := by
  have hrow : w.states cfg.sourceId = some ⟨z.ts, some (col.text z.pk)⟩ := by
    simp [h, StateTable.upsert, Config.advance, Version.row, col.text_ne]
  refine ⟨fun r hr => ⟨z.pk, ?_⟩, ?_⟩
  · rw [hrow] at hr
    cases hr
    rfl
  · simp [World.watermark, hrow, col.parse_text, Version.key]

/-- The predicate after an `Upsert` of a version. -/
theorem after_upsert {w : World K} {states : StateTable} {z : Version K}
    (h : w.states = states.upsert (cfg.advance (z.row lib col cfg.query))) :
    ∃ p, (w.states.load cfg.sourceId).after col = .ok p ∧ ∀ v, p v = true ↔ z.key < v.key := by
  obtain ⟨hkeyed, hw⟩ := states_upsert h
  obtain ⟨p, hp, hspec⟩ := after_load hkeyed
  refine ⟨p, hp, fun v => ?_⟩
  rw [hspec, hw, WithBot.coe_lt_coe]

/-- A call that fetches something and returns no error raises the watermark. -/
theorem runOnce_watermark_lt (hkeyed : KeyedRow col cfg s)
    (hfree : (runOnce lib col cfg c s).error = none) {rows : List Row}
    (hrows : c.fetched lib col cfg s = .ok rows) (hne : rows ≠ []) :
    s.watermark col cfg < (runOnce lib col cfg c s).world.watermark col cfg := by
  obtain ⟨rows', hfetched, hquery, hworld, -⟩ := runOnce_ok hfree
  obtain rfl : rows = rows' := Except.ok.inj (hrows.symm.trans hfetched)
  obtain ⟨p, hpage, hspec⟩ := fetch_page hkeyed hquery
  subst hpage
  have hvs : page Version.key p cfg.query.batchSize.toNat s.visible ≠ [] :=
    fun h => hne (List.map_eq_nil_iff.mpr h)
  obtain ⟨z, hz⟩ :
      ∃ z, (page Version.key p cfg.query.batchSize.toNat s.visible).getLast? = some z :=
    ⟨_, List.getLast?_eq_some_getLast hvs⟩
  have hstates : (runOnce lib col cfg c s).world.states =
      s.states.upsert (cfg.advance (z.row lib col cfg.query)) := by
    rw [hworld, List.getLast?_map, hz]
    rfl
  rw [(states_upsert hstates).2]
  exact ((hspec z).mp (mem_of_mem_page (List.mem_of_getLast? hz)).2).1

/-- The versions that the query still selects, in its order. -/
def Todo (col : PkColumn K) (cfg : Config) (s : World K) (l : List (Version K)) : Prop :=
  ∃ p, (s.states.load cfg.sourceId).after col = .ok p ∧ l = selection Version.key p s.visible

/-- The number of the rows of a batch. -/
def Config.size (cfg : Config) : Nat := cfg.query.batchSize.toNat

/-- How many of the versions to come the call fetches: those that the bias does
not hide, up to the size of a batch. -/
def Poll.due (cfg : Config) (c : Poll) (l : List (Version K)) : Nat :=
  min cfg.size (l.countP fun v => decide (v.ts + cfg.query.bias ≤ c.source))

/-- An error-free call takes the first `j` of the versions to come. -/
structure Takes (lib : GoLib) (col : PkColumn K) (cfg : Config) (c : Poll) (s : World K)
    (l : List (Version K)) (j : Nat) : Prop where
  size : 0 < cfg.size
  fetched : c.fetched lib col cfg s = .ok ((l.take j).map (Version.row lib col cfg.query))
  visible : (runOnce lib col cfg c s).world.visible = s.visible
  tables : (runOnce lib col cfg c s).world.tables = (enqueueBatch s.tables c.queue
    (cfg.specs lib ((l.take j).map (Version.row lib col cfg.query)))).1
  inserted : (runOnce lib col cfg c s).inserted = (enqueueBatch s.tables c.queue
    (cfg.specs lib ((l.take j).map (Version.row lib col cfg.query)))).2
  states : (runOnce lib col cfg c s).world.states = (l.take j).getLast?.elim s.states
    fun z => s.states.upsert (cfg.advance (z.row lib col cfg.query))
  rest : Todo col cfg (runOnce lib col cfg c s).world (l.drop j)

omit [LinearOrder K] in
theorem nodup_keys {l : List (Version K)} (h : (l.map Version.pk).Nodup) :
    (l.map Version.key).Nodup := by
  refine List.Nodup.of_map (fun k : Time ×ₗ K => (ofLex k).2) ?_
  rw [List.map_map]
  exact h

/-- A lower key has no later timestamp. -/
theorem ts_le_of_key_le {v w : Version K} (h : v.key ≤ w.key) : v.ts ≤ w.ts := by
  by_contra hts
  exact not_le_of_gt (key_lt_of_ts (lt_of_not_ge hts)) h

/-- A page is the due part of what is to come. -/
theorem page_eq_due (cfg : Config) (c : Poll) {visible : List (Version K)}
    (hpks : (visible.map Version.pk).Nodup) (p : Version K → Bool) :
    page Version.key (fun v => p v && decide (v.ts ≤ c.source - cfg.query.bias)) cfg.size visible =
      (selection Version.key p visible).take (c.due cfg (selection Version.key p visible)) := by
  have hpast : (fun v : Version K => decide (v.ts ≤ c.source - cfg.query.bias)) =
      fun v => decide (v.ts + cfg.query.bias ≤ c.source) :=
    funext fun v => decide_eq_decide.mpr le_sub_iff_add_le
  have hsorted : (selection Version.key p visible).Pairwise fun v w => v.key ≤ w.key :=
    sorted_selection Version.key p visible
  rw [page_eq_take, selection_and (nodup_keys hpks) (fun v => decide (v.ts ≤ c.source - _)), hpast,
    filter_eq_take hsorted, List.take_take, Poll.due]
  intro v w hle hw
  rw [decide_eq_true_eq] at hw ⊢
  exact (add_le_add_left (ts_le_of_key_le hle) _).trans hw

/-- What an error-free call does. -/
theorem Todo.takes {l : List (Version K)} (htodo : Todo col cfg s l)
    (hpks : (s.visible.map Version.pk).Nodup)
    (hfree : (runOnce lib col cfg c s).error = none) : Takes lib col cfg c s l (c.due cfg l) := by
  obtain ⟨p, hp, rfl⟩ := htodo
  obtain ⟨rows, hfetched, hquery, hworld, hinserted⟩ := runOnce_ok hfree
  obtain ⟨hsize, hrows⟩ := fetch_ok hp hquery
  rw [show cfg.query.batchSize.toNat = cfg.size from rfl, page_eq_due cfg c hpks] at hrows
  generalize hj : c.due cfg (selection Version.key p s.visible) = j at hrows
  subst hrows
  rw [List.getLast?_map, Option.elim_map] at hworld
  refine ⟨?_, hfetched, by rw [hworld], by rw [hworld], hinserted, by rw [hworld]; rfl, ?_⟩
  · rw [Config.size]
    omega
  · rw [hworld]
    cases hz : ((selection Version.key p s.visible).take j).getLast? with
    | none =>
      refine ⟨p, hp, ?_⟩
      rcases List.take_eq_nil_iff.mp (List.getLast?_eq_none_iff.mp hz) with hzero | hnil
      · rw [hzero, List.drop_zero]
      · rw [hnil, List.drop_nil]
    | some z =>
      obtain ⟨p', hp', hspec⟩ := after_upsert (w := { s with states := _ }) rfl
      refine ⟨p', hp', (selection_above (nodup_keys hpks) hz fun x hx => ?_).symm⟩
      have hpz : p z = true := (mem_selection.mp (List.mem_of_mem_take (List.mem_of_getLast? hz))).2
      rw [hspec]
      exact ⟨fun hlt => ⟨after_mono hp hpz hlt, hlt⟩, fun h => h.2⟩

/-- A call that comes late enough takes a full batch. -/
theorem Todo.takes_size {l : List (Version K)} (htodo : Todo col cfg s l)
    (hpks : (s.visible.map Version.pk).Nodup)
    (hpast : ∀ v ∈ s.visible, v.ts + cfg.query.bias ≤ c.source)
    (hfree : (runOnce lib col cfg c s).error = none) : Takes lib col cfg c s l cfg.size := by
  have hall : l.countP (fun v => decide (v.ts + cfg.query.bias ≤ c.source)) = l.length := by
    obtain ⟨p, -, rfl⟩ := htodo
    exact List.countP_eq_length.mpr fun v hv =>
      decide_eq_true (hpast v (mem_selection.mp hv).1)
  have htakes := htodo.takes hpks hfree
  have htake : l.take (c.due cfg l) = l.take cfg.size := by
    rw [Poll.due, hall, List.take_eq_take_iff]
    omega
  have hdrop : l.drop (c.due cfg l) = l.drop cfg.size := by
    rw [Poll.due, hall, drop_min_length]
  exact ⟨htakes.size, htake ▸ htakes.fetched, htakes.visible, htake ▸ htakes.tables,
    htake ▸ htakes.inserted, htake ▸ htakes.states, hdrop ▸ htakes.rest⟩

/-! ## When a call has no error -/

omit [LinearOrder K] in
theorem scanRow_ok {q : Query} (hcol : q.tsColumn ≠ q.pkColumn) (v : Version K) :
    q.scanRow lib col v = .ok (v.row lib col q) := by
  have hts : v.value col q q.tsColumn = .time v.ts := by simp [Version.value, hcol]
  simp only [Query.scanRow, hts, Version.fields_pk, Option.getD_some]
  rfl

/-- What a query needs of the configuration. -/
structure Query.Valid (q : Query) : Prop where
  size : 0 < q.batchSize
  bias : int4 q.biasSec = true
  columns : q.tsColumn ≠ q.pkColumn

theorem Query.Valid.fetch_eq {q : Query} (hq : q.Valid) {st : State} {p : Version K → Bool}
    (hp : st.after col = .ok p) (visible : List (Version K)) (now : Time) :
    q.fetch lib col visible now st =
      .ok ((page Version.key (fun v => p v && decide (v.ts ≤ now - q.bias)) q.batchSize.toNat
        visible).map (Version.row lib col q)) := by
  have hscan : q.scanRow lib col = fun v => pure (v.row lib col q) :=
    funext fun v => scanRow_ok hq.columns v
  rw [Query.fetch, if_neg (not_le.mpr hq.size), hq.bias, hp]
  show List.mapM (q.scanRow lib col) _ = _
  rw [hscan, List.mapM_pure]
  rfl

/-- Without a fault of a database the only error is that of a statement with
too many parameters. -/
theorem runOnce_error_clean {rows : List Row} {source queue : Time}
    (hfetched : (Poll.clean source queue).fetched lib col cfg s = .ok rows) :
    (runOnce lib col cfg (.clean source queue) s).error =
      if maxParams < (cfg.specs lib rows).length * 5 then
        some ("enqueue batch: " ++ tooManyParams (cfg.specs lib rows).length)
      else none := by
  have hload : (Poll.clean source queue).load = none := rfl
  have henq : (Poll.clean source queue).enqueue = none := rfl
  have hup : (Poll.clean source queue).upsert = none := rfl
  simp only [runOnce, hload, hfetched, henq, hup, enqueueBatch_eq]
  cases hlast : rows.getLast? with
  | none =>
    obtain rfl := List.getLast?_eq_none_iff.mp hlast
    rfl
  | some last =>
    simp only
    split_ifs
    · rfl
    · rfl

end Model

end ImgSync.Sniffer
