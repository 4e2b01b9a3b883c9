import ImgSync.Queue.Clock
import ImgSync.Sniffer.Pages

/-!
# Several sniffer pods, several sources, and retention

`StateRepo.Upsert` is last-writer-wins, and its comment assumes one sniffer pod.
`TraceID` names the source table and the key, but not the source.  Here any number
of sources share the queue and `sniffer_state`, each source has any number of pods,
and retention deletes jobs that have ended.  A pod takes the steps of
`Sniffer.step`; the table, the clock of its database and the queue are shared.

* `Safe`: everything up to a key has been enqueued, and nothing below the key can
  still become visible.  Pods may overwrite each other's watermark, also with a
  lower one, but whatever a pod persists is safe (`PodInv`).
* `Owned`: the job under the trace id of a source row was rendered from a version of
  that row.  This needs sources whose trace ids do not meet, and other writers of the
  queue that use none of them (`Foreign`).

`fleet_no_loss` puts both together.  `exec_columns` is the fact about the queue
that it rests on: no statement rewrites what a job copies.
-/

namespace ImgSync.Sniffer

open ImgSync.Lib ImgSync.Queue

/-! ## Model -/

/-- A source: its key column, and the configuration of its pods. -/
structure Source where
  K : Type
  order : LinearOrder K
  col : PkColumn K
  cfg : Config

attribute [instance] Source.order

/-- The calls of `runOnceImpl` in one pod, and its end. -/
inductive Call where
  | load (ok : Bool)
  | fetch (now : Time) (ok : Bool)
  | enqueueBatch (now : Time) (o : Outcome)
  | upsert (o : Outcome)
  | crash

def Call.action {K : Type} : Call → Action K
  | .load ok => .load ok
  | .fetch now ok => .fetch now ok
  | .enqueueBatch now o => .enqueueBatch now o
  | .upsert o => .upsert o
  | .crash => .crash

/-- The sources, the queue with `sniffer_state`, and the pods of each source. -/
structure Fleet {ι : Type} (src : ι → Source) where
  visible : (i : ι) → List (Version (src i).K)
  clock : ι → Time
  tables : Tables
  states : StateTable
  phase : ι → Nat → Phase

inductive FleetAction {ι : Type} (src : ι → Source) where
  | commit (i : ι) (v : Version (src i).K)
  | delete (i : ι) (pk : (src i).K)
  | call (i : ι) (pod : Nat) (c : Call)
  | queue (now : Time) (op : Op)

section Model

variable {ι : Type} [DecidableEq ι] (lib : GoLib) {src : ι → Source}

/-- What a pod works with. -/
def Fleet.world (s : Fleet src) (i : ι) (pod : Nat) : World (src i).K where
  visible := s.visible i
  clock := s.clock i
  tables := s.tables
  states := s.states
  phase := s.phase i pod

def Fleet.put (s : Fleet src) (i : ι) (pod : Nat) (w : World (src i).K) : Fleet src where
  visible := Function.update s.visible i w.visible
  clock := Function.update s.clock i w.clock
  tables := w.tables
  states := w.states
  phase := Function.update s.phase i (Function.update (s.phase i) pod w.phase)

/-- A step of a pod, or one of a source, which no pod takes part in. -/
def Fleet.act (s : Fleet src) (i : ι) (pod : Nat) (a : Action (src i).K) : Fleet src :=
  s.put i pod (step lib (src i).col (src i).cfg (s.world i pod) a)

def fleetStep (s : Fleet src) : FleetAction src → Fleet src
  | .commit i v => s.act lib i 0 (.commit v)
  | .delete i pk => s.act lib i 0 (.delete pk)
  | .call i pod c => s.act lib i pod c.action
  | .queue now op => { s with tables := exec s.tables now op }

def Fleet.init (clock : ι → Time) : Fleet src where
  visible := fun _ => []
  clock := clock
  tables := Tables.empty
  states := fun _ => none
  phase := fun _ _ => .idle

def fleetReach (clock : ι → Time) (as : List (FleetAction src)) : Fleet src :=
  as.foldl (fleetStep lib) (Fleet.init clock)

/-- The persisted watermark of a source. -/
def Fleet.watermark (s : Fleet src) (i : ι) : WithBot (Time ×ₗ (src i).K) :=
  (s.world i 0).watermark (src i).col (src i).cfg

/-- The trace id of a source row. -/
def Source.trace (s : Source) (pk : s.K) : String := traceID s.cfg.query.table (s.col.text pk)

theorem Source.trace_inj (s : Source) {pk pk' : s.K} (h : s.trace pk = s.trace pk') : pk = pk' := by
  have htext : s.col.text pk = s.col.text pk' := (String.append_right_inj _).mp h
  have hparse := s.col.parse_text pk
  rw [htext, s.col.parse_text] at hparse
  exact (Option.some.inj hparse).symm

/-- Another writer uses no trace id of a source. -/
def FleetAction.Foreign : FleetAction src → Prop
  | .queue _ op => ∀ n ∈ op.newJobs, ∀ i pk, n.traceId ≠ (src i).trace pk
  | _ => True

def FleetAction.IsRetention : FleetAction src → Prop
  | .queue _ op => op.IsRetention
  | _ => False

end Model

/-! ## What one source relies on -/

section Source

variable {K : Type} [LinearOrder K] (lib : GoLib) (col : PkColumn K) (cfg : Config)
  (C S : Version K → Prop) (vis : List (Version K)) (clock : Time)

/-- A key that a pod may persist.  `C` says which versions have been enqueued. -/
structure Safe (k : Time ×ₗ K) : Prop where
  behind : (ofLex k).1 + cfg.query.bias ≤ clock
  covered : ∀ v ∈ vis, v.key ≤ k → C v

/-- A fetched batch: `vs` are the versions that it was read from.  `S` says which
versions have been visible. -/
structure Fetched (rows : List Row) (vs : List (Version K)) (last : Version K) : Prop where
  rows : rows = vs.map (Version.row lib col cfg.query)
  getLast : vs.getLast? = some last
  behind : last.ts + cfg.query.bias ≤ clock
  complete : ∀ v ∈ vis, v.key ≤ last.key → C v ∨ v ∈ vs
  seen : ∀ v ∈ vs, S v

/-- What the local variables of a pod mean, whatever the other pods do. -/
def PodInv : Phase → Prop
  | .idle => True
  | .loaded st => ∃ (w : WithBot (Time ×ₗ K)) (p : Version K → Bool),
      (∀ k : Time ×ₗ K, w = k → Safe cfg C vis clock k) ∧ st.after col = .ok p ∧
      ∀ v, p v = true ↔ w < (v.key : WithBot (Time ×ₗ K))
  | .fetched rows => ∃ vs last, Fetched lib col cfg C S vis clock rows vs last
  | .enqueued rows => ∃ last : Version K,
      rows.getLast? = some (last.row lib col cfg.query) ∧ Safe cfg C vis clock last.key

/-- The persisted row of a source. -/
def RowInv (r : StateRow) : Prop :=
  ∃ k, r.lastRunPK = some (col.text k) ∧ Safe cfg C vis clock (toLex (r.lastRunTS, k))

/-- What the other pods and the source application may change. -/
structure Change (C' S' : Version K → Prop) (vis' : List (Version K)) (clock' : Time) : Prop where
  covered : ∀ v, C v → C' v
  seen : ∀ v, S v → S' v
  later : clock ≤ clock'
  visible : ∀ v ∈ vis', v ∈ vis ∨ clock < v.ts + cfg.query.bias

variable {lib col cfg C S vis clock} {C' S' : Version K → Prop} {vis' : List (Version K)}
  {clock' : Time}

/-- A version that can still become visible is above a safe key. -/
theorem Change.old (hc : Change cfg C S vis clock C' S' vis' clock') {k : Time ×ₗ K}
    (hbehind : (ofLex k).1 + cfg.query.bias ≤ clock) {v : Version K} (hv : v ∈ vis')
    (hle : v.key ≤ k) : v ∈ vis := by
  refine (hc.visible v hv).resolve_right fun hnew => ?_
  have hts : (ofLex k).1 < v.ts := lt_of_add_lt_add_right (hbehind.trans_lt hnew)
  have hlt : k < v.key := Prod.Lex.toLex_lt_toLex.mpr (Or.inl hts)
  exact not_le_of_gt hlt hle

theorem Safe.change {k : Time ×ₗ K} (h : Safe cfg C vis clock k)
    (hc : Change cfg C S vis clock C' S' vis' clock') : Safe cfg C' vis' clock' k where
  behind := h.behind.trans hc.later
  covered := fun v hv hle => hc.covered v (h.covered v (hc.old h.behind hv hle) hle)

theorem RowInv.change {r : StateRow} (h : RowInv col cfg C vis clock r)
    (hc : Change cfg C S vis clock C' S' vis' clock') : RowInv col cfg C' vis' clock' r := by
  obtain ⟨k, hk, hsafe⟩ := h
  exact ⟨k, hk, hsafe.change hc⟩

theorem PodInv.change {ph : Phase} (h : PodInv lib col cfg C S vis clock ph)
    (hc : Change cfg C S vis clock C' S' vis' clock') :
    PodInv lib col cfg C' S' vis' clock' ph := by
  cases ph with
  | idle => trivial
  | loaded st =>
    obtain ⟨w, p, hsafe, hp, hspec⟩ := h
    exact ⟨w, p, fun k hk => (hsafe k hk).change hc, hp, hspec⟩
  | fetched rows =>
    obtain ⟨vs, last, hf⟩ := h
    refine ⟨vs, last, hf.rows, hf.getLast, hf.behind.trans hc.later, fun v hv hle => ?_,
      fun v hv => hc.seen v (hf.seen v hv)⟩
    exact (hf.complete v (hc.old (k := last.key) hf.behind hv hle) hle).imp_left (hc.covered v)
  | enqueued rows =>
    obtain ⟨last, hlast, hsafe⟩ := h
    exact ⟨last, hlast, hsafe.change hc⟩

/-- `Load` of a persisted row that is safe. -/
theorem podInv_load {w : World K}
    (hrow : ∀ r, w.states cfg.sourceId = some r → RowInv col cfg C vis clock r) :
    PodInv lib col cfg C S vis clock (.loaded (w.states.load cfg.sourceId)) := by
  have hkeyed : KeyedRow col cfg w := fun r hr => (hrow r hr).imp fun k hk => hk.1
  obtain ⟨p, hp, hspec⟩ := after_load hkeyed
  refine ⟨w.watermark col cfg, p, fun k hk => ?_, hp, hspec⟩
  cases hst : w.states cfg.sourceId with
  | none =>
    rw [World.watermark, hst] at hk
    cases hk
  | some r =>
    obtain ⟨x, hx, hsafe⟩ := hrow r hst
    rw [World.watermark] at hk
    simp only [hst, hx, Option.bind_some, col.parse_text] at hk
    exact WithBot.coe_injective hk ▸ hsafe

/-- `Fetch` from a safe watermark. -/
theorem podInv_fetch (hpks : (vis.map Version.pk).Nodup) (hseen : ∀ v ∈ vis, S v) {st : State}
    (h : PodInv lib col cfg C S vis clock (.loaded st)) (now : Time) :
    PodInv lib col cfg C S vis now (afterFetch (cfg.query.fetch lib col vis now st)) := by
  obtain ⟨w, p, hsafe, hp, hspec⟩ := h
  cases hrows : cfg.query.fetch lib col vis now st with
  | error e => trivial
  | ok rows =>
    cases rows with
    | nil => trivial
    | cons r rows =>
      unfold Query.fetch at hrows
      rw [hp] at hrows
      split_ifs at hrows
      have hpage := mapM_eq_map (fun a b => scanRow_eq) hrows
      generalize hvs : page Version.key (fun v => p v && decide (v.ts ≤ now - cfg.query.bias))
        cfg.query.batchSize.toNat vis = vs at hpage
      obtain ⟨last, hlast⟩ : ∃ last, vs.getLast? = some last := by
        cases vs with
        | nil => simp at hpage
        | cons v vs => exact ⟨_, List.getLast?_eq_some_getLast (List.cons_ne_nil v vs)⟩
      have hmem := hvs ▸ List.mem_of_getLast? hlast
      have hbehind : last.ts + cfg.query.bias ≤ now := by
        have hsel := (mem_of_mem_page hmem).2
        rw [Bool.and_eq_true, decide_eq_true_eq, le_sub_iff_add_le] at hsel
        exact hsel.2
      refine ⟨vs, last, hpage, hlast, hbehind, fun v hv hle => ?_, fun v hv => ?_⟩
      · by_cases hw : (v.key : WithBot (Time ×ₗ K)) ≤ w
        · obtain ⟨k, rfl⟩ := WithBot.ne_bot_iff_exists.mp
            (ne_bot_of_le_ne_bot WithBot.coe_ne_bot hw)
          exact Or.inl ((hsafe k rfl).covered v hv (WithBot.coe_le_coe.mp hw))
        · -- The key of the last row bounds the timestamp, so the bias does not hide the version.
          have hts : v.ts ≤ last.ts := by
            by_contra hts
            exact not_le_of_gt (key_lt_of_ts (lt_of_not_ge hts)) hle
          have hpv : (p v && decide (v.ts ≤ now - cfg.query.bias)) = true := by
            rw [Bool.and_eq_true, hspec, decide_eq_true_eq, le_sub_iff_add_le]
            exact ⟨lt_of_not_ge hw, (add_le_add_left hts _).trans hbehind⟩
          refine Or.inr (hvs ▸ mem_page_of_le (fun a ha b hb heq => ?_) hv hpv hmem hle)
          exact eq_of_key_eq hpks ha hb (congrArg (fun k : Time ×ₗ K => (ofLex k).2) heq)
      · rw [← hvs] at hv
        exact hseen v (mem_of_mem_page hv).1

end Source

/-! ## What a job copies -/

/-- The columns that say what a job copies. -/
def jobColumns (r : JobRow) : JobSpec where
  traceId := r.traceId
  src := r.src
  dst := r.dst
  srcProtocol := r.srcProtocol
  dstProtocol := r.dstProtocol

theorem RowStep.columns {now : Time} {op : Op} {r r' : JobRow} {kinds : List EventStatus}
    (h : RowStep now op r r' kinds) : jobColumns r = jobColumns r' := by
  cases h <;> rfl

/-- No statement rewrites what a job copies. -/
theorem exec_columns {t : Tables} (hwf : t.Wf) {now : Time} {op : Op} {r : JobRow}
    (hr : r ∈ (exec t now op).jobs) :
    (∃ x ∈ t.jobs, jobColumns x = jobColumns r) ∨ Inserted now op.newJobs r := by
  by_cases hret : op.IsRetention
  · obtain ⟨keep, hpruned⟩ := exec_retention hwf now hret
    exact Or.inl ⟨r, (hpruned.trail hr).1, rfl⟩
  · obtain ⟨d⟩ := exec_delta hwf now hret
    rcases d.mem_jobs.mp hr with ⟨x, hx, rfl⟩ | hnew
    · exact Or.inl ⟨x, hx, RowStep.columns (d.rows x hx)⟩
    · exact Or.inr (d.new_inserted hwf hnew)

/-! ## The invariant of the fleet -/

section Fleet

variable {ι : Type} (lib : GoLib) {src : ι → Source} (past : Fleet src → Prop)

/-- A version that has been enqueued, or that does not render. -/
def Enqueued (i : ι) (v : Version (src i).K) : Prop :=
  ∃ s, past s ∧ Covered lib (src i).col (src i).cfg s.tables v

/-- A version that has been visible. -/
def Seen (i : ι) (v : Version (src i).K) : Prop := ∃ s, past s ∧ v ∈ s.visible i

/-- The job was rendered from a version of the row. -/
def RenderedFrom (i : ι) (pk : (src i).K) (r : JobRow) : Prop :=
  ∃ v, Seen past i v ∧ v.pk = pk ∧
    (src i).cfg.spec lib (v.row lib (src i).col (src i).cfg.query) = some (jobColumns r)

/-- The trace id of a source row stands for that row. -/
def Owned (r : JobRow) : Prop := ∀ i pk, r.traceId = (src i).trace pk → RenderedFrom lib past i pk r

/-- `past` are the states so far. -/
structure FleetInv (s : Fleet src) : Prop where
  now : past s
  wf : s.tables.Wf
  pks : ∀ i, ((s.visible i).map Version.pk).Nodup
  states : ∀ i r, s.states (src i).cfg.sourceId = some r →
    RowInv (src i).col (src i).cfg (Enqueued lib past i) (s.visible i) (s.clock i) r
  pods : ∀ i pod, PodInv lib (src i).col (src i).cfg (Enqueued lib past i) (Seen past i)
    (s.visible i) (s.clock i) (s.phase i pod)
  jobs : ∀ r ∈ s.tables.jobs, Owned lib past r

/-- The sources have their own watermarks and their own trace ids. -/
structure Apart (src : ι → Source) : Prop where
  ids : Function.Injective fun i => (src i).cfg.sourceId
  traces : ∀ i j pk pk', (src i).trace pk = (src j).trace pk' → i = j

variable {lib past} {past' : Fleet src → Prop} {s : Fleet src}

/-- A longer past. -/
theorem change_past (hsub : ∀ x, past x → past' x) (i : ι) {vis : List (Version (src i).K)}
    {clock clock' : Time} {vis' : List (Version (src i).K)} (hclock : clock ≤ clock')
    (hvis : ∀ v ∈ vis', v ∈ vis ∨ clock < v.ts + (src i).cfg.query.bias) :
    Change (src i).cfg (Enqueued lib past i) (Seen past i) vis clock (Enqueued lib past' i)
      (Seen past' i) vis' clock' where
  covered := fun _ ⟨x, hx, hv⟩ => ⟨x, hsub x hx, hv⟩
  seen := fun _ ⟨x, hx, hv⟩ => ⟨x, hsub x hx, hv⟩
  later := hclock
  visible := hvis

theorem Owned.mono {r x : JobRow} (hsub : ∀ x, past x → past' x) (h : Owned lib past x)
    (heq : jobColumns x = jobColumns r) : Owned lib past' r := by
  intro i pk htrace
  have hx : x.traceId = r.traceId := congrArg JobSpec.traceId heq
  obtain ⟨v, ⟨y, hy, hv⟩, hpk, hspec⟩ := h i pk (hx.trans htrace)
  exact ⟨v, ⟨y, hsub y hy, hv⟩, hpk, heq ▸ hspec⟩

/-- What a pod or a source has to show for its step. -/
structure PutInv (lib : GoLib) (past' : Fleet src → Prop) (s : Fleet src) (i : ι)
    (w : World (src i).K) : Prop where
  wf : w.tables.Wf
  pks : (w.visible.map Version.pk).Nodup
  later : s.clock i ≤ w.clock
  visible : ∀ v ∈ w.visible, v ∈ s.visible i ∨ s.clock i < v.ts + (src i).cfg.query.bias
  others : ∀ j, j ≠ i → w.states (src j).cfg.sourceId = s.states (src j).cfg.sourceId
  states : ∀ r, w.states (src i).cfg.sourceId = some r →
    s.states (src i).cfg.sourceId = some r ∨
      RowInv (src i).col (src i).cfg (Enqueued lib past' i) w.visible w.clock r
  phase : PodInv lib (src i).col (src i).cfg (Enqueued lib past' i) (Seen past' i) w.visible w.clock
    w.phase
  jobs : ∀ r ∈ w.tables.jobs, Owned lib past' r

variable [DecidableEq ι]

theorem FleetInv.put (h : FleetInv lib past s) (hsub : ∀ x, past x → past' x) {i : ι} {pod : Nat}
    {w : World (src i).K} (hpast : past' (s.put i pod w)) (hw : PutInv lib past' s i w) :
    FleetInv lib past' (s.put i pod w) := by
  have hchange : ∀ j, Change (src j).cfg (Enqueued lib past j) (Seen past j) (s.visible j)
      (s.clock j) (Enqueued lib past' j) (Seen past' j) ((s.put i pod w).visible j)
      ((s.put i pod w).clock j) := by
    intro j
    by_cases hj : j = i
    · subst hj
      simp only [Fleet.put, Function.update_self]
      exact change_past hsub j hw.later hw.visible
    · simp only [Fleet.put, Function.update_of_ne hj]
      exact change_past hsub j le_rfl fun v hv => Or.inl hv
  refine ⟨hpast, hw.wf, fun j => ?_, fun j r hr => ?_, fun j p => ?_, hw.jobs⟩
  · by_cases hj : j = i
    · subst hj
      simpa only [Fleet.put, Function.update_self] using hw.pks
    · simpa only [Fleet.put, Function.update_of_ne hj] using h.pks j
  · by_cases hj : j = i
    · subst hj
      rcases hw.states r hr with hold | hnew
      · exact (h.states j r hold).change (hchange j)
      · simpa only [Fleet.put, Function.update_self] using hnew
    · exact (h.states j r (hw.others j hj ▸ hr)).change (hchange j)
  · have hkept : PodInv lib (src j).col (src j).cfg (Enqueued lib past' j) (Seen past' j)
        ((s.put i pod w).visible j) ((s.put i pod w).clock j) (s.phase j p) :=
      (h.pods j p).change (hchange j)
    by_cases hj : j = i
    · subst hj
      by_cases hp : p = pod
      · subst hp
        simpa only [Fleet.put, Function.update_self] using hw.phase
      · simpa only [Fleet.put, Function.update_self, Function.update_of_ne hp] using hkept
    · simpa only [Fleet.put, Function.update_of_ne hj] using hkept

end Fleet

/-! ## Steps -/

section Steps

variable {ι : Type} {lib : GoLib} {src : ι → Source} {past past' : Fleet src → Prop} {s : Fleet src}

/-- Nothing but the phase changes. -/
theorem FleetInv.setPhase (h : FleetInv lib past s) (hsub : ∀ x, past x → past' x) {i : ι}
    (pod : Nat) {ph : Phase} (hph : PodInv lib (src i).col (src i).cfg (Enqueued lib past' i)
      (Seen past' i) (s.visible i) (s.clock i) ph) :
    PutInv lib past' s i { s.world i pod with phase := ph } where
  wf := h.wf
  pks := h.pks i
  later := le_rfl
  visible := fun _ hv => Or.inl hv
  others := fun _ _ => rfl
  states := fun _ hr => Or.inl hr
  phase := hph
  jobs := fun r hr => (h.jobs r hr).mono hsub rfl

theorem FleetInv.pod (h : FleetInv lib past s) (hsub : ∀ x, past x → past' x) (i : ι) (pod : Nat) :
    PodInv lib (src i).col (src i).cfg (Enqueued lib past' i) (Seen past' i) (s.visible i)
      (s.clock i) (s.phase i pod) :=
  (h.pods i pod).change (change_past hsub i le_rfl fun _ hv => Or.inl hv)

theorem FleetInv.keep (h : FleetInv lib past s) (hsub : ∀ x, past x → past' x) (i : ι) (pod : Nat) :
    PutInv lib past' s i (s.world i pod) :=
  h.setPhase hsub pod (h.pod hsub i pod)

/-- A change of the source table that the bias allows. -/
theorem FleetInv.source (h : FleetInv lib past s) (hsub : ∀ x, past x → past' x) {i : ι}
    {vis : List (Version (src i).K)} (hpks : (vis.map Version.pk).Nodup)
    (hvis : ∀ v ∈ vis, v ∈ s.visible i ∨ s.clock i < v.ts + (src i).cfg.query.bias) :
    PutInv lib past' s i { s.world i 0 with visible := vis } where
  wf := h.wf
  pks := hpks
  later := le_rfl
  visible := hvis
  others := fun _ _ => rfl
  states := fun _ hr => Or.inl hr
  phase := (h.pods i 0).change (change_past hsub i le_rfl hvis)
  jobs := fun r hr => (h.jobs r hr).mono hsub rfl

theorem FleetInv.commit (h : FleetInv lib past s) (hsub : ∀ x, past x → past' x) {i : ι}
    (v : Version (src i).K) :
    PutInv lib past' s i (step lib (src i).col (src i).cfg (s.world i 0) (.commit v)) := by
  simp only [step]
  split
  · rename_i hlt
    refine h.source hsub ?_ fun x hx => ?_
    · rw [List.map_cons, List.nodup_cons]
      refine ⟨fun hmem => ?_, (h.pks i).sublist (List.filter_sublist.map _)⟩
      obtain ⟨x, hx, hpk⟩ := List.mem_map.mp hmem
      exact of_decide_eq_true (List.mem_filter.mp hx).2 hpk
    · rcases List.mem_cons.mp hx with rfl | hx
      · exact Or.inr hlt
      · exact Or.inl (List.mem_of_mem_filter hx)
  · exact h.keep hsub i 0

theorem FleetInv.delete (h : FleetInv lib past s) (hsub : ∀ x, past x → past' x) {i : ι}
    (pk : (src i).K) :
    PutInv lib past' s i (step lib (src i).col (src i).cfg (s.world i 0) (.delete pk)) :=
  h.source hsub ((h.pks i).sublist (List.filter_sublist.map _))
    fun _ hx => Or.inl (List.mem_of_mem_filter hx)

theorem FleetInv.load (h : FleetInv lib past s) (hsub : ∀ x, past x → past' x) (i : ι) (pod : Nat)
    (ok : Bool) :
    PutInv lib past' s i (step lib (src i).col (src i).cfg (s.world i pod) (.load ok)) := by
  simp only [step]
  split
  · split
    · refine h.setPhase hsub pod (podInv_load (w := s.world i pod) fun r hr => ?_)
      exact (h.states i r hr).change (change_past hsub i le_rfl fun _ hv => Or.inl hv)
    · exact h.keep hsub i pod
  · exact h.keep hsub i pod

/-- A query with a later `NOW()`. -/
theorem FleetInv.setClock (h : FleetInv lib past s) (hsub : ∀ x, past x → past' x) {i : ι}
    (pod : Nat) {now : Time} (hnow : s.clock i ≤ now) {ph : Phase}
    (hph : PodInv lib (src i).col (src i).cfg (Enqueued lib past' i) (Seen past' i) (s.visible i)
      now ph) :
    PutInv lib past' s i { s.world i pod with clock := now, phase := ph } where
  wf := h.wf
  pks := h.pks i
  later := hnow
  visible := fun _ hv => Or.inl hv
  others := fun _ _ => rfl
  states := fun _ hr => Or.inl hr
  phase := hph
  jobs := fun r hr => (h.jobs r hr).mono hsub rfl

theorem FleetInv.fetch (h : FleetInv lib past s) (hsub : ∀ x, past x → past' x) (i : ι) (pod : Nat)
    (now : Time) (ok : Bool) :
    PutInv lib past' s i (step lib (src i).col (src i).cfg (s.world i pod) (.fetch now ok)) := by
  simp only [step]
  split
  · rename_i st hph
    split
    · exact h.keep hsub i pod
    · rename_i hnow
      split
      · have hloaded := h.pod hsub i pod
        rw [show s.phase i pod = .loaded st from hph] at hloaded
        exact h.setClock hsub pod (not_lt.mp hnow)
          (podInv_fetch (h.pks i) (fun v hv => ⟨s, hsub s h.now, hv⟩) hloaded now)
      · exact h.setClock hsub pod (not_lt.mp hnow) trivial
  · exact h.keep hsub i pod

theorem spec_traceId {cfg : Config} {row : Row} {j : JobSpec} (h : cfg.spec lib row = some j) :
    j.traceId = traceID cfg.query.table row.pk := by
  unfold Config.spec at h
  split at h
  · cases h
  · split at h
    · cases h
    · cases h
      rfl

/-- A new job of a batch is rendered from the version of its row. -/
theorem owned_of_batch (hapart : Apart src) {i : ι} {vs : List (Version (src i).K)}
    (hseen : ∀ v ∈ vs, Seen past i v) {now : Time} {r : JobRow}
    (hr : Inserted now (Op.newJobs (.enqueueBatch
      ((src i).cfg.specs lib (vs.map (Version.row lib (src i).col (src i).cfg.query))))) r) :
    Owned lib past r := by
  obtain ⟨n, hn, heq⟩ := hr
  obtain ⟨j, hj, rfl⟩ := List.mem_map.mp hn
  obtain ⟨row, hrow, hspec⟩ := List.mem_filterMap.mp hj
  obtain ⟨v, hv, rfl⟩ := List.mem_map.mp hrow
  have hcols : jobColumns r = j := by rw [heq]; rfl
  intro i' pk htrace
  have hsame : (src i).trace v.pk = (src i').trace pk :=
    (spec_traceId hspec).symm.trans ((congrArg JobSpec.traceId hcols).symm.trans htrace)
  obtain rfl := hapart.traces i i' v.pk pk hsame
  refine ⟨v, hseen v hv, (src i).trace_inj hsame, ?_⟩
  rw [hspec, hcols]

/-- A committed batch. -/
theorem FleetInv.batch (h : FleetInv lib past s) (hsub : ∀ x, past x → past' x)
    (hapart : Apart src) {i : ι} {pod : Nat} {now : Time} {rows : List Row}
    (hph : s.phase i pod = .fetched rows) {ph : Phase} (hidle : ph = .idle ∨ ph = .enqueued rows)
    {t : Tables} (ht : t = exec s.tables now (.enqueueBatch ((src i).cfg.specs lib rows)))
    (hpast : ∃ x, past' x ∧ x.tables = t) :
    PutInv lib past' s i { s.world i pod with tables := t, phase := ph } := by
  have hpod := h.pod hsub i pod
  rw [hph] at hpod
  obtain ⟨vs, last, hf⟩ := hpod
  have hrows := hf.rows
  subst hrows
  have hwf : t.Wf := ht ▸ exec_wf h.wf now _
  refine ⟨hwf, h.pks i, le_rfl, fun _ hv => Or.inl hv, fun _ _ => rfl,
    fun _ hr => Or.inl hr, ?_, fun r hr => ?_⟩
  · rcases hidle with rfl | rfl
    · trivial
    · refine ⟨last, by rw [List.getLast?_map, hf.getLast]; rfl, hf.behind, fun v hv hle => ?_⟩
      refine (hf.complete v hv hle).elim id fun hmem => ?_
      obtain ⟨x, hx, htables⟩ := hpast
      exact ⟨x, hx, htables ▸ ht ▸ covered_of_enqueueBatch h.wf now hmem⟩
  · rcases exec_columns h.wf (ht ▸ hr) with ⟨x, hx, hcols⟩ | hins
    · exact (h.jobs x hx).mono hsub hcols
    · exact owned_of_batch hapart hf.seen hins

theorem FleetInv.upsert (h : FleetInv lib past s) (hsub : ∀ x, past x → past' x)
    (hapart : Apart src) (i : ι) (pod : Nat) (o : Outcome) :
    PutInv lib past' s i (step lib (src i).col (src i).cfg (s.world i pod) (.upsert o)) := by
  simp only [step]
  split
  · rename_i rows hph
    have hpod := h.pod hsub i pod
    rw [show s.phase i pod = .enqueued rows from hph] at hpod
    obtain ⟨last, hlast, hsafe⟩ := hpod
    have hdone : PutInv lib past' s i
        { s.world i pod with
          states :=
            s.states.upsert ((src i).cfg.advance (last.row lib (src i).col (src i).cfg.query))
          phase := .idle } := by
      refine ⟨h.wf, h.pks i, le_rfl, fun _ hv => Or.inl hv, fun j hj => ?_, fun r hr => Or.inr ?_,
        trivial, fun r hr => (h.jobs r hr).mono hsub rfl⟩
      · exact Function.update_of_ne (fun heq => hj (hapart.ids heq)) _ _
      · have hupsert : s.states.upsert ((src i).cfg.advance
            (last.row lib (src i).col (src i).cfg.query)) (src i).cfg.sourceId =
            some ⟨last.ts, some ((src i).col.text last.pk)⟩ := by
          simp [StateTable.upsert, Config.advance, Version.row, (src i).col.text_ne]
        obtain rfl := Option.some.inj (hr.symm.trans hupsert)
        exact ⟨last.pk, rfl, hsafe⟩
    rw [hlast]
    cases o with
    | ok => exact hdone
    | lost => exact hdone
    | failed => exact h.setPhase hsub pod trivial
  · exact h.keep hsub i pod

/-- A statement of another writer. -/
theorem FleetInv.queue (h : FleetInv lib past s) (hsub : ∀ x, past x → past' x) {now : Time}
    {op : Op} (hop : (FleetAction.queue now op : FleetAction src).Foreign)
    (hpast : past' { s with tables := exec s.tables now op }) :
    FleetInv lib past' { s with tables := exec s.tables now op } where
  now := hpast
  wf := exec_wf h.wf now op
  pks := h.pks
  states := fun i r hr =>
    (h.states i r hr).change (change_past hsub i le_rfl fun _ hv => Or.inl hv)
  pods := fun i pod => h.pod hsub i pod
  jobs := by
    intro r hr
    rcases exec_columns h.wf hr with ⟨x, hx, hcols⟩ | ⟨n, hn, heq⟩
    · exact (h.jobs x hx).mono hsub hcols
    · intro i pk htrace
      have htraceId : r.traceId = n.traceId := by rw [heq]; rfl
      exact absurd (htraceId.symm.trans htrace) (hop n hn i pk)

variable [DecidableEq ι]

theorem FleetInv.enqueueBatch (h : FleetInv lib past s) (hsub : ∀ x, past x → past' x)
    (hapart : Apart src) {i : ι} {pod : Nat} {now : Time} {o : Outcome}
    (hpast : past' (s.act lib i pod (.enqueueBatch now o))) :
    PutInv lib past' s i
      (step lib (src i).col (src i).cfg (s.world i pod) (.enqueueBatch now o)) := by
  have hnow : ∃ x, past' x ∧ x.tables =
      (step lib (src i).col (src i).cfg (s.world i pod) (.enqueueBatch now o)).tables :=
    ⟨_, hpast, rfl⟩
  cases hph : s.phase i pod with
  | fetched rows =>
    have hworld : (s.world i pod).phase = .fetched rows := hph
    simp only [step, hworld] at hnow ⊢
    cases o with
    | ok => exact h.batch hsub hapart hph (Or.inr rfl) rfl hnow
    | lost => exact h.batch hsub hapart hph (Or.inl rfl) rfl hnow
    | failed => exact h.setPhase hsub pod trivial
  | idle | loaded st | enqueued rows =>
    have hworld : (s.world i pod).phase = _ := hph
    simp only [step, hworld]
    exact h.keep hsub i pod

theorem FleetInv.step (h : FleetInv lib past s) (hsub : ∀ x, past x → past' x)
    (hapart : Apart src) {a : FleetAction src} (ha : a.Foreign)
    (hpast : past' (fleetStep lib s a)) : FleetInv lib past' (fleetStep lib s a) := by
  cases a with
  | commit i v => exact h.put hsub hpast (h.commit hsub v)
  | delete i pk => exact h.put hsub hpast (h.delete hsub pk)
  | call i pod c =>
    refine h.put hsub hpast ?_
    cases c with
    | load ok => exact h.load hsub i pod ok
    | fetch now ok => exact h.fetch hsub i pod now ok
    | enqueueBatch now o => exact h.enqueueBatch hsub hapart hpast
    | upsert o => exact h.upsert hsub hapart i pod o
    | crash => exact h.setPhase hsub pod trivial
  | queue now op => exact h.queue hsub ha hpast

end Steps

/-! ## Runs -/

section Runs

variable {ι : Type} {lib : GoLib} {src : ι → Source} {clock : ι → Time}

theorem fleetInv_init {past : Fleet src → Prop} (h : past (Fleet.init clock)) :
    FleetInv lib past (Fleet.init clock) where
  now := h
  wf := Tables.wf_empty
  pks := fun _ => List.nodup_nil
  states := fun i r hr => by cases hr
  pods := fun _ _ => trivial
  jobs := fun r hr => by cases hr

/-- No statement but those of retention removes a job. -/
theorem exec_kept {t : Tables} (hwf : t.Wf) (now : Time) {op : Op} (hop : ¬op.IsRetention)
    {r : JobRow} (hr : r ∈ t.jobs) :
    ∃ r' ∈ (exec t now op).jobs, jobColumns r' = jobColumns r := by
  obtain ⟨d⟩ := exec_delta hwf now hop
  exact ⟨d.f r, d.mem_jobs.mpr (Or.inl ⟨r, hr, rfl⟩), (RowStep.columns (d.rows r hr)).symm⟩

/-- The tables after a call of a pod. -/
theorem call_tables (lib : GoLib) {K : Type} [LinearOrder K] (col : PkColumn K) (cfg : Config)
    (w : World K) (c : Call) :
    (step lib col cfg w c.action).tables = w.tables ∨ ∃ now specs,
      (step lib col cfg w c.action).tables = exec w.tables now (.enqueueBatch specs) := by
  cases c with
  | load ok =>
    simp only [Call.action, step]
    split
    · split <;> exact Or.inl rfl
    · exact Or.inl rfl
  | fetch now ok =>
    simp only [Call.action, step]
    split
    · split
      · exact Or.inl rfl
      · split <;> exact Or.inl rfl
    · exact Or.inl rfl
  | enqueueBatch now o =>
    simp only [Call.action, step]
    split
    · cases o with
      | ok => exact Or.inr ⟨now, _, rfl⟩
      | lost => exact Or.inr ⟨now, _, rfl⟩
      | failed => exact Or.inl rfl
    · exact Or.inl rfl
  | upsert o =>
    simp only [Call.action, step]
    split
    · split <;> exact Or.inl rfl
    · exact Or.inl rfl
  | crash => exact Or.inl rfl

variable [DecidableEq ι]

/-- A step runs one statement on the queue, or none. -/
theorem fleetStep_tables (lib : GoLib) (s : Fleet src) (a : FleetAction src) :
    (fleetStep lib s a).tables = s.tables ∨ ∃ now op, (op.IsRetention → a.IsRetention) ∧
      (fleetStep lib s a).tables = exec s.tables now op := by
  cases a with
  | commit i v =>
    simp only [fleetStep, Fleet.act, Fleet.put, step]
    split <;> exact Or.inl rfl
  | delete i pk => exact Or.inl rfl
  | call i pod c =>
    rcases call_tables lib (src i).col (src i).cfg (s.world i pod) c with
      hsame | ⟨now, specs, hexec⟩
    · exact Or.inl hsame
    · exact Or.inr ⟨now, .enqueueBatch specs, False.elim, hexec⟩
  | queue now op => exact Or.inr ⟨now, op, id, rfl⟩

/-- A run without retention keeps every job. -/
theorem foldl_kept {as : List (FleetAction src)} (h : ∀ a ∈ as, ¬a.IsRetention) {s : Fleet src}
    (hwf : s.tables.Wf) {r : JobRow} (hr : r ∈ s.tables.jobs) :
    ∃ r' ∈ (as.foldl (fleetStep lib) s).tables.jobs, jobColumns r' = jobColumns r := by
  refine (foldl_mem (fun s : Fleet src => s.tables.Wf ∧
    ∃ r' ∈ s.tables.jobs, jobColumns r' = jobColumns r) ?_ ⟨hwf, r, hr, rfl⟩ h).2
  rintro s a ⟨hwf, x, hx, hcols⟩ ha
  rcases fleetStep_tables lib s a with hsame | ⟨now, op, hret, hexec⟩
  · rw [hsame]
    exact ⟨hwf, x, hx, hcols⟩
  · rw [hexec]
    obtain ⟨x', hx', hcols'⟩ := exec_kept hwf now (fun hop => ha (hret hop)) hx
    exact ⟨exec_wf hwf now op, x', hx', hcols'.trans hcols⟩

variable (lib clock)

/-- The states that a run passes. -/
def Passed (as : List (FleetAction src)) (s : Fleet src) : Prop :=
  ∃ before after, as = before ++ after ∧ s = fleetReach lib clock before

variable {lib clock}

theorem fleetReach_append (as bs : List (FleetAction src)) :
    fleetReach lib clock (as ++ bs) = bs.foldl (fleetStep lib) (fleetReach lib clock as) :=
  List.foldl_append

theorem fleetReach_inv (hapart : Apart src) {as : List (FleetAction src)}
    (h : ∀ a ∈ as, a.Foreign) :
    FleetInv lib (Passed lib clock as) (fleetReach lib clock as) := by
  induction as using List.reverseRecOn with
  | nil => exact fleetInv_init ⟨[], [], rfl, rfl⟩
  | append_singleton as a ih =>
    have hinv := ih fun x hx => h x (List.mem_append_left _ hx)
    have hlast := h a (List.mem_append_right as (List.mem_singleton_self a))
    rw [fleetReach_append]
    refine hinv.step (fun x => ?_) hapart hlast ?_
    · rintro ⟨before, after, rfl, rfl⟩
      exact ⟨before, after ++ [a], (List.append_assoc _ _ _), rfl⟩
    · exact ⟨as ++ [a], [], (List.append_nil _).symm, (fleetReach_append as [a]).symm⟩

end Runs

/-- A version up to the persisted watermark of its source has been enqueued. -/
theorem FleetInv.enqueued {ι : Type} {lib : GoLib} {src : ι → Source} {past : Fleet src → Prop}
    {s : Fleet src} (h : FleetInv lib past s) {i : ι} {v : Version (src i).K} (hv : v ∈ s.visible i)
    (hle : (v.key : WithBot (Time ×ₗ (src i).K)) ≤ s.watermark i) : Enqueued lib past i v := by
  rw [Fleet.watermark, World.watermark] at hle
  cases hst : s.states (src i).cfg.sourceId with
  | none =>
    have hbot : (s.world i 0).states (src i).cfg.sourceId = none := hst
    rw [hbot] at hle
    exact absurd hle (WithBot.not_coe_le_bot _)
  | some r =>
    have hrow : (s.world i 0).states (src i).cfg.sourceId = some r := hst
    obtain ⟨k, hk, hsafe⟩ := h.states i r hst
    simp only [hrow, hk, Option.bind_some, (src i).col.parse_text, WithBot.coe_le_coe] at hle
    exact hsafe.covered v hv hle

/-- Any number of pods and sources.  The trace ids of the sources do not meet, no other
writer uses one of them, and versions become visible within the bias of their source:
`Sniffer.step` has no later commits.  Then a visible version up to the persisted
watermark of its source does not render, or at some point of the run the queue had its
job, which was rendered from a version of the same row, and which is still there unless
retention has run since.  A job key is never used twice at a time. -/
theorem fleet_no_loss {ι : Type} [DecidableEq ι] (lib : GoLib) (src : ι → Source)
    (hapart : Apart src) (clock : ι → Time) (as : List (FleetAction src))
    (h : ∀ a ∈ as, a.Foreign) :
    (∀ i, ∀ v ∈ (fleetReach lib clock as).visible i,
      (v.key : WithBot (Time ×ₗ (src i).K)) ≤ (fleetReach lib clock as).watermark i →
      Unrenderable lib (src i).col (src i).cfg v ∨
      ∃ dst, (src i).cfg.dst.render lib (v.fields lib (src i).col (src i).cfg.query) = .ok dst ∧
        ∃ before after, as = before ++ after ∧
        ∃ r ∈ (fleetReach lib clock before).tables.jobs, r.key = ((src i).trace v.pk, dst) ∧
          RenderedFrom lib (Passed lib clock before) i v.pk r ∧
          ((∀ a ∈ after, ¬a.IsRetention) →
            ∃ r' ∈ (fleetReach lib clock as).tables.jobs, jobColumns r' = jobColumns r)) ∧
    ((fleetReach lib clock as).tables.jobs.map JobRow.key).Nodup := by
  have hinv : FleetInv lib (Passed lib clock as) (fleetReach lib clock as) :=
    fleetReach_inv hapart h
  refine ⟨fun i v hv hle => ?_, hinv.wf.keys⟩
  obtain ⟨x, ⟨before, after, hsplit, rfl⟩, hcovered⟩ := hinv.enqueued hv hle
  subst hsplit
  rcases hcovered with ⟨dst, hdst, r, hr, hkey⟩ | hpoison
  · -- The job was there after `before`, so the invariant at that point says where it is from.
    have hthen : FleetInv lib (Passed lib clock before) (fleetReach lib clock before) :=
      fleetReach_inv hapart fun a ha => h a (List.mem_append_left after ha)
    refine Or.inr ⟨dst, hdst, before, after, rfl, r, hr, hkey,
      hthen.jobs r hr i v.pk (congrArg Prod.fst hkey), fun hkeep => ?_⟩
    rw [fleetReach_append]
    exact foldl_kept hkeep hthen.wf hr
  · exact Or.inl hpoison

/-! ## Trace ids that meet -/

/-- Table names that are told apart by what stands in front of the key. -/
theorem apart_of_tables {ι : Type} {src : ι → Source}
    (hids : Function.Injective fun i => (src i).cfg.sourceId)
    (htables : ∀ i j, ((src i).cfg.query.table ++ "-").toList <+:
      ((src j).cfg.query.table ++ "-").toList → i = j) : Apart src := by
  refine ⟨hids, fun i j pk pk' h => ?_⟩
  have hlist := congrArg String.toList h
  simp only [Source.trace, traceID, String.toList_append] at hlist
  have hi : ((src i).cfg.query.table ++ "-").toList <+:
      ((src i).cfg.query.table ++ "-").toList ++ ((src i).col.text pk).toList :=
    List.prefix_append _ _
  have hj : ((src j).cfg.query.table ++ "-").toList <+:
      ((src j).cfg.query.table ++ "-").toList ++ ((src j).col.text pk').toList :=
    List.prefix_append _ _
  simp only [String.toList_append] at hi hj htables
  rw [hlist] at hi
  rcases List.prefix_or_prefix_of_prefix hi hj with hle | hle
  · exact htables i j hle
  · exact (htables j i hle).symm

/-- Two tables in one schema, `images` and `photos`. -/
def album (b : Bool) : Source where
  K := KeyType.Key .bigint
  order := inferInstance
  col := idColumn
  cfg := { imagesConfig 2 with
    sourceId := if b then "photos" else "images"
    query := ⟨if b then "photos" else "images", "id", "created_at", [], 2, 0⟩ }

theorem album_apart : Apart album := by
  refine apart_of_tables ?_ ?_
  · intro i j h
    cases i <;> cases j <;> simp_all [album]
  · intro i j h
    cases i <;> cases j <;> simp_all [album]

/-- Two pods of one source poll at the same time. -/
def overlap : List (FleetAction album) :=
  [.commit false (image 1), .call false 0 (.load true), .call false 1 (.load true),
    .call false 0 (.fetch 0 true), .call false 1 (.fetch 0 true),
    .call false 1 (.enqueueBatch 0 .ok), .call false 0 (.enqueueBatch 0 .ok),
    .call false 0 (.upsert .ok), .call false 1 (.upsert .ok)]

/-- A pod fetches the image. -/
theorem album_fetch {s : Fleet album} {pod : Nat}
    (hphase : s.phase false pod = .loaded ⟨"images", zeroTime, ""⟩)
    (hvis : s.visible false = [image 1]) (hclock : s.clock false ≤ 0) :
    fleetStep columnLib s (.call false pod (.fetch 0 true)) =
      s.put false pod { s.world false pod with
        clock := 0
        phase := .fetched [(image 1).row columnLib idColumn (imagesConfig 2).query] } := by
  have hfetch : (album false).cfg.query.fetch columnLib (album false).col (s.visible false) 0
      ⟨"images", zeroTime, ""⟩ = .ok [(image 1).row columnLib idColumn (imagesConfig 2).query] := by
    have hafter : (⟨"images", zeroTime, ""⟩ : State).after idColumn =
      .ok fun v => decide (zeroTime < v.ts) := rfl
    rw [hvis]
    refine ((imagesConfig_valid (by decide)).fetch_eq hafter _ _).trans ?_
    simp [page, image, zeroTime, Query.bias, Query.biasSec, imagesConfig]
  have hworld : (s.world false pod).phase = .loaded ⟨"images", zeroTime, ""⟩ := hphase
  have hnow : ¬(0 : Time) < (s.world false pod).clock := not_lt.mpr hclock
  have hvisible : (s.world false pod).visible = s.visible false := rfl
  simp only [fleetStep, Fleet.act, Call.action, step, hworld, hnow, if_false, if_true, hvisible,
    hfetch, afterFetch]

/-- Both pods persist the image. -/
theorem overlap_states : (fleetReach columnLib (fun _ => -1) overlap).visible false = [image 1] ∧
    (fleetReach columnLib (fun _ => -1) overlap).states "images" =
      some ⟨(image 1).ts, some (idColumn.text (image 1).pk)⟩ := by
  have hsplit : fleetReach columnLib (fun _ => -1) overlap =
      (overlap.drop 5).foldl (fleetStep columnLib)
        (fleetStep columnLib (fleetStep columnLib (fleetReach columnLib (fun _ => -1)
          (overlap.take 3)) (.call false 0 (.fetch 0 true))) (.call false 1 (.fetch 0 true))) := rfl
  rw [hsplit, album_fetch rfl rfl (by decide), album_fetch rfl rfl (by decide)]
  refine ⟨rfl, ?_⟩
  show StateTable.upsert (StateTable.upsert (fun _ => none) ((imagesConfig 2).advance
    ((image 1).row columnLib idColumn (imagesConfig 2).query))) ((imagesConfig 2).advance
    ((image 1).row columnLib idColumn (imagesConfig 2).query)) (imagesConfig 2).sourceId = _
  simp [StateTable.upsert, Config.advance, Version.row, idColumn.text_ne]

/-- The image of `overlap` is behind the watermark, so it has had its job. -/
theorem fleet_no_loss_overlap :
    (∀ v ∈ (fleetReach columnLib (fun _ => -1) overlap).visible false,
      (v.key : WithBot (Time ×ₗ (album false).K)) ≤
        (fleetReach columnLib (fun _ => -1) overlap).watermark false) ∧
    ∀ v ∈ (fleetReach columnLib (fun _ => -1) overlap).visible false,
      Unrenderable columnLib idColumn (album false).cfg v ∨
        ∃ before after, overlap = before ++ after ∧
          ∃ r ∈ (fleetReach columnLib (fun _ => -1) before).tables.jobs,
            r.traceId = (album false).trace v.pk := by
  have hwm : (fleetReach columnLib (fun _ => -1) overlap).watermark false =
      ((toLex ((image 1).ts, (image 1).pk) : Time ×ₗ (album false).K) :
        WithBot (Time ×ₗ (album false).K)) := by
    have hrow : ((fleetReach columnLib (fun _ => -1) overlap).world false 0).states
      (album false).cfg.sourceId = _ := overlap_states.2
    have hparse : (album false).col.parse (idColumn.text (image 1).pk) = some (image 1).pk :=
      idColumn.parse_text _
    rw [Fleet.watermark, World.watermark, hrow]
    simp only [Option.bind_some, hparse]
  have hvis : ∀ v ∈ (fleetReach columnLib (fun _ => -1) overlap).visible false,
      (v.key : WithBot (Time ×ₗ (album false).K)) ≤
        (fleetReach columnLib (fun _ => -1) overlap).watermark false := by
    intro v hv
    rw [overlap_states.1] at hv
    obtain rfl := List.mem_singleton.mp hv
    rw [hwm]
    exact le_rfl
  have hforeign : ∀ a ∈ overlap, a.Foreign := by
    intro a ha
    simp only [overlap, List.mem_cons, List.not_mem_nil, or_false] at ha
    rcases ha with rfl | rfl | rfl | rfl | rfl | rfl | rfl | rfl | rfl <;> trivial
  refine ⟨hvis, fun v hv => ?_⟩
  refine ((fleet_no_loss columnLib album album_apart (fun _ => -1) overlap hforeign).1 false v hv
    (hvis v hv)).imp_right ?_
  rintro ⟨dst, -, before, after, hsplit, r, hr, hkey, -⟩
  exact ⟨before, after, hsplit, r, hr, congrArg Prod.fst hkey⟩

end ImgSync.Sniffer
