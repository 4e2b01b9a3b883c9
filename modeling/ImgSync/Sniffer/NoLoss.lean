import ImgSync.Sniffer.RunOnce

/-!
# The sniffer loses no row and duplicates no job

`SnifferInv` is what every reachable state satisfies.  Its core is that a
watermark is only ever the key of a row that a query returned, so it lies at
least `bias` behind the source clock, and no version with a key up to it can
become visible later.  What a fetched batch has to cover (`Batch`) therefore
does not grow between `Fetch` and `Upsert`.
-/

namespace ImgSync.Sniffer

open ImgSync.Lib ImgSync.Queue

/-! ## What a fetched row holds -/

section Rows

variable {K : Type} (lib : GoLib) (col : PkColumn K) (q : Query)

/-- The row that `Fetch` returns for a version. -/
def Version.row (v : Version K) : Row :=
  { pk := col.text v.pk, ts := v.ts, fields := v.fields lib col q }

variable {lib col q}

theorem foldl_update_apply {ι β : Type*} [DecidableEq ι] (g : ι → β) (cols : List ι)
    (f : ι → Option β) {c : ι} (hc : c ∈ cols ∨ f c = some (g c)) :
    cols.foldl (fun f c => Function.update f c (some (g c))) f c = some (g c) := by
  induction cols generalizing f with
  | nil => exact hc.resolve_left List.not_mem_nil
  | cons a cols ih =>
    apply ih
    show c ∈ cols ∨ Function.update f a (some (g a)) c = some (g c)
    by_cases hca : c = a
    · subst hca
      exact Or.inr (Function.update_self c _ f)
    · rw [Function.update_of_ne hca]
      exact hc.imp_left fun h => (List.mem_cons.mp h).resolve_left hca

/-- The key column keeps its text, also when an extra column repeats it. -/
theorem Version.fields_pk (v : Version K) :
    v.fields lib col q q.pkColumn = some (col.text v.pk) := by
  have h := foldl_update_apply (fun c => fieldText lib (v.value col q c)) q.cols (fun _ => none)
    (Or.inl List.mem_cons_self)
  unfold Version.fields
  rw [h]
  simp [Version.value, fieldText]

theorem scanRow_eq {v : Version K} {r : Row} (h : q.scanRow lib col v = .ok r) :
    r = v.row lib col q := by
  unfold Query.scanRow at h
  by_cases hcol : q.tsColumn = q.pkColumn
  · simp [Version.value, hcol] at h
  · simp only [Version.value, hcol, if_false, if_true, Except.ok.injEq] at h
    rw [← h, Version.fields_pk]
    rfl

theorem mapM_eq_map {α β ε : Type} {f : α → Except ε β} {g : α → β}
    (hfg : ∀ a b, f a = .ok b → b = g a) {l : List α} {l' : List β} (h : l.mapM f = .ok l') :
    l' = l.map g := by
  induction l generalizing l' with
  | nil =>
    cases h
    rfl
  | cons a l ih =>
    rw [List.mapM_cons] at h
    cases ha : f a with
    | error e => simp [ha, bind, Except.bind] at h
    | ok b =>
      cases hl : l.mapM f with
      | error e => simp [ha, hl, bind, Except.bind] at h
      | ok bs =>
        simp only [ha, hl, bind, Except.bind, pure, Except.pure, Except.ok.injEq] at h
        rw [← h, List.map_cons, ih hl, hfg a b ha]

end Rows

/-! ## The watermark -/

section Watermark

variable {K : Type} [LinearOrder K] {lib : GoLib} {col : PkColumn K} {cfg : Config}

/-- The persisted row carries the text of a key. -/
def KeyedRow (col : PkColumn K) (cfg : Config) (s : World K) : Prop :=
  ∀ r, s.states cfg.sourceId = some r → ∃ k, r.lastRunPK = some (col.text k)

omit [LinearOrder K] in
/-- The watermark is the persisted row, read in the column's type. -/
theorem KeyedRow.watermark_eq {s : World K} (h : KeyedRow col cfg s) {r : StateRow}
    (hr : s.states cfg.sourceId = some r) :
    ∃ k, r.lastRunPK = some (col.text k) ∧
      s.watermark col cfg = ((toLex (r.lastRunTS, k) : Time ×ₗ K) : WithBot (Time ×ₗ K)) := by
  obtain ⟨k, hk⟩ := h r hr
  refine ⟨k, hk, ?_⟩
  unfold World.watermark
  simp only [hr, hk, Option.bind_some, col.parse_text]

/-- The predicate of the query selects the versions above the watermark. -/
theorem after_load {s : World K} (hrow : KeyedRow col cfg s) :
    ∃ p, (s.states.load cfg.sourceId).after col = .ok p ∧
      ∀ v, p v = true ↔ s.watermark col cfg < (v.key : WithBot (Time ×ₗ K)) := by
  unfold StateTable.load State.after World.watermark
  cases hst : s.states cfg.sourceId with
  | none =>
    refine ⟨_, if_pos rfl, fun v => ?_⟩
    simp [v.after_zero, WithBot.bot_lt_coe]
  | some r =>
    obtain ⟨k, hk⟩ := hrow r hst
    refine ⟨fun v => decide (r.lastRunTS < v.ts) ||
      (decide (v.ts = r.lastRunTS) && decide (k < v.pk)), ?_, fun v => ?_⟩
    · simp [hk, col.parse_text, col.text_ne]
    · simp only [hk, Option.bind_some, col.parse_text, WithBot.coe_lt_coe, Version.key,
        Prod.Lex.toLex_lt_toLex, Bool.or_eq_true, Bool.and_eq_true, decide_eq_true_eq]
      constructor
      · exact Or.imp_right (And.imp_left Eq.symm)
      · exact Or.imp_right (And.imp_left Eq.symm)

/-- A successful `Fetch` from the persisted watermark returns the next page
above it, up to the bias. -/
theorem fetch_page {s : World K} (hrow : KeyedRow col cfg s) {now : Time} {rows : List Row}
    (h : cfg.query.fetch lib col s.visible now (s.states.load cfg.sourceId) = .ok rows) :
    ∃ p, rows = (page Version.key p cfg.query.batchSize.toNat s.visible).map
        (Version.row lib col cfg.query) ∧
      ∀ v, p v = true ↔ s.watermark col cfg < (v.key : WithBot (Time ×ₗ K)) ∧
        v.ts + cfg.query.bias ≤ now := by
  obtain ⟨p, hp, hspec⟩ := after_load hrow
  unfold Query.fetch at h
  rw [hp] at h
  split_ifs at h
  refine ⟨_, mapM_eq_map (fun a b => scanRow_eq) h, fun v => ?_⟩
  rw [Bool.and_eq_true, hspec, decide_eq_true_eq, le_sub_iff_add_le]

end Watermark

/-! ## The invariant -/

section Invariant

variable {K : Type} [LinearOrder K] (lib : GoLib) (col : PkColumn K) (cfg : Config)

/-- The version does not render, so no job can be made of it. -/
def Unrenderable (v : Version K) : Prop :=
  (∃ e, cfg.dst.render lib (v.fields lib col cfg.query) = .error e) ∨
    ∃ e, cfg.src.render lib (v.fields lib col cfg.query) = .error e

/-- The queue has a job for the version, or the version is a poison row. -/
def Covered (t : Tables) (v : Version K) : Prop :=
  (∃ dst, cfg.dst.render lib (v.fields lib col cfg.query) = .ok dst ∧
    ∃ r ∈ t.jobs, r.key = (traceID cfg.query.table (col.text v.pk), dst)) ∨
  Unrenderable lib col cfg v

/-- A batch between `Fetch` and `Upsert`: `vs` are the versions that it was
read from, and every visible version up to the last of them is behind the
watermark or in the batch. -/
structure Batch (s : World K) (rows : List Row) (vs : List (Version K)) (last : Version K) :
    Prop where
  rows : rows = vs.map (Version.row lib col cfg.query)
  getLast : vs.getLast? = some last
  behind : last.ts + cfg.query.bias ≤ s.clock
  above : s.watermark col cfg ≤ (last.key : WithBot (Time ×ₗ K))
  complete : ∀ v ∈ s.visible, v.key ≤ last.key →
    (v.key : WithBot (Time ×ₗ K)) ≤ s.watermark col cfg ∨ v ∈ vs

/-- What the sniffer's local variables mean at each point of `runOnceImpl`. -/
def PhaseInv (s : World K) : Phase → Prop
  | .idle => True
  | .loaded st => st = s.states.load cfg.sourceId
  | .fetched rows => ∃ vs last, Batch lib col cfg s rows vs last
  | .enqueued rows => ∃ vs last, Batch lib col cfg s rows vs last ∧
      ∀ v ∈ vs, Covered lib col cfg s.tables v

structure SnifferInv (s : World K) : Prop where
  wf : s.tables.Wf
  pks : (s.visible.map Version.pk).Nodup
  keyed : KeyedRow col cfg s
  behind : ∀ r, s.states cfg.sourceId = some r → r.lastRunTS + cfg.query.bias ≤ s.clock
  covered : ∀ v ∈ s.visible, (v.key : WithBot (Time ×ₗ K)) ≤ s.watermark col cfg →
    Covered lib col cfg s.tables v
  phase : PhaseInv lib col cfg s s.phase

end Invariant

section Steps

variable {K : Type} [LinearOrder K] {lib : GoLib} {col : PkColumn K} {cfg : Config}
  {s : World K}

theorem snifferInv_init (clock : Time) :
    SnifferInv lib col cfg (World.init clock : World K) where
  wf := Tables.wf_empty
  pks := List.nodup_nil
  keyed := by
    intro r h
    cases h
  behind := by
    intro r h
    cases h
  covered := by
    intro v h
    cases h
  phase := trivial

/-- A later timestamp is a later key. -/
theorem key_lt_of_ts {v w : Version K} (h : v.ts < w.ts) : v.key < w.key := by
  unfold Version.key
  rw [Prod.Lex.toLex_lt_toLex]
  exact Or.inl h

/-- A version that can still become visible is above the watermark. -/
theorem SnifferInv.watermark_lt (h : SnifferInv lib col cfg s) {v : Version K}
    (hv : s.clock < v.ts + cfg.query.bias) :
    s.watermark col cfg < (v.key : WithBot (Time ×ₗ K)) := by
  cases hst : s.states cfg.sourceId with
  | none =>
    unfold World.watermark
    rw [hst]
    exact WithBot.bot_lt_coe _
  | some r =>
    obtain ⟨k, _, hw⟩ := h.keyed.watermark_eq hst
    have hle := h.behind r hst
    rw [hw, WithBot.coe_lt_coe, Version.key, Prod.Lex.toLex_lt_toLex]
    exact Or.inl (lt_of_add_lt_add_right (hle.trans_lt hv))

/-- The phase of the sniffer does not depend on commits that the bias window
still allows. -/
theorem PhaseInv.visible {vis : List (Version K)} {ph : Phase}
    (hvis : ∀ v ∈ vis, v ∈ s.visible ∨ s.clock < v.ts + cfg.query.bias)
    (h : PhaseInv lib col cfg s ph) : PhaseInv lib col cfg { s with visible := vis } ph := by
  have hbatch : ∀ {rows vs last}, Batch lib col cfg s rows vs last →
      Batch lib col cfg { s with visible := vis } rows vs last := by
    intro rows vs last hb
    refine ⟨hb.rows, hb.getLast, hb.behind, hb.above, ?_⟩
    intro v hv hle
    rcases hvis v hv with hold | hnew
    · exact hb.complete v hold hle
    · have hlt : last.key < v.key :=
        key_lt_of_ts (lt_of_add_lt_add_right (hb.behind.trans_lt hnew))
      exact absurd hle (not_le_of_gt hlt)
  cases ph with
  | idle => trivial
  | loaded st => exact h
  | fetched rows =>
    obtain ⟨vs, last, hb⟩ := h
    exact ⟨vs, last, hbatch hb⟩
  | enqueued rows =>
    obtain ⟨vs, last, hb, hcov⟩ := h
    exact ⟨vs, last, hbatch hb, hcov⟩

/-- A change of the source table that the bias window allows. -/
theorem SnifferInv.visible (h : SnifferInv lib col cfg s) {vis : List (Version K)}
    (hpks : (vis.map Version.pk).Nodup)
    (hvis : ∀ v ∈ vis, v ∈ s.visible ∨ s.clock < v.ts + cfg.query.bias) :
    SnifferInv lib col cfg { s with visible := vis } where
  wf := h.wf
  pks := hpks
  keyed := h.keyed
  behind := h.behind
  covered := by
    intro v hv hle
    rcases hvis v hv with hold | hnew
    · exact h.covered v hold hle
    · exact absurd hle (not_le_of_gt (h.watermark_lt hnew))
  phase := h.phase.visible hvis

/-- Only retention removes the key of a job. -/
theorem exec_key {t : Tables} (hwf : t.Wf) (now : Time) {op : Op} (hop : ¬op.IsRetention)
    {r : JobRow} (hr : r ∈ t.jobs) : ∃ r' ∈ (exec t now op).jobs, r'.key = r.key := by
  obtain ⟨d⟩ := exec_delta hwf now hop
  exact ⟨d.f r, d.mem_jobs.mpr (Or.inl ⟨r, hr, rfl⟩), (d.rows r hr).immutable.2.1⟩

omit [LinearOrder K] in
theorem Covered.exec {t : Tables} (hwf : t.Wf) (now : Time) {op : Op} (hop : ¬op.IsRetention)
    {v : Version K} (h : Covered lib col cfg t v) :
    Covered lib col cfg (exec t now op) v := by
  refine h.imp_left ?_
  intro ⟨dst, hdst, r, hr, hkey⟩
  obtain ⟨r', hr', hkey'⟩ := exec_key hwf now hop hr
  exact ⟨dst, hdst, r', hr', hkey'.trans hkey⟩

/-- The phase reads the tables only for the jobs of the batch. -/
theorem PhaseInv.of_tables {t : Tables} {ph ph' : Phase}
    (hcov : ∀ v, Covered lib col cfg s.tables v → Covered lib col cfg t v)
    (h : PhaseInv lib col cfg s ph) :
    PhaseInv lib col cfg { s with tables := t, phase := ph' } ph := by
  have hbatch : ∀ {rows vs last}, Batch lib col cfg s rows vs last →
      Batch lib col cfg { s with tables := t, phase := ph' } rows vs last :=
    fun hb => ⟨hb.rows, hb.getLast, hb.behind, hb.above, hb.complete⟩
  cases ph with
  | idle => trivial
  | loaded st => exact h
  | fetched rows =>
    obtain ⟨vs, last, hb⟩ := h
    exact ⟨vs, last, hbatch hb⟩
  | enqueued rows =>
    obtain ⟨vs, last, hb, hall⟩ := h
    exact ⟨vs, last, hbatch hb, fun v hv => hcov v (hall v hv)⟩

/-- A statement of any writer other than retention. -/
theorem SnifferInv.exec (h : SnifferInv lib col cfg s) (now : Time) {op : Op}
    (hop : ¬op.IsRetention) : SnifferInv lib col cfg { s with tables := exec s.tables now op } where
  wf := exec_wf h.wf now op
  pks := h.pks
  keyed := h.keyed
  behind := h.behind
  covered := fun v hv hle => (h.covered v hv hle).exec h.wf now hop
  phase := h.phase.of_tables fun _ hv => hv.exec h.wf now hop

/-- A new phase needs its own argument only. -/
theorem SnifferInv.setPhase (h : SnifferInv lib col cfg s) {ph : Phase}
    (hph : PhaseInv lib col cfg s ph) : SnifferInv lib col cfg { s with phase := ph } where
  wf := h.wf
  pks := h.pks
  keyed := h.keyed
  behind := h.behind
  covered := h.covered
  phase := hph.of_tables fun _ hv => hv

/-- Keys are distinct because primary keys are. -/
theorem SnifferInv.key_inj (h : SnifferInv lib col cfg s) {v w : Version K}
    (hv : v ∈ s.visible) (hw : w ∈ s.visible) (heq : v.key = w.key) : v = w := by
  have hpk : v.pk = w.pk := congrArg (fun k : Time ×ₗ K => (ofLex k).2) heq
  exact eq_of_key_eq h.pks hv hw hpk

/-- What `Fetch` leaves in the local variables. -/
theorem SnifferInv.fetch (h : SnifferInv lib col cfg s) {now : Time} (hnow : s.clock ≤ now)
    {ph : Phase} (hph : ph = .idle ∨
      ph = afterFetch (cfg.query.fetch lib col s.visible now (s.states.load cfg.sourceId))) :
    SnifferInv lib col cfg { s with clock := now, phase := ph } := by
  have hclock : SnifferInv lib col cfg { s with clock := now, phase := .idle } :=
    ⟨h.wf, h.pks, h.keyed, fun r hr => (h.behind r hr).trans hnow, h.covered, trivial⟩
  rcases hph with rfl | hph
  · exact hclock
  cases hrows : cfg.query.fetch lib col s.visible now (s.states.load cfg.sourceId) with
  | error e =>
    rw [hrows] at hph
    subst hph
    exact hclock
  | ok rows =>
    rw [hrows] at hph
    cases rows with
    | nil =>
      subst hph
      exact hclock
    | cons r rows =>
      subst hph
      obtain ⟨p, hpage, hp⟩ := fetch_page h.keyed hrows
      generalize hvs : page Version.key p cfg.query.batchSize.toNat s.visible = vs at hpage
      obtain ⟨last, hlast⟩ : ∃ last, vs.getLast? = some last := by
        cases vs with
        | nil => simp at hpage
        | cons v vs => exact ⟨_, List.getLast?_eq_some_getLast (List.cons_ne_nil v vs)⟩
      have hmem : last ∈ page Version.key p cfg.query.batchSize.toNat s.visible :=
        hvs ▸ List.mem_of_getLast? hlast
      obtain ⟨hvis, hsel⟩ := mem_of_mem_page hmem
      obtain ⟨habove, hbehind⟩ := (hp last).mp hsel
      apply hclock.setPhase
      refine ⟨vs, last, hpage, hlast, hbehind, habove.le, ?_⟩
      intro v hv hle
      by_cases hw : (v.key : WithBot (Time ×ₗ K)) ≤ s.watermark col cfg
      · exact Or.inl hw
      · right
        -- A key up to that of the last row has a timestamp up to that row's,
        -- so the bias does not hide the version.
        have hts : v.ts ≤ last.ts := by
          by_contra hts
          exact not_le_of_gt (key_lt_of_ts (lt_of_not_ge hts)) hle
        have hpv : p v = true :=
          (hp v).mpr ⟨lt_of_not_ge hw, (add_le_add_left hts _).trans hbehind⟩
        rw [← hvs]
        exact mem_page_of_le (fun a ha b hb => h.key_inj ha hb) hv hpv hmem hle

omit [LinearOrder K] in
/-- The row of a version yields the job of that version, unless it does not
render. -/
theorem spec_cases (v : Version K) :
    Unrenderable lib col cfg v ∨ ∃ j, cfg.spec lib (v.row lib col cfg.query) = some j ∧
      j.traceId = traceID cfg.query.table (col.text v.pk) ∧
      cfg.dst.render lib (v.fields lib col cfg.query) = .ok j.dst := by
  have hfields : (v.row lib col cfg.query).fields = v.fields lib col cfg.query := rfl
  unfold Config.spec Unrenderable
  rw [hfields]
  cases hdst : cfg.dst.render lib (v.fields lib col cfg.query) with
  | error e => exact Or.inl (Or.inl ⟨e, rfl⟩)
  | ok dst =>
    cases hsrc : cfg.src.render lib (v.fields lib col cfg.query) with
    | error e => exact Or.inl (Or.inr ⟨e, rfl⟩)
    | ok src => exact Or.inr ⟨_, rfl, rfl, rfl⟩

omit [LinearOrder K] in
/-- The batch insert covers every version of the batch. -/
theorem covered_of_enqueueBatch {t : Tables} (hwf : t.Wf) (now : Time)
    {vs : List (Version K)} {v : Version K} (hv : v ∈ vs) :
    Covered lib col cfg
      (exec t now (.enqueueBatch (cfg.specs lib (vs.map (Version.row lib col cfg.query))))) v := by
  rcases spec_cases v with hpoison | ⟨j, hj, htrace, hdst⟩
  · exact Or.inr hpoison
  · left
    have hspec : j ∈ cfg.specs lib (vs.map (Version.row lib col cfg.query)) :=
      List.mem_filterMap.mpr ⟨_, List.mem_map_of_mem hv, hj⟩
    obtain ⟨new, hins, hall⟩ := enqueueBatch_inserts now
      (cfg.specs lib (vs.map (Version.row lib col cfg.query))) hwf.keys
    obtain ⟨r, hr, hkey⟩ := hall j hspec
    refine ⟨j.dst, hdst, r, ?_, by rw [hkey, htrace]⟩
    show r ∈ (enqueueBatch t now _).1.jobs
    rw [hins.jobs]
    exact hr

theorem SnifferInv.enqueueBatch (h : SnifferInv lib col cfg s) (now : Time) {rows : List Row}
    (hph : s.phase = .fetched rows) :
    SnifferInv lib col cfg
      { s with tables := Queue.exec s.tables now (.enqueueBatch (cfg.specs lib rows)),
               phase := .enqueued rows } := by
  have hphase := h.phase
  rw [hph] at hphase
  obtain ⟨vs, last, hb⟩ := hphase
  have hop : ¬(Op.enqueueBatch (cfg.specs lib rows)).IsRetention := id
  apply (h.exec now hop).setPhase
  refine ⟨vs, last, ⟨hb.rows, hb.getLast, hb.behind, hb.above, hb.complete⟩, ?_⟩
  intro v hv
  rw [hb.rows]
  exact covered_of_enqueueBatch h.wf now hv

omit [LinearOrder K] in
/-- The watermark after `Upsert` is the key of the last row of the batch. -/
theorem watermark_upsert (s : World K) (v : Version K) (ph : Phase) :
    World.watermark col cfg
      { s with states := s.states.upsert (cfg.advance (v.row lib col cfg.query)), phase := ph } =
      (v.key : WithBot (Time ×ₗ K)) := by
  unfold World.watermark StateTable.upsert Config.advance Version.row
  simp [col.text_ne, col.parse_text, Version.key]

theorem SnifferInv.upsert (h : SnifferInv lib col cfg s) {rows : List Row} {last : Row}
    (hph : s.phase = .enqueued rows) (hlast : rows.getLast? = some last) :
    SnifferInv lib col cfg
        { s with states := s.states.upsert (cfg.advance last), phase := .idle } ∧
      s.watermark col cfg ≤
        World.watermark col cfg { s with states := s.states.upsert (cfg.advance last),
                                         phase := .idle } := by
  have hphase := h.phase
  rw [hph] at hphase
  obtain ⟨vs, v, hb, hcov⟩ := hphase
  have heq : last = v.row lib col cfg.query := by
    rw [hb.rows, List.getLast?_map, hb.getLast] at hlast
    exact (Option.some.inj hlast).symm
  subst heq
  have hrow : ∀ r, s.states.upsert (cfg.advance (v.row lib col cfg.query)) cfg.sourceId = some r →
      r = ⟨v.ts, some (col.text v.pk)⟩ := by
    intro r hr
    unfold StateTable.upsert Config.advance Version.row at hr
    simp only [col.text_ne, Function.update_self, if_false, Option.some.injEq] at hr
    exact hr.symm
  have hw : World.watermark col cfg
      { s with states := s.states.upsert (cfg.advance (v.row lib col cfg.query)), phase := .idle } =
      (v.key : WithBot (Time ×ₗ K)) := watermark_upsert s v .idle
  refine ⟨⟨h.wf, h.pks, ?_, ?_, ?_, trivial⟩, hw ▸ hb.above⟩
  · intro r hr
    exact ⟨v.pk, by rw [hrow r hr]⟩
  · intro r hr
    rw [hrow r hr]
    exact hb.behind
  · intro x hx hle
    rw [hw, WithBot.coe_le_coe] at hle
    rcases hb.complete x hx hle with hold | hin
    · exact h.covered x hx hold
    · exact hcov x hin

/-- One step keeps the invariant and never lowers the watermark. -/
theorem step_inv (h : SnifferInv lib col cfg s) (a : Action K) :
    SnifferInv lib col cfg (step lib col cfg s a) ∧
      s.watermark col cfg ≤ (step lib col cfg s a).watermark col cfg := by
  cases a with
  | commit v =>
    simp only [step]
    split
    · rename_i hlt
      refine ⟨h.visible ?_ ?_, le_rfl⟩
      · rw [List.map_cons, List.nodup_cons]
        refine ⟨?_, h.pks.sublist (List.filter_sublist.map _)⟩
        intro hmem
        obtain ⟨x, hx, hpk⟩ := List.mem_map.mp hmem
        exact of_decide_eq_true (List.mem_filter.mp hx).2 hpk
      · intro x hx
        rcases List.mem_cons.mp hx with rfl | hx
        · exact Or.inr hlt
        · exact Or.inl (List.mem_of_mem_filter hx)
    · exact ⟨h, le_rfl⟩
  | delete pk =>
    refine ⟨h.visible (h.pks.sublist (List.filter_sublist.map _)) ?_, le_rfl⟩
    intro x hx
    exact Or.inl (List.mem_of_mem_filter hx)
  | load ok =>
    simp only [step]
    split
    · split
      · exact ⟨h.setPhase rfl, le_rfl⟩
      · exact ⟨h, le_rfl⟩
    · exact ⟨h, le_rfl⟩
  | fetch now ok =>
    simp only [step]
    split
    · rename_i st hph
      have hst := h.phase
      rw [hph] at hst
      obtain rfl : st = s.states.load cfg.sourceId := hst
      split
      · exact ⟨h, le_rfl⟩
      · rename_i hnow
        split
        · exact ⟨h.fetch (not_lt.mp hnow) (Or.inr rfl), le_rfl⟩
        · exact ⟨h.fetch (not_lt.mp hnow) (Or.inl rfl), le_rfl⟩
    · exact ⟨h, le_rfl⟩
  | enqueueBatch now o =>
    simp only [step]
    split
    · rename_i rows hph
      have hok := h.enqueueBatch now hph
      cases o with
      | ok => exact ⟨hok, le_rfl⟩
      | lost => exact ⟨hok.setPhase trivial, le_rfl⟩
      | failed => exact ⟨h.setPhase trivial, le_rfl⟩
    · exact ⟨h, le_rfl⟩
  | upsert o =>
    simp only [step]
    split
    · rename_i rows hph
      cases hlast : rows.getLast? with
      | none => exact ⟨h.setPhase trivial, le_rfl⟩
      | some last =>
        cases o with
        | ok => exact h.upsert hph hlast
        | lost => exact h.upsert hph hlast
        | failed => exact ⟨h.setPhase trivial, le_rfl⟩
    · exact ⟨h, le_rfl⟩
  | crash => exact ⟨h.setPhase trivial, le_rfl⟩
  | queue now op =>
    cases op with
    | retention => exact ⟨h, le_rfl⟩
    | _ => exact ⟨h.exec now id, le_rfl⟩

theorem reach_inv (clock : Time) (as : List (Action K)) :
    SnifferInv lib col cfg (reach lib col cfg clock as) :=
  foldl_invariant (SnifferInv lib col cfg) (fun _ a h => (step_inv h a).1)
    (snifferInv_init clock) as

end Steps

/-- The sniffer against any interleaving with the source application, with
the other writers of the queue and with failures and crashes.  A visible
version up to the persisted watermark has its job or does not render, a job
key is never used twice, the watermark is the persisted row, and whatever
happens later (`bs`) it does not go back. -/
theorem sniffer_no_loss_no_duplication {K : Type} [LinearOrder K] (lib : GoLib)
    (col : PkColumn K) (cfg : Config) (clock : Time) (as bs : List (Action K)) :
    (∀ v ∈ (reach lib col cfg clock as).visible,
      (v.key : WithBot (Time ×ₗ K)) ≤ (reach lib col cfg clock as).watermark col cfg →
      Covered lib col cfg (reach lib col cfg clock as).tables v) ∧
    ((reach lib col cfg clock as).tables.jobs.map JobRow.key).Nodup ∧
    (∀ r, (reach lib col cfg clock as).states cfg.sourceId = some r →
      ∃ k, r.lastRunPK = some (col.text k) ∧ (reach lib col cfg clock as).watermark col cfg =
        ((toLex (r.lastRunTS, k) : Time ×ₗ K) : WithBot (Time ×ₗ K))) ∧
    (reach lib col cfg clock as).watermark col cfg ≤
      (reach lib col cfg clock (as ++ bs)).watermark col cfg := by
  have hinv : SnifferInv lib col cfg (reach lib col cfg clock as) := reach_inv clock as
  refine ⟨hinv.covered, hinv.wf.keys, fun r hr => hinv.keyed.watermark_eq hr, ?_⟩
  show _ ≤ World.watermark col cfg ((as ++ bs).foldl (step lib col cfg) (World.init clock))
  rw [List.foldl_append]
  exact foldl_rel (SnifferInv lib col cfg) (fun s t => s.watermark col cfg ≤ t.watermark col cfg)
    (fun _ => le_rfl) (fun _ _ _ => le_trans) (fun _ a h => step_inv h a) hinv bs

end ImgSync.Sniffer
