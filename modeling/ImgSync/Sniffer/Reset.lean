import ImgSync.Sniffer.Pages

/-!
# The manual reset of the tie-break

The design document answers a stuck tie-break with
`UPDATE sniffer_state SET last_run_pk=NULL`.  An empty key selects the query of
the first run, which compares the timestamp only.  The versions at the
watermark's own timestamp that lie above its key are then behind the query:
what they have after the reset is what they had before it.
-/

namespace ImgSync.Sniffer

open ImgSync.Lib ImgSync.Queue

/-- The `UPDATE` of the reset. -/
def StateTable.resetPk (t : StateTable) (sourceId : String) : StateTable :=
  Function.update t sourceId ((t sourceId).map fun r => { r with lastRunPK := none })

section Reset

variable {K : Type} [LinearOrder K] (lib : GoLib) (col : PkColumn K) (cfg : Config)

/-- The state after the reset. -/
def World.resetPk (s : World K) : World K := { s with states := s.states.resetPk cfg.sourceId }

/-- The version has the timestamp of the watermark and a greater key. -/
def TiesAbove (s : World K) (v : Version K) : Prop :=
  ∃ k, k < v.pk ∧ s.watermark col cfg = ((toLex (v.ts, k) : Time ×ₗ K) : WithBot (Time ×ₗ K))

/-- Call `m` comes late enough for every version and fetches nothing. -/
structure Drained (calls : Nat → Poll) (s : World K) (m : Nat) : Prop where
  past : ∀ v ∈ s.visible, v.ts + cfg.query.bias ≤ (calls m).source
  fetched : (calls m).fetched lib col cfg (polled lib col cfg calls s m) = .ok []

variable {lib col cfg} {calls : Nat → Poll} {s : World K} {l : List (Version K)}

theorem Todo.mem_visible (htodo : Todo col cfg s l) {v : Version K} (hv : v ∈ l) :
    v ∈ s.visible := by
  obtain ⟨p, -, rfl⟩ := htodo
  exact (mem_selection.mp hv).1

/-- A drained source has nothing to come. -/
theorem Drained.length_le (hpks : (s.visible.map Version.pk).Nodup)
    (hfree : ErrorFree lib col cfg calls s) (htodo : Todo col cfg s l) {m : Nat}
    (h : Drained lib col cfg calls s m) : l.length ≤ taken cfg calls l m := by
  have htakes := polled_takes hpks hfree htodo m
  have hnil := htakes.fetched.symm.trans h.fetched
  rw [Except.ok.injEq, List.map_eq_nil_iff, List.take_eq_nil_iff, List.drop_eq_nil_iff] at hnil
  have hall : (l.drop (taken cfg calls l m)).countP
      (fun v => decide (v.ts + cfg.query.bias ≤ (calls m).source)) =
      l.length - taken cfg calls l m := by
    rw [← List.length_drop]
    exact List.countP_eq_length.mpr fun v hv =>
      decide_eq_true (h.past v (htodo.mem_visible (List.mem_of_mem_drop hv)))
  have hsize := htakes.size
  rcases hnil with hdue | hlen
  · rw [Poll.due, hall] at hdue
    omega
  · exact hlen

/-- Late calls drain the source. -/
theorem drained_of_settled (hset : Settled cfg calls s) (hfree : ErrorFree lib col cfg calls s)
    (htodo : Todo col cfg s l) {m : Nat} (hm : l.length ≤ m * cfg.size) :
    Drained lib col cfg calls s m := by
  refine ⟨hset.past m, ?_⟩
  rw [(settled_takes hset hfree htodo m).fetched, List.drop_of_length_le hm, List.take_nil]
  rfl

/-! ## What the calls cover -/

theorem trace_of_spec {r : Row} {j : JobSpec} (h : cfg.spec lib r = some j) :
    j.traceId = traceID cfg.query.table r.pk := by
  unfold Config.spec at h
  repeat' split at h
  all_goals cases h
  rfl

omit [LinearOrder K] in
theorem covered_iff {t : Tables} {v : Version K} :
    Covered lib col cfg t v ↔ Unrenderable lib col cfg v ∨
      ∃ j, cfg.spec lib (v.row lib col cfg.query) = some j ∧ t.HasKey j.key := by
  have hcases : Unrenderable lib col cfg v ∨ _ := spec_cases v
  rcases hcases with hpoison | ⟨j, hj, htrace, hdst⟩
  · exact iff_of_true (Or.inr hpoison) (Or.inl hpoison)
  · unfold Covered
    rw [or_comm]
    refine or_congr_right ⟨?_, ?_⟩
    · rintro ⟨dst, hdst', r, hr, hkey⟩
      obtain rfl : j.dst = dst := Except.ok.inj (hdst.symm.trans hdst')
      exact ⟨j, hj, r, hr, by rw [hkey, JobSpec.key, htrace]⟩
    · rintro ⟨j', hj', r, hr, hkey⟩
      obtain rfl : j = j' := Option.some.inj (hj.symm.trans hj')
      exact ⟨j.dst, hdst, r, hr, by rw [hkey, JobSpec.key, htrace]⟩

omit [LinearOrder K] in
/-- The key of a job tells the version. -/
theorem pk_of_spec_key {v w : Version K} {i j : JobSpec}
    (hv : cfg.spec lib (v.row lib col cfg.query) = some i)
    (hw : cfg.spec lib (w.row lib col cfg.query) = some j) (hkey : i.key = j.key) :
    v.pk = w.pk := by
  have htrace : traceID cfg.query.table (col.text v.pk) = traceID cfg.query.table (col.text w.pk) :=
    calc traceID cfg.query.table (col.text v.pk) = i.traceId := (trace_of_spec hv).symm
      _ = j.traceId := congrArg Prod.fst hkey
      _ = traceID cfg.query.table (col.text w.pk) := trace_of_spec hw
  have htext := congrArg col.parse ((String.append_right_inj _).mp htrace)
  rw [col.parse_text, col.parse_text] at htext
  exact Option.some.inj htext

/-- A version is covered after `k` calls exactly when it was before, or when the
calls fetched it. -/
theorem polled_covered_iff (hpks : (s.visible.map Version.pk).Nodup)
    (hfree : ErrorFree lib col cfg calls s) (htodo : Todo col cfg s l) (k : Nat) {v : Version K}
    (hv : v ∈ s.visible) : Covered lib col cfg (polled lib col cfg calls s k).tables v ↔
      Covered lib col cfg s.tables v ∨ v ∈ l.take (taken cfg calls l k) := by
  have hkeys := polled_hasKey hpks hfree htodo k
  rw [covered_iff, covered_iff]
  constructor
  · rintro (hpoison | ⟨j, hj, hkey⟩)
    · exact Or.inl (Or.inl hpoison)
    · rcases (hkeys j.key).mp hkey with hold | ⟨i, hi, hij⟩
      · exact Or.inl (Or.inr ⟨j, hj, hold⟩)
      · -- The job is that of a fetched version, and the key says which.
        right
        obtain ⟨r, hr, hspec⟩ := List.mem_filterMap.mp hi
        obtain ⟨w, hw, rfl⟩ := List.mem_map.mp hr
        have hwv : w = v := eq_of_key_eq hpks (htodo.mem_visible (List.mem_of_mem_take hw)) hv
          (pk_of_spec_key hspec hj hij)
        exact hwv ▸ hw
  · rintro ((hpoison | ⟨j, hj, hkey⟩) | hmem)
    · exact Or.inl hpoison
    · exact Or.inr ⟨j, hj, (hkeys j.key).mpr (Or.inl hkey)⟩
    · have hcases : Unrenderable lib col cfg v ∨ _ := spec_cases v
      refine hcases.imp_right fun ⟨j, hj, _⟩ => ⟨j, hj, (hkeys j.key).mpr (Or.inr ⟨j, ?_, rfl⟩)⟩
      exact List.mem_filterMap.mpr ⟨_, List.mem_map_of_mem hmem, hj⟩

/-! ## The state after the reset -/

/-- The versions to come after the reset: those above the watermark, without
those that tie with it. -/
theorem todo_resetPk (hkeyed : KeyedRow col cfg s) :
    ∃ l, Todo col cfg (s.resetPk cfg) l ∧ ∀ v ∈ s.visible,
      (v ∈ l ↔ s.watermark col cfg < (v.key : WithBot (Time ×ₗ K)) ∧ ¬TiesAbove col cfg s v) := by
  cases hst : s.states cfg.sourceId with
  | none =>
    have hreset : (s.resetPk cfg).states cfg.sourceId = none := by
      simp [World.resetPk, StateTable.resetPk, hst]
    have hw : s.watermark col cfg = ⊥ := by
      unfold World.watermark
      rw [hst]
    refine ⟨_, todo_first hreset, fun v hv => iff_of_true ?_ ⟨?_, ?_⟩⟩
    · exact List.mem_mergeSort.mpr hv
    · rw [hw]
      exact WithBot.bot_lt_coe _
    · rintro ⟨k, -, h⟩
      exact WithBot.bot_ne_coe (hw.symm.trans h)
  | some r =>
    obtain ⟨k, -, hw⟩ := hkeyed.watermark_eq hst
    refine ⟨_, ⟨fun v => decide (r.lastRunTS < v.ts), ?_, rfl⟩, fun v hv => ?_⟩
    · simp [World.resetPk, StateTable.resetPk, StateTable.load, State.after, hst]
    · have hties : TiesAbove col cfg s v ↔ r.lastRunTS = v.ts ∧ k < v.pk := by
        constructor
        · rintro ⟨k', hlt, heq⟩
          rw [hw, WithBot.coe_inj, toLex_inj, Prod.mk.injEq] at heq
          exact ⟨heq.1, heq.2 ▸ hlt⟩
        · rintro ⟨hts, hlt⟩
          exact ⟨k, hlt, by rw [hw, hts]⟩
      rw [mem_selection, decide_eq_true_eq, hw, WithBot.coe_lt_coe, hties, Version.key,
        Prod.Lex.toLex_lt_toLex]
      constructor
      · rintro ⟨-, hlt⟩
        exact ⟨Or.inl hlt, fun h => hlt.ne h.1⟩
      · rintro ⟨hlt | hlt, hties⟩
        · exact ⟨hv, hlt⟩
        · exact absurd hlt hties

/-- What ties with the watermark is out of reach of every later call. -/
theorem covered_of_tiesAbove (hinv : SnifferInv lib col cfg s)
    (hfree : ErrorFree lib col cfg calls (s.resetPk cfg)) (k : Nat) {v : Version K}
    (hv : v ∈ s.visible) (hties : TiesAbove col cfg s v) :
    Covered lib col cfg (polled lib col cfg calls (s.resetPk cfg) k).tables v ↔
      Covered lib col cfg s.tables v := by
  obtain ⟨l, htodo, hmem⟩ := todo_resetPk hinv.keyed
  have hout : v ∉ l := fun h => ((hmem v hv).mp h).2 hties
  have hiff := polled_covered_iff (s := s.resetPk cfg) hinv.pks hfree htodo k hv
  exact hiff.trans (or_iff_left fun h => hout (List.mem_of_mem_take h))

end Reset

/-- The reset, from every reachable state.  When later error-free calls have
drained the source, a version has its job or does not render, except for those at
the watermark's timestamp above its key: these have a job only if they had one
before the reset.  Calls that come late enough drain the source. -/
theorem tie_break_reset {K : Type} [LinearOrder K] (lib : GoLib) (col : PkColumn K) (cfg : Config)
    (clock : Time) (as : List (Action K)) (calls : Nat → Poll)
    (hfree : ErrorFree lib col cfg calls ((reach lib col cfg clock as).resetPk cfg)) :
    (∀ m, Drained lib col cfg calls ((reach lib col cfg clock as).resetPk cfg) m →
      ∀ v ∈ (reach lib col cfg clock as).visible,
        (Covered lib col cfg
          (polled lib col cfg calls ((reach lib col cfg clock as).resetPk cfg) m).tables v ↔
        (TiesAbove col cfg (reach lib col cfg clock as) v →
          Covered lib col cfg (reach lib col cfg clock as).tables v))) ∧
    (Settled cfg calls ((reach lib col cfg clock as).resetPk cfg) →
      ∀ m, (reach lib col cfg clock as).visible.length ≤ m * cfg.size →
        Drained lib col cfg calls ((reach lib col cfg clock as).resetPk cfg) m) := by
  have hinv : SnifferInv lib col cfg (reach lib col cfg clock as) := reach_inv clock as
  generalize reach lib col cfg clock as = s at hfree hinv
  obtain ⟨l, htodo, hmem⟩ := todo_resetPk hinv.keyed
  refine ⟨fun m hdrained v hv => ?_, fun hset m hm => ?_⟩
  · by_cases hties : TiesAbove col cfg s v
    · rw [covered_of_tiesAbove hinv hfree m hv hties]
      exact ⟨fun h _ => h, fun h => h hties⟩
    · refine iff_of_true ?_ fun h => absurd h hties
      have hall := hdrained.length_le (s := s.resetPk cfg) hinv.pks hfree htodo
      rw [polled_covered_iff (s := s.resetPk cfg) hinv.pks hfree htodo m hv,
        List.take_of_length_le hall, hmem v hv]
      by_cases hle : (v.key : WithBot (Time ×ₗ K)) ≤ s.watermark col cfg
      · exact Or.inl (hinv.covered v hv hle)
      · exact Or.inr ⟨lt_of_not_ge hle, hties⟩
  · refine drained_of_settled hset hfree htodo (le_trans ?_ hm)
    obtain ⟨p, -, rfl⟩ := htodo
    exact (List.length_mergeSort _).trans_le (List.length_filter_le _ _)

/-! ## Two images, one at a time -/

/-- Images 0 and `j` are committed, and a poll fetches the first of them. -/
def firstOfTwo (j : Nat) : List (Action (KeyType.Key .bigint)) :=
  [.commit (image j), .commit (image 0), .load true, .fetch 5 true, .enqueueBatch 0 .ok,
    .upsert .ok]

/-- The two images, before the poll. -/
def twoImages (j : Nat) : World (KeyType.Key .bigint) where
  visible := [image 0, image j]
  clock := -1
  tables := .empty
  states := fun _ => none
  phase := .idle

theorem image_zero_lt {j : Nat} (hj : 0 < j) (hmax : j < 9223372036854775808) :
    (image 0).pk < (image j).pk ∧ (image 0).key < (image j).key := by
  have hpk : (image 0).pk < (image j).pk := by
    show ((0 % 9223372036854775808 : Nat) : Int) < (j % 9223372036854775808 : Nat)
    omega
  refine ⟨hpk, ?_⟩
  rw [Version.key, Version.key, Prod.Lex.toLex_lt_toLex]
  by_cases hts : (j / 2 : Nat) = 0
  · exact Or.inr ⟨show ((0 / 2 : Nat) : Int) = (j / 2 : Nat) by omega, hpk⟩
  · exact Or.inl (show ((0 / 2 : Nat) : Int) < (j / 2 : Nat) by omega)

theorem reach_twoImages {j : Nat} (hj : 0 < j) (hmax : j < 9223372036854775808) :
    reach columnLib idColumn (imagesConfig 1) (-1) [.commit (image j), .commit (image 0)] =
      twoImages j := by
  have hne : (image j).pk ≠ (image 0).pk := (image_zero_lt hj hmax).1.ne'
  have hclock : (-1 : Time) < (image j).ts + (imagesConfig 1).query.bias := by
    show (-1 : Int) < ((j / 2 : Nat) : Int) + 0
    omega
  have hzero : (-1 : Time) < (image 0).ts + (imagesConfig 1).query.bias := by decide
  simp [reach, step, World.init, hclock, hzero, hne, twoImages]

theorem twoImages_todo {j : Nat} (hj : 0 < j) (hmax : j < 9223372036854775808) :
    Todo idColumn (imagesConfig 1) (twoImages j) [image 0, image j] := by
  have hsorted : (twoImages j).sorted = [image 0, image j] := by
    refine List.mergeSort_of_pairwise ?_
    simpa [twoImages] using (image_zero_lt hj hmax).2.le
  have htodo : Todo idColumn (imagesConfig 1) (twoImages j) (twoImages j).sorted :=
    todo_first rfl
  rwa [hsorted] at htodo

theorem two_past {j : Nat} (hmax : j ≤ 10) :
    ∀ v ∈ [image 0, image j], v.ts + (imagesConfig 1).query.bias ≤ (Poll.clean 5 0).source := by
  intro v hv
  have hts : v.ts + (imagesConfig 1).query.bias ≤ (5 : Int) := by
    rcases List.mem_pair.mp hv with rfl | rfl
    · decide
    · show ((j / 2 : Nat) : Int) + 0 ≤ 5
      omega
  exact hts

/-- The poll takes image 0. -/
theorem twoImages_takes {j : Nat} (hj : 0 < j) (hmax : j ≤ 10) :
    Takes columnLib idColumn (imagesConfig 1) (.clean 5 0) (twoImages j) [image 0, image j] 1 := by
  have htodo := twoImages_todo hj (by omega)
  have hfree := htodo.error_clean columnLib (imagesConfig_valid (by decide)) (by decide) 5 0
  refine htodo.takes_size ?_ (two_past hmax) hfree
  simpa [twoImages] using (image_zero_lt hj (by omega)).1.ne

theorem reach_firstOfTwo {j : Nat} (hj : 0 < j) (hmax : j ≤ 10) :
    reach columnLib idColumn (imagesConfig 1) (-1) (firstOfTwo j) =
      (runOnce columnLib idColumn (imagesConfig 1) (.clean 5 0) (twoImages j)).world := by
  have htakes := twoImages_takes hj hmax
  have hspecs : ¬maxParams < ((imagesConfig 1).specs columnLib
      (([image 0, image j].take 1).map
        (Version.row columnLib idColumn (imagesConfig 1).query))).length * 5 := by
    have hle := length_specs_le columnLib (imagesConfig 1)
      (([image 0, image j].take 1).map (Version.row columnLib idColumn (imagesConfig 1).query))
    rw [maxParams]
    simp at hle ⊢
    omega
  have hactions : (Poll.clean 5 0).actions columnLib idColumn (imagesConfig 1) (twoImages j) =
      [.load true, .fetch 5 true, .enqueueBatch 0 .ok, .upsert .ok] := by
    have henq : (Poll.clean 5 0).enqueue = none := rfl
    simp only [Poll.actions, Poll.enqueues, htakes.fetched, henq, enqueueBatch_eq, if_neg hspecs]
    rfl
  have hphase : (twoImages j).phase = .idle := rfl
  have hclock : (twoImages j).clock ≤ (Poll.clean 5 0).source := by
    show (-1 : Int) ≤ 5
    decide
  rw [runOnce_eq_steps hphase hclock, hactions, ← reach_twoImages hj (by omega)]
  rfl

theorem firstOfTwo_visible {j : Nat} (hj : 0 < j) (hmax : j ≤ 10) :
    (reach columnLib idColumn (imagesConfig 1) (-1) (firstOfTwo j)).visible =
      [image 0, image j] := by
  rw [reach_firstOfTwo hj hmax]
  exact (twoImages_takes hj hmax).visible

theorem firstOfTwo_watermark {j : Nat} (hj : 0 < j) (hmax : j ≤ 10) :
    (reach columnLib idColumn (imagesConfig 1) (-1) (firstOfTwo j)).watermark idColumn
      (imagesConfig 1) = ((image 0).key : WithBot (Time ×ₗ KeyType.Key .bigint)) := by
  have hstates := (twoImages_takes hj hmax).states
  rw [← reach_firstOfTwo hj hmax] at hstates
  exact (states_upsert hstates).2

/-- Image `j` has no job yet. -/
theorem firstOfTwo_not_covered {j : Nat} (hj : 0 < j) (hmax : j ≤ 10) :
    ¬Covered columnLib idColumn (imagesConfig 1)
      (reach columnLib idColumn (imagesConfig 1) (-1) (firstOfTwo j)).tables (image j) := by
  rw [reach_firstOfTwo hj hmax, covered_iff, (twoImages_takes hj hmax).tables,
    enqueueBatch_eq_insertAll]
  rintro (hpoison | ⟨i, hi, hkey⟩)
  · exact image_renders 1 (image j) hpoison
  · rcases (hasKey_insertAll _ _ _ _).mp hkey with ⟨r, hr, -⟩ | ⟨i', hi', hkeys⟩
    · cases hr
    · obtain ⟨r, hr, hspec⟩ := List.mem_filterMap.mp hi'
      obtain rfl := List.mem_singleton.mp hr
      exact (image_zero_lt hj (by omega)).1.ne (pk_of_spec_key hspec hi hkeys)

/-- The calls after the reset have no error and come late enough. -/
theorem firstOfTwo_reset {j : Nat} (hj : 0 < j) (hmax : j ≤ 10) :
    ErrorFree columnLib idColumn (imagesConfig 1) (fun _ => .clean 5 0)
        ((reach columnLib idColumn (imagesConfig 1) (-1) (firstOfTwo j)).resetPk (imagesConfig 1)) ∧
      Settled (imagesConfig 1) (fun _ => .clean 5 0)
        ((reach columnLib idColumn (imagesConfig 1) (-1) (firstOfTwo j)).resetPk
          (imagesConfig 1)) := by
  have hinv : SnifferInv columnLib idColumn (imagesConfig 1)
      (reach columnLib idColumn (imagesConfig 1) (-1) (firstOfTwo j)) := reach_inv _ _
  obtain ⟨l, htodo, -⟩ := todo_resetPk hinv.keyed
  refine ⟨errorFree_clean (imagesConfig_valid (by decide)) (by decide) hinv.pks
    (fun _ => ⟨5, 0, rfl⟩) htodo, hinv.pks, fun _ v hv => ?_⟩
  rw [show (World.resetPk (imagesConfig 1) _).visible = [image 0, image j] from
    firstOfTwo_visible hj hmax] at hv
  exact two_past hmax v hv

/-- Images 0 and 2 have different timestamps, so the reset loses nothing. -/
theorem tie_break_reset_apart :
    ErrorFree columnLib idColumn (imagesConfig 1) (fun _ => .clean 5 0)
      ((reach columnLib idColumn (imagesConfig 1) (-1) (firstOfTwo 2)).resetPk (imagesConfig 1)) ∧
    Covered columnLib idColumn (imagesConfig 1)
      (polled columnLib idColumn (imagesConfig 1) (fun _ => .clean 5 0)
        ((reach columnLib idColumn (imagesConfig 1) (-1) (firstOfTwo 2)).resetPk
          (imagesConfig 1)) 2).tables (image 2) := by
  obtain ⟨hfree, hset⟩ := firstOfTwo_reset (j := 2) (by decide) (by decide)
  have hvis := firstOfTwo_visible (j := 2) (by decide) (by decide)
  obtain ⟨hcovered, hdrains⟩ :=
    tie_break_reset columnLib idColumn (imagesConfig 1) (-1) (firstOfTwo 2) _ hfree
  have hdrained := hdrains hset 2 (by rw [hvis]; decide)
  refine ⟨hfree, (hcovered 2 hdrained (image 2) (by rw [hvis]; simp)).mpr ?_⟩
  rintro ⟨k, -, hw⟩
  rw [firstOfTwo_watermark (by decide) (by decide), WithBot.coe_inj] at hw
  have hts : (image 0).ts = (image 2).ts :=
    congrArg (fun key : Time ×ₗ KeyType.Key .bigint => (ofLex key).1) hw
  exact absurd hts (by decide)

/-- Images 0 and 1 have one timestamp.  The first poll takes image 0.  After the
reset, image 1 never gets its job. -/
theorem tie_break_reset_loses :
    ErrorFree columnLib idColumn (imagesConfig 1) (fun _ => .clean 5 0)
      ((reach columnLib idColumn (imagesConfig 1) (-1) (firstOfTwo 1)).resetPk (imagesConfig 1)) ∧
    Settled (imagesConfig 1) (fun _ => .clean 5 0)
      ((reach columnLib idColumn (imagesConfig 1) (-1) (firstOfTwo 1)).resetPk (imagesConfig 1)) ∧
    image 1 ∈ (reach columnLib idColumn (imagesConfig 1) (-1) (firstOfTwo 1)).visible ∧
    ∀ m, ¬Covered columnLib idColumn (imagesConfig 1)
      (polled columnLib idColumn (imagesConfig 1) (fun _ => .clean 5 0)
        ((reach columnLib idColumn (imagesConfig 1) (-1) (firstOfTwo 1)).resetPk
          (imagesConfig 1)) m).tables (image 1) := by
  obtain ⟨hfree, hset⟩ := firstOfTwo_reset (j := 1) (by decide) (by decide)
  have hmem :
      image 1 ∈ (reach columnLib idColumn (imagesConfig 1) (-1) (firstOfTwo 1)).visible := by
    rw [firstOfTwo_visible (by decide) (by decide)]
    simp
  have hties : TiesAbove idColumn (imagesConfig 1)
      (reach columnLib idColumn (imagesConfig 1) (-1) (firstOfTwo 1)) (image 1) :=
    ⟨(image 0).pk, (image_zero_lt (by decide) (by decide)).1,
      firstOfTwo_watermark (by decide) (by decide)⟩
  refine ⟨hfree, hset, hmem, fun m => ?_⟩
  rw [covered_of_tiesAbove (reach_inv _ _) hfree m hmem hties]
  exact firstOfTwo_not_covered (by decide) (by decide)

end ImgSync.Sniffer
