import Mathlib.Algebra.Order.Floor.Div
import ImgSync.Sniffer.KeyText
import ImgSync.Sniffer.Poll

/-!
# Successive polls page through the source table

The calls of `RunOnce` on a table that does not change.  `Todo.takes` says what
one call takes off the versions to come; the run lemmas say what is to come
after `k` calls, and which keys the queue then has.  From an empty
`sniffer_state` all versions are to come, and the calls fetch the sorted table
block by block.
-/

namespace ImgSync.Sniffer

open ImgSync.Lib ImgSync.Queue

section Runs

variable {K : Type} [LinearOrder K] (lib : GoLib) (col : PkColumn K) (cfg : Config)

/-- The state after the first `k` calls. -/
def polled (calls : Nat → Poll) (s : World K) : Nat → World K
  | 0 => s
  | k + 1 => (runOnce lib col cfg (calls k) (polled calls s k)).world

/-- No call returns an error. -/
def ErrorFree (calls : Nat → Poll) (s : World K) : Prop :=
  ∀ k, (runOnce lib col cfg (calls k) (polled lib col cfg calls s k)).error = none

/-- How many of the versions to come the first `k` calls fetch. -/
def taken (calls : Nat → Poll) (l : List (Version K)) : Nat → Nat
  | 0 => 0
  | k + 1 => taken calls l k + (calls k).due cfg (l.drop (taken calls l k))

variable {lib col cfg} {calls : Nat → Poll} {s : World K} {l : List (Version K)}

theorem polled_todo (hpks : (s.visible.map Version.pk).Nodup)
    (hfree : ErrorFree lib col cfg calls s) (htodo : Todo col cfg s l) (k : Nat) :
    (polled lib col cfg calls s k).visible = s.visible ∧
      Todo col cfg (polled lib col cfg calls s k) (l.drop (taken cfg calls l k)) := by
  induction k with
  | zero => exact ⟨rfl, by rwa [taken, List.drop_zero]⟩
  | succ k ih =>
    obtain ⟨hvis, hk⟩ := ih
    have htakes := hk.takes (hvis ▸ hpks) (hfree k)
    have hrest := htakes.rest
    rw [List.drop_drop] at hrest
    exact ⟨htakes.visible.trans hvis, hrest⟩

/-- Every call takes its part. -/
theorem polled_takes (hpks : (s.visible.map Version.pk).Nodup)
    (hfree : ErrorFree lib col cfg calls s) (htodo : Todo col cfg s l) (k : Nat) :
    Takes lib col cfg (calls k) (polled lib col cfg calls s k) (l.drop (taken cfg calls l k))
      ((calls k).due cfg (l.drop (taken cfg calls l k))) := by
  obtain ⟨hvis, hk⟩ := polled_todo hpks hfree htodo k
  exact hk.takes (hvis ▸ hpks) (hfree k)

/-- The keys after `k` calls: those of the table, and those of the jobs of the
versions that the calls fetched. -/
theorem polled_hasKey (hpks : (s.visible.map Version.pk).Nodup)
    (hfree : ErrorFree lib col cfg calls s) (htodo : Todo col cfg s l) (k : Nat)
    (key : String × String) :
    (polled lib col cfg calls s k).tables.HasKey key ↔ s.tables.HasKey key ∨
      ∃ j ∈ cfg.specs lib ((l.take (taken cfg calls l k)).map (Version.row lib col cfg.query)),
        j.key = key := by
  induction k with
  | zero => simp [polled, taken, Config.specs]
  | succ k ih =>
    have htakes := polled_takes hpks hfree htodo k
    show (runOnce lib col cfg (calls k) (polled lib col cfg calls s k)).world.tables.HasKey key ↔ _
    rw [htakes.tables, enqueueBatch_eq_insertAll, hasKey_insertAll, ih, taken, List.take_add,
      List.map_append, Config.specs, Config.specs, Config.specs, List.filterMap_append, or_assoc]
    simp only [List.mem_append, or_and_right, exists_or]

/-- The counts add up to the growth of the table. -/
theorem polled_length (hpks : (s.visible.map Version.pk).Nodup)
    (hfree : ErrorFree lib col cfg calls s) (htodo : Todo col cfg s l) (k : Nat) :
    (polled lib col cfg calls s k).tables.jobs.length = s.tables.jobs.length +
      ∑ i ∈ Finset.range k,
        (runOnce lib col cfg (calls i) (polled lib col cfg calls s i)).inserted := by
  induction k with
  | zero => rfl
  | succ k ih =>
    have htakes := polled_takes hpks hfree htodo k
    show (runOnce lib col cfg (calls k) (polled lib col cfg calls s k)).world.tables.jobs.length = _
    rw [htakes.tables, enqueueBatch_eq_insertAll, length_insertAll, ih, Finset.sum_range_succ,
      htakes.inserted, enqueueBatch_eq_insertAll]
    omega

theorem polled_wf (hpks : (s.visible.map Version.pk).Nodup)
    (hfree : ErrorFree lib col cfg calls s) (htodo : Todo col cfg s l) (hwf : s.tables.Wf)
    (k : Nat) : (polled lib col cfg calls s k).tables.Wf := by
  induction k with
  | zero => exact hwf
  | succ k ih =>
    have htakes := polled_takes hpks hfree htodo k
    show (runOnce lib col cfg (calls k) (polled lib col cfg calls s k)).world.tables.Wf
    rw [htakes.tables]
    exact exec_wf ih (calls k).queue (.enqueueBatch _)

/-- The keys of the jobs of some versions. -/
def jobKeys (lib : GoLib) (col : PkColumn K) (cfg : Config) (l : List (Version K)) :
    Finset (String × String) :=
  ((cfg.specs lib (l.map (Version.row lib col cfg.query))).map JobSpec.key).toFinset

/-- The keys of a table. -/
def keys (t : Tables) : Finset (String × String) := (t.jobs.map JobRow.key).toFinset

theorem mem_keys {t : Tables} {key : String × String} : key ∈ keys t ↔ t.HasKey key := by
  simp [keys, Tables.HasKey]

theorem card_keys {t : Tables} (hwf : t.Wf) : (keys t).card = t.jobs.length := by
  rw [keys, List.toFinset_card_of_nodup hwf.keys, List.length_map]

/-- The counts of calls that fetch everything: the keys that are new. -/
theorem sum_inserted (hpks : (s.visible.map Version.pk).Nodup)
    (hfree : ErrorFree lib col cfg calls s) (htodo : Todo col cfg s l) (hwf : s.tables.Wf) {m : Nat}
    (hm : l.length ≤ taken cfg calls l m) :
    ∑ i ∈ Finset.range m, (runOnce lib col cfg (calls i) (polled lib col cfg calls s i)).inserted =
      (jobKeys lib col cfg l \ keys s.tables).card := by
  have hlength := polled_length hpks hfree htodo m
  have hkeys : keys (polled lib col cfg calls s m).tables =
      jobKeys lib col cfg l ∪ keys s.tables := by
    ext key
    rw [mem_keys, polled_hasKey hpks hfree htodo, List.take_of_length_le hm, Finset.mem_union,
      mem_keys, or_comm]
    simp [jobKeys]
  have hcard := Finset.card_sdiff_add_card (jobKeys lib col cfg l) (keys s.tables)
  rw [← hkeys, card_keys hwf, card_keys (polled_wf hpks hfree htodo hwf m)] at hcard
  omega

/-! ## Calls that come late enough -/

/-- At each call the bias has passed for every version of the table. -/
structure Settled (cfg : Config) (calls : Nat → Poll) (s : World K) : Prop where
  pks : (s.visible.map Version.pk).Nodup
  past : ∀ k, ∀ v ∈ s.visible, v.ts + cfg.query.bias ≤ (calls k).source

omit [LinearOrder K] in
/-- Late calls take full batches. -/
theorem taken_settled (hpast : ∀ k, ∀ v ∈ l, v.ts + cfg.query.bias ≤ (calls k).source) (k : Nat) :
    taken cfg calls l k = min (k * cfg.size) l.length := by
  induction k with
  | zero => rw [Nat.zero_mul, Nat.zero_min]; rfl
  | succ k ih =>
    have hall : (l.drop (taken cfg calls l k)).countP
        (fun v => decide (v.ts + cfg.query.bias ≤ (calls k).source)) =
        l.length - taken cfg calls l k := by
      rw [← List.length_drop]
      exact List.countP_eq_length.mpr fun v hv =>
        decide_eq_true (hpast k v (List.mem_of_mem_drop hv))
    rw [taken, Poll.due, hall, ih, Nat.succ_mul]
    omega

theorem Todo.past {c : Poll} (htodo : Todo col cfg s l)
    (hpast : ∀ v ∈ s.visible, v.ts + cfg.query.bias ≤ c.source) :
    ∀ v ∈ l, v.ts + cfg.query.bias ≤ c.source := by
  obtain ⟨p, -, rfl⟩ := htodo
  exact fun v hv => hpast v (mem_selection.mp hv).1

/-- A call that comes late enough takes its block. -/
theorem settled_takes (hset : Settled cfg calls s) (hfree : ErrorFree lib col cfg calls s)
    (htodo : Todo col cfg s l) (k : Nat) :
    Takes lib col cfg (calls k) (polled lib col cfg calls s k) (l.drop (k * cfg.size))
      cfg.size := by
  obtain ⟨hvis, hk⟩ := polled_todo hset.pks hfree htodo k
  have hdrop : l.drop (taken cfg calls l k) = l.drop (k * cfg.size) := by
    rw [taken_settled fun k => htodo.past (hset.past k), drop_min_length]
  rw [hdrop] at hk
  exact hk.takes_size (hvis ▸ hset.pks) (hvis ▸ hset.past k) (hfree k)

end Runs

section FirstRun

variable {K : Type} [LinearOrder K]

/-- The source table in the order of the query. -/
def World.sorted (s : World K) : List (Version K) :=
  s.visible.mergeSort fun v w => decide (v.key ≤ w.key)

/-- Block `k` of the sorted table. -/
def World.block (cfg : Config) (s : World K) (k : Nat) : List (Version K) :=
  (s.sorted.drop (k * cfg.size)).take cfg.size

variable {lib : GoLib} {col : PkColumn K} {cfg : Config} {calls : Nat → Poll} {s : World K}

theorem after_first (hstate : s.states cfg.sourceId = none) :
    (s.states.load cfg.sourceId).after col = .ok fun v => decide (zeroTime < v.ts) := by
  simp [StateTable.load, hstate, State.after]

/-- Without a watermark every version is to come. -/
theorem todo_first (hstate : s.states cfg.sourceId = none) : Todo col cfg s s.sorted := by
  refine ⟨_, after_first hstate, ?_⟩
  rw [selection, List.filter_eq_self.mpr fun v _ => decide_eq_true v.after_zero]
  rfl

theorem sorted_eq_selection (s : World K) :
    s.sorted = selection Version.key (fun _ => true) s.visible := by
  rw [selection, List.filter_true]
  rfl

theorem flatMap_block (s : World K) (m : Nat) :
    (List.range m).flatMap (s.block cfg) = s.sorted.take (m * cfg.size) := by
  induction m with
  | zero => simp
  | succ m ih =>
    rw [List.range_succ, List.flatMap_append, ih, Nat.succ_mul, List.take_add,
      List.flatMap_singleton]
    rfl

theorem block_ne_nil_iff (hsize : 0 < cfg.size) (k : Nat) :
    s.block cfg k ≠ [] ↔ k < s.visible.length ⌈/⌉ cfg.size := by
  have hlen : s.sorted.length = s.visible.length := List.length_mergeSort _
  rw [← not_le, ceilDiv_le_iff_le_mul hsize, World.block, Ne, List.take_eq_nil_iff,
    List.drop_eq_nil_iff, hlen, Nat.mul_comm]
  omega

/-- Before the first call there is no watermark, and later it is a version's. -/
theorem polled_keyed (hset : Settled cfg calls s) (hfree : ErrorFree lib col cfg calls s)
    (hstate : s.states cfg.sourceId = none) (k : Nat) :
    KeyedRow col cfg (polled lib col cfg calls s k) := by
  induction k with
  | zero =>
    intro r hr
    rw [show (polled lib col cfg calls s 0).states = s.states from rfl, hstate] at hr
    cases hr
  | succ k ih =>
    have hstates := (settled_takes hset hfree (todo_first hstate) k).states
    cases hz : ((s.sorted.drop (k * cfg.size)).take cfg.size).getLast? with
    | none =>
      rw [hz] at hstates
      intro r hr
      rw [show (polled lib col cfg calls s (k + 1)).states = _ from hstates] at hr
      exact ih r hr
    | some z =>
      rw [hz] at hstates
      exact (states_upsert hstates).1

/-- A call that fetches something raises the watermark. -/
theorem polled_watermark_lt (hset : Settled cfg calls s) (hfree : ErrorFree lib col cfg calls s)
    (hstate : s.states cfg.sourceId = none) {k : Nat} (hk : s.block cfg k ≠ []) :
    (polled lib col cfg calls s k).watermark col cfg <
      (polled lib col cfg calls s (k + 1)).watermark col cfg := by
  have htakes := settled_takes hset hfree (todo_first hstate) k
  refine runOnce_watermark_lt (polled_keyed hset hfree hstate k) (hfree k) htakes.fetched ?_
  exact fun h => hk (List.map_eq_nil_iff.mp h)

end FirstRun

/-! ## Calls without a fault -/

section Clean

variable {K : Type} [LinearOrder K] {lib : GoLib} {col : PkColumn K} {cfg : Config}
  {calls : Nat → Poll} {s : World K} {l : List (Version K)}

/-- A batch has at most as many jobs as rows. -/
theorem length_specs_le (lib : GoLib) (cfg : Config) (rows : List Row) :
    (cfg.specs lib rows).length ≤ rows.length :=
  List.length_filterMap_le _ _

/-- A full batch that fits one statement is inserted. -/
theorem Todo.error_clean (htodo : Todo col cfg s l) (lib : GoLib) (hq : cfg.query.Valid)
    (hfit : cfg.size * 5 ≤ maxParams) (source queue : Time) :
    (runOnce lib col cfg (.clean source queue) s).error = none := by
  obtain ⟨p, hp, -⟩ := htodo
  have hfetched : (Poll.clean source queue).fetched lib col cfg s = _ :=
    hq.fetch_eq hp s.visible source
  rw [runOnce_error_clean hfetched, if_neg]
  have hspecs := length_specs_le lib cfg ((page Version.key
    (fun v => p v && decide (v.ts ≤ source - cfg.query.bias)) cfg.query.batchSize.toNat
    s.visible).map (Version.row lib col cfg.query))
  have hpage : (page Version.key (fun v => p v && decide (v.ts ≤ source - cfg.query.bias))
      cfg.query.batchSize.toNat s.visible).length ≤ cfg.size :=
    List.length_take_le _ _
  rw [List.length_map] at hspecs
  omega

/-- Calls that meet no fault of a database have no error. -/
theorem errorFree_clean (hq : cfg.query.Valid) (hfit : cfg.size * 5 ≤ maxParams)
    (hpks : (s.visible.map Version.pk).Nodup)
    (hclean : ∀ k, ∃ source queue, calls k = .clean source queue)
    (htodo : Todo col cfg s l) : ErrorFree lib col cfg calls s := by
  have hrun : ∀ k, (polled lib col cfg calls s k).visible = s.visible ∧
      ∃ l, Todo col cfg (polled lib col cfg calls s k) l := by
    intro k
    induction k with
    | zero => exact ⟨rfl, l, htodo⟩
    | succ k ih =>
      obtain ⟨hvis, l, hl⟩ := ih
      obtain ⟨source, queue, hcall⟩ := hclean k
      have hfree := hl.error_clean lib hq hfit source queue
      rw [← hcall] at hfree
      have htakes := hl.takes (hvis ▸ hpks) hfree
      exact ⟨htakes.visible.trans hvis, _, htakes.rest⟩
  intro k
  obtain ⟨-, l, hl⟩ := hrun k
  obtain ⟨source, queue, hcall⟩ := hclean k
  rw [hcall]
  exact hl.error_clean lib hq hfit source queue

end Clean

/-- Pagination.  The calls fetch the sorted table block by block, so each row
once.  Exactly the first `n / B` calls, rounded up, fetch something, and each of
them raises the watermark; the later ones change nothing.  The counts add up to
the number of the job keys that were not there before. -/
theorem sniffer_pages {K : Type} [LinearOrder K] (lib : GoLib) (col : PkColumn K) (cfg : Config)
    (calls : Nat → Poll) (s : World K) (hset : Settled cfg calls s) (hwf : s.tables.Wf)
    (hstate : s.states cfg.sourceId = none) (hfree : ErrorFree lib col cfg calls s) :
    (s.sorted.Perm s.visible ∧ s.sorted.Pairwise fun v w => v.key < w.key) ∧
    (∀ k, (calls k).fetched lib col cfg (polled lib col cfg calls s k) =
        .ok ((s.block cfg k).map (Version.row lib col cfg.query)) ∧
      (s.block cfg k).length ≤ cfg.size) ∧
    (∀ m, s.visible.length ⌈/⌉ cfg.size ≤ m → (List.range m).flatMap (s.block cfg) = s.sorted) ∧
    (∀ k, s.block cfg k ≠ [] ↔ k < s.visible.length ⌈/⌉ cfg.size) ∧
    (∀ k, k < s.visible.length ⌈/⌉ cfg.size →
      (polled lib col cfg calls s k).watermark col cfg <
        (polled lib col cfg calls s (k + 1)).watermark col cfg) ∧
    (∀ k, s.visible.length ⌈/⌉ cfg.size ≤ k →
      (runOnce lib col cfg (calls k) (polled lib col cfg calls s k)).inserted = 0 ∧
      (polled lib col cfg calls s (k + 1)).tables = (polled lib col cfg calls s k).tables ∧
      (polled lib col cfg calls s (k + 1)).states = (polled lib col cfg calls s k).states) ∧
    ∀ m, s.visible.length ⌈/⌉ cfg.size ≤ m →
      ∑ k ∈ Finset.range m,
          (runOnce lib col cfg (calls k) (polled lib col cfg calls s k)).inserted =
        (jobKeys lib col cfg s.visible \ keys s.tables).card := by
  have htodo : Todo col cfg s s.sorted := todo_first hstate
  have hsize := (settled_takes hset hfree htodo 0).size
  have hperm : s.sorted.Perm s.visible := List.mergeSort_perm _ _
  have hall : ∀ m, s.visible.length ⌈/⌉ cfg.size ≤ m → s.sorted.length ≤ m * cfg.size := by
    intro m hm
    rw [hperm.length_eq, Nat.mul_comm]
    exact (ceilDiv_le_iff_le_mul hsize).mp hm
  refine ⟨⟨hperm, ?_⟩, fun k => ⟨?_, List.length_take_le _ _⟩, fun m hm => ?_,
    block_ne_nil_iff hsize, fun k hk => ?_, fun k hk => ?_, fun m hm => ?_⟩
  · rw [sorted_eq_selection]
    exact selection_strict (nodup_keys hset.pks)
  · exact (settled_takes hset hfree htodo k).fetched
  · rw [flatMap_block, List.take_of_length_le (hall m hm)]
  · exact polled_watermark_lt hset hfree hstate ((block_ne_nil_iff hsize k).mpr hk)
  · have htakes := settled_takes hset hfree htodo k
    have hnil : (s.sorted.drop (k * cfg.size)).take cfg.size = [] := by
      rw [List.drop_of_length_le (hall k hk), List.take_nil]
    have hinserted := htakes.inserted
    have htables := htakes.tables
    have hstates := htakes.states
    rw [hnil] at hinserted htables hstates
    exact ⟨hinserted, htables, hstates⟩
  · have hkeys : jobKeys lib col cfg s.visible = jobKeys lib col cfg s.sorted := by
      refine List.toFinset_eq_of_perm _ _ (List.Perm.map _ ?_)
      exact ((hperm.map _).filterMap _).symm
    rw [hkeys]
    refine sum_inserted hset.pks hfree htodo hwf ?_
    rw [taken_settled fun k => htodo.past (hset.past k), Nat.min_eq_right (hall m hm)]

/-! ## A table of images -/

/-- Templates that name one column. -/
def columnLib : GoLib where
  Template := String
  parse := .ok
  execute := fun c fields => (fields c).elim (.error "no entry for key") .ok
  rfc3339Nano := fun t => toString t

instance : LinearOrder (KeyType.Key .bigint) := inferInstanceAs (LinearOrder BigInt)

def idColumn : PkColumn (KeyType.Key .bigint) := KeyType.column .bigint (by decide)

def imagesConfig (batchSize : Int) : Config where
  sourceId := "images"
  query := ⟨"images", "id", "created_at", [], batchSize, 0⟩
  dst := ⟨"id", false⟩
  srcPattern := "id"
  srcProtocol := "ftp"
  dstProtocol := "localfs"

/-- Two images share a timestamp. -/
def image (i : Nat) : Version (KeyType.Key .bigint) where
  pk := (⟨(i % 9223372036854775808 : Nat), by omega⟩ : BigInt)
  ts := (i / 2 : Nat)
  extra := fun _ => .null
  after_zero := by
    show (-62135596800000000 : Int) < ((i / 2 : Nat) : Int)
    omega

/-- The first poll of a table of `n` images. -/
def images (n : Nat) : World (KeyType.Key .bigint) where
  visible := (List.range n).map image
  clock := 0
  tables := .empty
  states := fun _ => none
  phase := .idle

theorem nodup_images {n : Nat} (hn : n ≤ 9223372036854775808) :
    ((images n).visible.map Version.pk).Nodup := by
  rw [images, List.map_map]
  refine List.Nodup.map_on ?_ List.nodup_range
  intro i hi j hj h
  have hval : ((i % 9223372036854775808 : Nat) : Int) = (j % 9223372036854775808 : Nat) :=
    congrArg Subtype.val h
  rw [List.mem_range] at hi hj
  omega

theorem imagesConfig_valid {batchSize : Int} (h : 0 < batchSize) :
    (imagesConfig batchSize).query.Valid :=
  ⟨h, rfl, show "created_at" ≠ "id" by decide⟩

theorem images_past (n : Nat) (batchSize : Int) :
    ∀ v ∈ (images n).visible, v.ts + (imagesConfig batchSize).query.bias ≤ n := by
  intro v hv
  obtain ⟨i, hi, rfl⟩ := List.mem_map.mp hv
  rw [List.mem_range] at hi
  show ((i / 2 : Nat) : Int) + 0 ≤ (n : Int)
  omega

theorem images_settled {n : Nat} (hn : n ≤ 9223372036854775808) (batchSize : Int) :
    Settled (imagesConfig batchSize) (fun _ => .clean n 0) (images n) := by
  exact ⟨nodup_images hn, fun _ => images_past n batchSize⟩

/-- Every image renders. -/
theorem image_renders (batchSize : Int) (v : Version (KeyType.Key .bigint)) :
    ¬Unrenderable columnLib idColumn (imagesConfig batchSize) v := by
  have hid : v.fields columnLib idColumn (imagesConfig batchSize).query "id" =
      some (idColumn.text v.pk) := Version.fields_pk v
  have hrender : ∀ fields : Fields, fields "id" = some (idColumn.text v.pk) →
      (⟨"id", false⟩ : DstTemplate).render columnLib fields = .ok (idColumn.text v.pk) := by
    intro fields h
    simp [DstTemplate.render, columnLib, h]
  rintro (⟨e, he⟩ | ⟨e, he⟩)
  · cases (hrender _ hid).symm.trans he
  · cases (hrender _ hid).symm.trans he

/-- Three images, two at a time: two calls fetch something. -/
theorem sniffer_pages_three :
    Settled (imagesConfig 2) (fun _ => .clean 3 0) (images 3) ∧
    ErrorFree columnLib idColumn (imagesConfig 2) (fun _ => .clean 3 0) (images 3) ∧
    ∀ k, (images 3).block (imagesConfig 2) k ≠ [] ↔ k < 2 := by
  have hset := images_settled (n := 3) (by decide) 2
  have hfree : ErrorFree columnLib idColumn (imagesConfig 2) (fun _ => .clean 3 0) (images 3) :=
    errorFree_clean (imagesConfig_valid (by decide)) (by decide) hset.pks
      (fun _ => ⟨3, 0, rfl⟩) (todo_first rfl)
  have hpages := sniffer_pages columnLib idColumn (imagesConfig 2) _ (images 3) hset
    Tables.wf_empty rfl hfree
  exact ⟨hset, hfree, hpages.2.2.2.1⟩

end ImgSync.Sniffer
