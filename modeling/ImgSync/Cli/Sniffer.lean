import ImgSync.Env.Vars
import ImgSync.Sniffer.Pages

/-!
# The configuration of the sniffer

`ParseSnifferConfig` and the wiring of `RunSniffer` (`internal/cli/sniffer.go`).
The batch size is only asked to be positive.  `EnqueueBatch` builds one
statement for a batch, with five parameters for each job, and a statement has
at most 65535.  So a poll advances exactly when at most 13107 of its rows render
(`runOnce_advances_iff`); a poll with more fails, and so does every poll after it.
A size above 13107 has such a poll for every table with that many renderable rows
(`first_poll_fails`).
-/

namespace ImgSync.Cli

open ImgSync.Lib ImgSync.Queue ImgSync.Env ImgSync.Sniffer

/-- `SnifferConfig`. -/
structure SnifferConfig where
  sourceId : String
  sourceDSN : String
  imgsyncDSN : String
  table : String
  pkColumn : String
  tsColumn : String
  extraColumns : List String
  dstPattern : String
  srcPattern : String
  srcProtocol : String
  dstProtocol : String
  shadow : Bool
  batchSize : Int
  biasDuration : Duration
  intervalSec : Int
  deriving DecidableEq, Repr

/-- `unicode.IsSpace`. -/
def unicodeSpace (c : Char) : Bool :=
  [0x20, 0x85, 0xa0, 0x1680, 0x2028, 0x2029, 0x202f, 0x205f, 0x3000].contains c.toNat ||
    (0x09 ≤ c.toNat && c.toNat ≤ 0x0d) || (0x2000 ≤ c.toNat && c.toNat ≤ 0x200a)

/-- `strings.TrimSpace`. -/
def trimSpace (cs : List Char) : List Char :=
  ((cs.dropWhile unicodeSpace).reverse.dropWhile unicodeSpace).reverse

/-- The loop over the extra columns. -/
def extraColumns (extra : String) : List String :=
  if extra = "" then []
  else ((extra.toList.splitOn ',').map trimSpace).filter (· ≠ []) |>.map String.ofList

/-- The fields as the environment gives them. -/
def readSnifferConfig (env : Environ) : SnifferConfig where
  shadow := env.bool "SNIFFER_SHADOW" true
  batchSize := env.int "SNIFFER_BATCH_SIZE" 500
  biasDuration := wrap64 (env.int "SNIFFER_BIAS_SEC" 5 * 1000000000)
  intervalSec := env.int "SNIFFER_INTERVAL_SEC" 60
  sourceId := env "SNIFFER_SOURCE_ID"
  sourceDSN := env "SNIFFER_SOURCE_DSN"
  imgsyncDSN := env "SNIFFER_IMGSYNC_DSN"
  table := env "SNIFFER_TABLE"
  pkColumn := env "SNIFFER_PK_COLUMN"
  tsColumn := env "SNIFFER_TS_COLUMN"
  dstPattern := env "SNIFFER_DST_PATTERN"
  srcPattern := env "SNIFFER_SRC_PATTERN"
  srcProtocol := env "SNIFFER_SRC_PROTOCOL"
  dstProtocol := env "SNIFFER_DST_PROTOCOL"
  extraColumns := extraColumns (env "SNIFFER_EXTRA_COLUMNS")

/-- The variables that must not be empty. -/
def SnifferConfig.required (c : SnifferConfig) : List (String × String) :=
  [("SNIFFER_SOURCE_ID", c.sourceId), ("SNIFFER_SOURCE_DSN", c.sourceDSN),
    ("SNIFFER_IMGSYNC_DSN", c.imgsyncDSN), ("SNIFFER_TABLE", c.table),
    ("SNIFFER_PK_COLUMN", c.pkColumn), ("SNIFFER_TS_COLUMN", c.tsColumn),
    ("SNIFFER_DST_PATTERN", c.dstPattern), ("SNIFFER_SRC_PATTERN", c.srcPattern),
    ("SNIFFER_SRC_PROTOCOL", c.srcProtocol), ("SNIFFER_DST_PROTOCOL", c.dstProtocol)]

/-- The order in which `range` visits the entries of a map. -/
structure MapRange where
  visit : List (String × String) → List (String × String)
  perm : ∀ entries, (visit entries).Perm entries

/-- `ParseSnifferConfig`. -/
def parseSnifferConfig (range : MapRange) (env : Environ) : Except String SnifferConfig :=
  let c := readSnifferConfig env
  match (range.visit c.required).find? fun e => e.2 = "" with
  | some e => .error ("required env " ++ e.1 ++ " missing")
  | none =>
    if c.intervalSec ≤ 0 then
      .error ("SNIFFER_INTERVAL_SEC must be > 0, got " ++ toString c.intervalSec)
    else if c.batchSize ≤ 0 then
      .error ("SNIFFER_BATCH_SIZE must be > 0, got " ++ toString c.batchSize)
    else .ok c

/-- The configuration that `RunSniffer` gives to `sniffer.New`. -/
def SnifferConfig.sniffer (c : SnifferConfig) : Config where
  sourceId := c.sourceId
  query := ⟨c.table, c.pkColumn, c.tsColumn, c.extraColumns, c.batchSize, c.biasDuration⟩
  dst := ⟨c.dstPattern, c.shadow⟩
  srcPattern := c.srcPattern
  srcProtocol := c.srcProtocol
  dstProtocol := c.dstProtocol

/-! ## One statement for a batch -/

/-- The source table, the queue and the watermark are as before. -/
theorem runOnce_rejected {K : Type} [LinearOrder K] {lib : GoLib} {col : PkColumn K} {cfg : Config}
    {s : World K} {source queue : Time} {rows : List Row}
    (hfetch : (Poll.clean source queue).fetched lib col cfg s = .ok rows)
    (hmany : maxParams < (cfg.specs lib rows).length * 5) :
    (runOnce lib col cfg (.clean source queue) s).world = { s with clock := source } := by
  have hload : (Poll.clean source queue).load = none := rfl
  have henq : (Poll.clean source queue).enqueue = none := rfl
  simp only [runOnce, hload, hfetch, henq, enqueueBatch_eq, if_pos hmany]
  cases rows.getLast? <;> rfl

/-- Both templates render the row. -/
def renders (cfg : Config) (lib : GoLib) (r : Row) : Bool :=
  (cfg.dst.render lib r.fields).isOk && (cfg.src.render lib r.fields).isOk

section Fits

variable {K : Type} [LinearOrder K] {lib : GoLib} {col : PkColumn K} {cfg : Config} {s : World K}

theorem isSome_spec (cfg : Config) (lib : GoLib) (r : Row) :
    (cfg.spec lib r).isSome = renders cfg lib r := by
  unfold Config.spec renders
  cases cfg.dst.render lib r.fields with
  | error e => rfl
  | ok dst => cases cfg.src.render lib r.fields <;> rfl

/-- A batch has a job for each row that renders. -/
theorem length_specs (cfg : Config) (lib : GoLib) (rows : List Row) :
    (cfg.specs lib rows).length = rows.countP (renders cfg lib) := by
  rw [Config.specs, List.length_filterMap_eq_countP]
  exact List.countP_congr fun r _ => by rw [isSome_spec]

/-- Five parameters for each of 13107 jobs are the most that one statement takes. -/
theorem fits_iff (n : Nat) : n ≤ 13107 ↔ ¬maxParams < n * 5 := by
  rw [maxParams]
  omega

/-- A poll that fetches something and meets no fault of a database advances
exactly when at most 13107 of its rows render. -/
theorem runOnce_advances_iff (hkeyed : KeyedRow col cfg s) {source queue : Time} {rows : List Row}
    (hfetch : (Poll.clean source queue).fetched lib col cfg s = .ok rows) (hne : rows ≠ []) :
    rows.countP (renders cfg lib) ≤ 13107 ↔
      (buildBatch (cfg.specs lib rows)).2.length ≤ maxParams ∧
      (runOnce lib col cfg (.clean source queue) s).error = none ∧
      s.watermark col cfg <
        (runOnce lib col cfg (.clean source queue) s).world.watermark col cfg := by
  have herror := runOnce_error_clean hfetch
  rw [length_args, ← length_specs, fits_iff]
  constructor
  · intro hfit
    have hfree := herror.trans (if_neg hfit)
    exact ⟨Nat.not_lt.mp hfit, hfree, runOnce_watermark_lt hkeyed hfree hfetch hne⟩
  · exact fun h => Nat.not_lt.mpr h.1

/-- A poll fetches no more rows than a batch has. -/
theorem fetched_length_le (hkeyed : KeyedRow col cfg s) {source queue : Time} {rows : List Row}
    (hfetch : (Poll.clean source queue).fetched lib col cfg s = .ok rows) :
    rows.length ≤ cfg.query.batchSize.toNat := by
  obtain ⟨p, hpage, -⟩ := fetch_page hkeyed hfetch
  rw [hpage, List.length_map]
  exact List.length_take_le _ _

/-- The commits of rows with different keys. -/
theorem foldl_commits {vs : List (Version K)} (hpks : (vs.map Version.pk).Nodup)
    (hnew : ∀ v ∈ vs, ∀ x ∈ s.visible, x.pk ≠ v.pk)
    (hclock : ∀ v ∈ vs, s.clock < v.ts + cfg.query.bias) :
    (vs.map Action.commit).foldl (step lib col cfg) s =
      { s with visible := vs.reverse ++ s.visible } := by
  induction vs generalizing s with
  | nil => rfl
  | cons v vs ih =>
    have hkeep : (s.visible.filter fun x => decide (x.pk ≠ v.pk)) = s.visible :=
      List.filter_eq_self.mpr fun x hx => decide_eq_true (hnew v List.mem_cons_self x hx)
    obtain ⟨hv, hrest⟩ := List.nodup_cons.mp hpks
    rw [List.map_cons, List.foldl_cons, step, if_pos (hclock v List.mem_cons_self), hkeep, ih hrest,
      List.reverse_cons, List.append_assoc]
    · rfl
    · intro w hw x hx
      rcases List.mem_cons.mp hx with rfl | hx
      · exact fun heq => hv (heq ▸ List.mem_map_of_mem hw)
      · exact hnew w (List.mem_cons_of_mem v hw) x hx
    · exact fun w hw => hclock w (List.mem_cons_of_mem v hw)

theorem reach_commits {clock : Time} {vs : List (Version K)} (hpks : (vs.map Version.pk).Nodup)
    (hclock : ∀ v ∈ vs, clock < v.ts + cfg.query.bias) :
    reach lib col cfg clock (vs.map .commit) =
      { (World.init clock : World K) with visible := vs.reverse } := by
  rw [reach, foldl_commits hpks (fun _ _ x hx => absurd hx List.not_mem_nil) hclock]
  exact congrArg (fun l => { (World.init clock : World K) with visible := l }) (List.append_nil _)

/-- The first poll of a table whose rows are all due and render. -/
theorem first_fetched (hq : cfg.query.Valid) (hstate : s.states cfg.sourceId = none)
    {source : Time} (hdue : ∀ v ∈ s.visible, v.ts + cfg.query.bias ≤ source)
    (hrender : ∀ v ∈ s.visible, ¬Unrenderable lib col cfg v) (queue : Time) :
    ∃ rows, (Poll.clean source queue).fetched lib col cfg s = .ok rows ∧
      rows.countP (renders cfg lib) = min cfg.query.batchSize.toNat s.visible.length := by
  refine ⟨_, hq.fetch_eq (after_first hstate) s.visible source, ?_⟩
  have hall : s.visible.filter (fun v => decide (zeroTime < v.ts) &&
      decide (v.ts ≤ source - cfg.query.bias)) = s.visible := by
    refine List.filter_eq_self.mpr fun v hv => ?_
    rw [decide_eq_true v.after_zero, decide_eq_true (le_sub_iff_add_le.mpr (hdue v hv))]
    rfl
  have hrows : ∀ v ∈ page Version.key (fun v => decide (zeroTime < v.ts) &&
      decide (v.ts ≤ source - cfg.query.bias)) cfg.query.batchSize.toNat s.visible,
      (renders cfg lib ∘ Version.row lib col cfg.query) v = true := by
    intro v hv
    rw [Function.comp_apply, ← isSome_spec]
    rcases spec_cases v with hbad | ⟨j, hj, -⟩
    · exact absurd hbad (hrender v (mem_of_mem_page hv).1)
    · rw [hj]
      rfl
  rw [List.countP_map, List.countP_eq_length.mpr hrows, page, hall, List.length_take,
    List.length_mergeSort]

/-- A first poll with more than 13107 rows that render fails and changes nothing. -/
theorem first_poll_fails (hq : cfg.query.Valid) (hsize : 13107 < cfg.query.batchSize)
    (hstate : s.states cfg.sourceId = none) (hmany : 13107 < s.visible.length)
    {source : Time} (hdue : ∀ v ∈ s.visible, v.ts + cfg.query.bias ≤ source)
    (hrender : ∀ v ∈ s.visible, ¬Unrenderable lib col cfg v) (queue : Time) :
    (runOnce lib col cfg (.clean source queue) s).error =
        some ("enqueue batch: " ++
          tooManyParams (min cfg.query.batchSize.toNat s.visible.length)) ∧
      (runOnce lib col cfg (.clean source queue) s).world = { s with clock := source } := by
  obtain ⟨rows, hfetch, hcount⟩ := first_fetched hq hstate hdue hrender queue
  have hbad : maxParams < (cfg.specs lib rows).length * 5 := by
    rw [length_specs, hcount, maxParams]
    omega
  refine ⟨?_, runOnce_rejected hfetch hbad⟩
  rw [runOnce_error_clean hfetch, if_pos hbad, length_specs, hcount]

end Fits

/-- For every accepted configuration: a poll that fetches something and meets no
fault builds a statement that fits, returns no error and advances the watermark
exactly when at most 13107 of the fetched rows render.  A batch size up to 13107
never has a poll with more.  With a larger size the first poll of every table of
more than 13107 renderable rows fails, and leaves the watermark and the queue. -/
theorem full_batch_advances (range : MapRange) (env : Environ) (c : SnifferConfig)
    (hc : parseSnifferConfig range env = .ok c) {K : Type} [LinearOrder K] (lib : GoLib)
    (col : PkColumn K) :
    (∀ clock as source queue rows, (Poll.clean source queue).fetched lib col c.sniffer
        (reach lib col c.sniffer clock as) = .ok rows → rows ≠ [] →
      (rows.countP (renders c.sniffer lib) ≤ 13107 ↔
        (buildBatch (c.sniffer.specs lib rows)).2.length ≤ maxParams ∧
        (runOnce lib col c.sniffer (.clean source queue)
          (reach lib col c.sniffer clock as)).error = none ∧
        (reach lib col c.sniffer clock as).watermark col c.sniffer <
          (runOnce lib col c.sniffer (.clean source queue)
            (reach lib col c.sniffer clock as)).world.watermark col c.sniffer)) ∧
    (env.int "SNIFFER_BATCH_SIZE" 500 ≤ 13107 →
      ∀ clock as source queue rows, (Poll.clean source queue).fetched lib col c.sniffer
        (reach lib col c.sniffer clock as) = .ok rows →
        rows.countP (renders c.sniffer lib) ≤ 13107) ∧
    (13107 < env.int "SNIFFER_BATCH_SIZE" 500 → c.sniffer.query.Valid →
      ∀ clock source queue (vs : List (Version K)), 13107 < vs.length →
        (vs.map Version.pk).Nodup → (∀ v ∈ vs, clock < v.ts + c.sniffer.query.bias) →
        (∀ v ∈ vs, v.ts + c.sniffer.query.bias ≤ source) →
        (∀ v ∈ vs, ¬Unrenderable lib col c.sniffer v) →
        (runOnce lib col c.sniffer (.clean source queue)
          (reach lib col c.sniffer clock (vs.map .commit))).error ≠ none ∧
        (runOnce lib col c.sniffer (.clean source queue)
            (reach lib col c.sniffer clock (vs.map .commit))).world =
          { reach lib col c.sniffer clock (vs.map .commit) with clock := source }) := by
  have hbatch : c.sniffer.query.batchSize = env.int "SNIFFER_BATCH_SIZE" 500 := by
    simp only [parseSnifferConfig] at hc
    repeat' split at hc
    all_goals cases hc
    rfl
  have hinv : ∀ clock as, SnifferInv lib col c.sniffer (reach lib col c.sniffer clock as) :=
    fun clock as => reach_inv clock as
  refine ⟨fun clock as source queue rows hfetch hne => ?_,
    fun hsize clock as source queue rows hfetch => ?_,
    fun hsize hq clock source queue vs hmany hpks hclock hdue hrender => ?_⟩
  · exact runOnce_advances_iff (hinv clock as).keyed hfetch hne
  · have hrows := fetched_length_le (hinv clock as).keyed hfetch
    have hcount : rows.countP (renders c.sniffer lib) ≤ rows.length := List.countP_le_length
    omega
  · rw [reach_commits hpks hclock]
    rw [← List.length_reverse] at hmany
    obtain ⟨herror, hworld⟩ := first_poll_fails
      (s := { (World.init clock : World K) with visible := vs.reverse }) hq (hbatch ▸ hsize) rfl
      hmany (fun v hv => hdue v (List.mem_reverse.mp hv))
      (fun v hv => hrender v (List.mem_reverse.mp hv)) queue
    exact ⟨by rw [herror]; exact Option.some_ne_none _, hworld⟩

/-! ## A batch size of 13108 -/

/-- The variables of a sniffer of `images`, with the text of a batch size. -/
def imagesEnv (batchSize : String) : Environ := fun key =>
  ([("SNIFFER_SHADOW", "0"), ("SNIFFER_BATCH_SIZE", batchSize), ("SNIFFER_BIAS_SEC", "0"),
    ("SNIFFER_SOURCE_ID", "images"), ("SNIFFER_SOURCE_DSN", "postgres://source"),
    ("SNIFFER_IMGSYNC_DSN", "postgres://imgsync"), ("SNIFFER_TABLE", "images"),
    ("SNIFFER_PK_COLUMN", "id"), ("SNIFFER_TS_COLUMN", "created_at"),
    ("SNIFFER_DST_PATTERN", "id"), ("SNIFFER_SRC_PATTERN", "id"), ("SNIFFER_SRC_PROTOCOL", "ftp"),
    ("SNIFFER_DST_PROTOCOL", "localfs")].lookup key).getD ""

/-- What `ParseSnifferConfig` makes of them. -/
def imagesSnifferConfig (batchSize : Int) : SnifferConfig where
  sourceId := "images"
  sourceDSN := "postgres://source"
  imgsyncDSN := "postgres://imgsync"
  table := "images"
  pkColumn := "id"
  tsColumn := "created_at"
  extraColumns := []
  dstPattern := "id"
  srcPattern := "id"
  srcProtocol := "ftp"
  dstProtocol := "localfs"
  shadow := false
  batchSize := batchSize
  biasDuration := 0
  intervalSec := 60

def inOrder : MapRange := ⟨id, fun _ => .refl _⟩

/-- A backlog of `n` images. -/
def backlog (batchSize : Int) (n : Nat) : World (KeyType.Key .bigint) :=
  reach columnLib idColumn (imagesConfig batchSize) (-1) ((images n).visible.map .commit)

theorem images_future (n : Nat) (batchSize : Int) :
    ∀ v ∈ (images n).visible, -1 < v.ts + (imagesConfig batchSize).query.bias := by
  intro v hv
  obtain ⟨i, -, rfl⟩ := List.mem_map.mp hv
  show (-1 : Int) < ((i / 2 : Nat) : Int) + 0
  omega

theorem backlog_spec {n : Nat} (hn : n ≤ 9223372036854775808) (batchSize : Int) :
    (backlog batchSize n).visible = (images n).visible.reverse ∧
      (backlog batchSize n).states "images" = none := by
  rw [backlog, reach_commits (nodup_images hn) (images_future n batchSize)]
  exact ⟨rfl, rfl⟩

theorem length_images (n : Nat) : (images n).visible.length = n := by
  rw [images, List.length_map, List.length_range]

/-- The default batch size and one image: the poll advances.  A batch size of
20000 and 13108 images: it fails. -/
theorem full_batch_advances_images :
    (∃ rows, (Poll.clean 1 0).fetched columnLib idColumn (imagesConfig 500) (backlog 500 1) =
        .ok rows ∧ rows ≠ [] ∧ rows.countP (renders (imagesConfig 500) columnLib) = 1 ∧
      (runOnce columnLib idColumn (imagesConfig 500) (.clean 1 0) (backlog 500 1)).error = none) ∧
    (runOnce columnLib idColumn (imagesConfig 20000) (.clean (13108 : Nat) 0)
      (backlog 20000 13108)).error ≠ none := by
  have hsmall : parseSnifferConfig inOrder (imagesEnv "") = .ok (imagesSnifferConfig 500) := by
    decide +kernel
  have hlarge : parseSnifferConfig inOrder (imagesEnv "20000") =
      .ok (imagesSnifferConfig 20000) := by
    decide +kernel
  constructor
  · obtain ⟨rows, hfetch, hcount⟩ := first_fetched
      (imagesConfig_valid (show (0 : Int) < 500 by decide)) (s := backlog 500 1) rfl
      (images_past 1 500) (fun v _ => image_renders 500 v) 0
    have hone : rows.countP (renders (imagesConfig 500) columnLib) = 1 := hcount
    have hne : rows ≠ [] := by
      rintro rfl
      cases hone
    have hiff := (full_batch_advances inOrder (imagesEnv "") (imagesSnifferConfig 500) hsmall
      columnLib idColumn).1 (-1) _ 1 0 rows hfetch hne
    exact ⟨rows, hfetch, hne, hone, (hiff.mp (hone.trans_le (by decide))).2.1⟩
  · refine ((full_batch_advances inOrder (imagesEnv "20000") (imagesSnifferConfig 20000) hlarge
      columnLib idColumn).2.2 (by decide +kernel) (imagesConfig_valid (by decide)) (-1) _ 0
      (images 13108).visible ?_ (nodup_images (by decide)) (images_future 13108 20000)
      (images_past 13108 20000) fun v _ => image_renders 20000 v).1
    rw [length_images]
    decide

/-- A backlog of 13108 images and a batch size of 13108: the configuration is
accepted, and every poll fails with the watermark unset. -/
theorem full_batch_rejected :
    parseSnifferConfig inOrder (imagesEnv "13108") = .ok (imagesSnifferConfig 13108) ∧
    ∀ k, (runOnce columnLib idColumn (imagesConfig 13108) (.clean (13108 : Nat) 0)
        (polled columnLib idColumn (imagesConfig 13108) (fun _ => .clean (13108 : Nat) 0)
          (backlog 13108 13108) k)).error = some ("enqueue batch: " ++ tooManyParams 13108) ∧
      (polled columnLib idColumn (imagesConfig 13108) (fun _ => .clean (13108 : Nat) 0)
        (backlog 13108 13108) k).states "images" = none := by
  refine ⟨by decide +kernel, fun k => ?_⟩
  have hfails : ∀ s : World (KeyType.Key .bigint),
      s.visible = (images 13108).visible.reverse → s.states "images" = none →
      (runOnce columnLib idColumn (imagesConfig 13108) (.clean (13108 : Nat) 0) s).error =
          some ("enqueue batch: " ++ tooManyParams 13108) ∧
        (runOnce columnLib idColumn (imagesConfig 13108) (.clean (13108 : Nat) 0) s).world =
          { s with clock := (13108 : Nat) } := by
    intro s hvis hstate
    have hlen : s.visible.length = 13108 := by rw [hvis, List.length_reverse, length_images]
    have hmin : min (imagesConfig 13108).query.batchSize.toNat s.visible.length = 13108 := by
      rw [hlen]
      decide
    have hpast : ∀ v ∈ s.visible, v.ts + (imagesConfig 13108).query.bias ≤ (13108 : Nat) := by
      rw [hvis]
      exact fun v hv => images_past 13108 13108 v (List.mem_reverse.mp hv)
    have hpoll := first_poll_fails (imagesConfig_valid (show (0 : Int) < 13108 by decide))
      (show (13107 : Int) < 13108 by decide) hstate (by rw [hlen]; decide) hpast
      (fun v _ => image_renders 13108 v) 0
    rwa [hmin] at hpoll
  have hsame : (polled columnLib idColumn (imagesConfig 13108) (fun _ => .clean (13108 : Nat) 0)
        (backlog 13108 13108) k).visible = (images 13108).visible.reverse ∧
      (polled columnLib idColumn (imagesConfig 13108) (fun _ => .clean (13108 : Nat) 0)
        (backlog 13108 13108) k).states "images" = none := by
    induction k with
    | zero =>
      rw [polled]
      exact backlog_spec (by decide) 13108
    | succ k ih =>
      rw [polled, (hfails _ ih.1 ih.2).2]
      exact ih
  exact ⟨(hfails _ hsame.1 hsame.2).1, hsame.2⟩

end ImgSync.Cli
