import ImgSync.Lib.Run
import ImgSync.Queue.Ops

/-!
# The two enqueue paths, compared

The sniffer and `jobs.Enqueue` were written apart.  This file compares what
they leave in the two tables.

* The rows agree: for one job always, and for a batch unless an earlier tuple
  of the batch has the key (`rowOf_enqueueBatch`).
* The events do not: `jobs.Enqueue` writes an `enqueue` event for a new row,
  and the sniffer writes none.

A trail therefore starts with its one `enqueue` event in the runs in which the
sniffer finds every key taken (`Silent`).
-/

namespace ImgSync.Queue

open ImgSync.Lib ImgSync.Worker

/-! ## One job -/

def JobSpec.key (j : JobSpec) : String × String := (j.traceId, j.dst)

/-- The arguments of `jobs.Enqueue` for the same job, with no payload and the
default `MaxAttempts`. -/
def JobSpec.args (j : JobSpec) : EnqueueArgs where
  traceId := j.traceId
  src := j.src
  dst := j.dst
  srcProtocol := j.srcProtocol
  dstProtocol := j.dstProtocol
  payload := ""
  maxAttempts := 0

/-- All fields are there. -/
structure JobSpec.Complete (j : JobSpec) : Prop where
  traceId : j.traceId ≠ ""
  src : j.src ≠ ""
  dst : j.dst ≠ ""
  srcProtocol : j.srcProtocol ≠ ""
  dstProtocol : j.dstProtocol ≠ ""

/-- The key is in the table. -/
def Tables.HasKey (t : Tables) (key : String × String) : Prop := ∃ r ∈ t.jobs, r.key = key

/-- The row with a key, up to its id. -/
def Tables.rowOf (t : Tables) (key : String × String) : Option JobRow :=
  (t.jobs.find? fun r => r.key == key).map fun r => { r with id := 0 }

/-- The row that the sniffer inserts, up to its id. -/
def JobSpec.row (j : JobSpec) (now : Time) : JobRow := j.newJob.row now 0

variable {t : Tables} {now : Time} {j : JobSpec}

theorem any_key_iff {key : String × String} :
    (t.jobs.any fun r => r.key == key) = true ↔ t.HasKey key := by
  simp [Tables.HasKey]

theorem rowOf_eq_none {key : String × String} (h : ¬t.HasKey key) : t.rowOf key = none := by
  rw [Tables.rowOf, List.find?_eq_none.mpr, Option.map_none]
  intro r hr hkey
  exact h ⟨r, hr, beq_iff_eq.mp hkey⟩

theorem rowOf_isSome {key : String × String} (h : t.HasKey key) : (t.rowOf key).isSome := by
  obtain ⟨r, hr, hkey⟩ := h
  rw [Tables.rowOf, Option.isSome_map, List.find?_isSome]
  exact ⟨r, hr, beq_iff_eq.mpr hkey⟩

/-- The insert of a job: nothing but the draw of an id, or the row. -/
theorem insertJob_eq (t : Tables) (now : Time) (n : NewJob) :
    t.HasKey (n.traceId, n.dst) ∧
        t.insertJob now n = ({ t with jobSeq := t.jobSeq + 1 }, none) ∨
      ¬t.HasKey (n.traceId, n.dst) ∧ t.insertJob now n =
        ({ t with jobs := t.jobs ++ [n.row now t.jobSeq], jobSeq := t.jobSeq + 1 },
          some t.jobSeq) := by
  rw [Tables.insertJob]
  split
  · rename_i hany
    exact Or.inl ⟨any_key_iff.mp hany, rfl⟩
  · rename_i hany
    exact Or.inr ⟨fun hkey => hany (any_key_iff.mpr hkey), rfl⟩

/-- `jobs.Enqueue` of a complete job: nothing, or the row and its event.  The
defaults of `jobs.Enqueue` are those of the schema. -/
theorem enqueue_args (t : Tables) (now : Time) (hj : j.Complete) :
    t.HasKey j.key ∧ (enqueue t now j.args).1 = { t with jobSeq := t.jobSeq + 1 } ∨
      ¬t.HasKey j.key ∧ (enqueue t now j.args).1 =
        ({ t with jobs := t.jobs ++ [j.newJob.row now t.jobSeq], jobSeq := t.jobSeq + 1 } :
          Tables).insertEvent now j.traceId t.jobSeq .enqueue (.payload "{}") := by
  have hfields : ¬(j.args.traceId == "" || j.args.src == "" || j.args.dst == "") = true := by
    simp [JobSpec.args, hj.traceId, hj.src, hj.dst]
  have hprotocols : ¬(j.args.srcProtocol == "" || j.args.dstProtocol == "") = true := by
    simp [JobSpec.args, hj.srcProtocol, hj.dstProtocol]
  have hfits : ¬(!int4 j.args.newJob.maxAttempts) = true := Bool.false_ne_true
  rw [enqueue, if_neg hfields, if_neg hprotocols, if_neg hfits]
  rcases insertJob_eq t now j.args.newJob with ⟨hkey, hins⟩ | ⟨hkey, hins⟩
  · refine Or.inl ⟨hkey, ?_⟩
    obtain ⟨r, hr⟩ := Option.isSome_iff_exists.mp
      (List.find?_isSome.mpr (List.any_eq_true.mp (any_key_iff.mpr hkey)))
    have hfind : (t.jobs.find? fun r => r.key == (j.args.traceId, j.args.dst)) = some r := hr
    simp only [hins, hfind]
  · refine Or.inr ⟨hkey, ?_⟩
    simp only [hins]
    rfl

/-- `Enqueuer.Enqueue`: nothing, or the row alone. -/
theorem snifferEnqueue_eq (t : Tables) (now : Time) (j : JobSpec) :
    t.HasKey j.key ∧ (snifferEnqueue t now j).1 = { t with jobSeq := t.jobSeq + 1 } ∨
      ¬t.HasKey j.key ∧ (snifferEnqueue t now j).1 =
        { t with jobs := t.jobs ++ [j.newJob.row now t.jobSeq], jobSeq := t.jobSeq + 1 } := by
  rcases insertJob_eq t now j.newJob with ⟨hkey, hins⟩ | ⟨hkey, hins⟩
  · exact Or.inl ⟨hkey, by rw [snifferEnqueue, hins]⟩
  · exact Or.inr ⟨hkey, by rw [snifferEnqueue, hins]⟩

theorem enqueue_jobs (hj : j.Complete) :
    (enqueue t now j.args).1.jobs = (snifferEnqueue t now j).1.jobs := by
  rcases enqueue_args t now hj with ⟨hkey, he⟩ | ⟨hkey, he⟩ <;>
    rcases snifferEnqueue_eq t now j with ⟨hkey', hs⟩ | ⟨hkey', hs⟩
  · rw [he, hs]
  · exact absurd hkey hkey'
  · exact absurd hkey' hkey
  · rw [he, hs]
    rfl

/-- `jobs.Enqueue` keeps the events exactly when the key is taken. -/
theorem enqueue_events_iff (hj : j.Complete) :
    (enqueue t now j.args).1.events = t.events ↔ t.HasKey j.key := by
  rcases enqueue_args t now hj with ⟨hkey, he⟩ | ⟨hkey, he⟩
  · rw [he]
    exact iff_of_true rfl hkey
  · rw [he]
    refine iff_of_false ?_ hkey
    exact fun h => absurd h (by simp [Tables.insertEvent])

theorem snifferEnqueue_events (t : Tables) (now : Time) (j : JobSpec) :
    (snifferEnqueue t now j).1.events = t.events := by
  rcases snifferEnqueue_eq t now j with ⟨_, hs⟩ | ⟨_, hs⟩ <;> rw [hs]

/-! ## A batch -/

/-- The row under a key after one insert: the row that was there, or the new
one. -/
theorem rowOf_snifferEnqueue (t : Tables) (now : Time) (j : JobSpec) (key : String × String) :
    (snifferEnqueue t now j).1.rowOf key =
      (t.rowOf key).or (if j.key = key then some (j.row now) else none) := by
  rcases snifferEnqueue_eq t now j with ⟨hkey, hs⟩ | ⟨hkey, hs⟩
  · rw [hs]
    show t.rowOf key = _
    by_cases heq : j.key = key
    · subst heq
      obtain ⟨r, hr⟩ := Option.isSome_iff_exists.mp (rowOf_isSome hkey)
      rw [hr, Option.some_or]
    · rw [if_neg heq, Option.or_none]
  · rw [hs]
    show ((t.jobs ++ [j.newJob.row now t.jobSeq]).find? fun r => r.key == key).map _ = _
    rw [List.find?_append, Option.map_or]
    congr 1
    have hrow : (j.newJob.row now t.jobSeq).key = j.key := rfl
    by_cases heq : j.key = key
    · rw [if_pos heq, List.find?_cons_of_pos (by rw [hrow, heq, beq_self_eq_true])]
      rfl
    · rw [if_neg heq, List.find?_cons_of_neg (by rw [hrow, beq_iff_eq]; exact heq)]
      rfl

theorem insertAll_events (now : Time) (specs : List JobSpec) (t : Tables) :
    (insertAll now t specs).1.events = t.events := by
  induction specs generalizing t with
  | nil => rfl
  | cons j rest ih =>
    show (insertAll now (snifferEnqueue t now j).1 rest).1.events = t.events
    rw [ih, snifferEnqueue_events]

/-- The first tuple with a key wins. -/
theorem rowOf_insertAll (now : Time) (specs : List JobSpec) (t : Tables)
    (key : String × String) : (insertAll now t specs).1.rowOf key =
      (t.rowOf key).or ((specs.find? fun j => decide (j.key = key)).map fun j => j.row now) := by
  induction specs generalizing t with
  | nil => rw [List.find?_nil, Option.map_none, Option.or_none]; rfl
  | cons j rest ih =>
    show (insertAll now (snifferEnqueue t now j).1 rest).1.rowOf key = _
    rw [ih, rowOf_snifferEnqueue, Option.or_assoc]
    congr 1
    by_cases heq : j.key = key
    · rw [if_pos heq, Option.some_or, List.find?_cons_of_pos (by simpa using heq), Option.map_some]
    · rw [if_neg heq, Option.none_or, List.find?_cons_of_neg (by simpa using heq)]

theorem rowOf_enqueueBatch (now : Time) (specs : List JobSpec) (t : Tables)
    (key : String × String) : (enqueueBatch t now specs).1.rowOf key =
      (t.rowOf key).or ((specs.find? fun j => decide (j.key = key)).map fun j => j.row now) := by
  rw [enqueueBatch]
  split
  · rename_i hempty
    rw [List.isEmpty_iff.mp hempty, List.find?_nil, Option.map_none, Option.or_none]
  · exact rowOf_insertAll now specs t key

theorem enqueueBatch_events (t : Tables) (now : Time) (specs : List JobSpec) :
    (enqueueBatch t now specs).1.events = t.events := by
  rw [enqueueBatch]
  split
  · rfl
  · exact insertAll_events now specs t

/-- The row of a job after a batch is the row after `jobs.Enqueue` exactly when
the key was taken before, or the job is the first of its key in the batch. -/
theorem rowOf_enqueueBatch_iff (hj : j.Complete) {specs : List JobSpec} (hmem : j ∈ specs) :
    (enqueueBatch t now specs).1.rowOf j.key = (enqueue t now j.args).1.rowOf j.key ↔
      t.HasKey j.key ∨ specs.find? (fun k => decide (k.key = j.key)) = some j := by
  have henq : (enqueue t now j.args).1.rowOf j.key = (t.rowOf j.key).or (some (j.row now)) := by
    have hs := rowOf_snifferEnqueue t now j j.key
    rw [if_pos rfl] at hs
    rw [← hs, Tables.rowOf, Tables.rowOf, enqueue_jobs hj]
  rw [henq, rowOf_enqueueBatch]
  by_cases hkey : t.HasKey j.key
  · obtain ⟨r, hr⟩ := Option.isSome_iff_exists.mp (rowOf_isSome hkey)
    rw [hr, Option.some_or, Option.some_or]
    exact iff_of_true rfl (Or.inl hkey)
  · have hsome : (specs.find? fun k => decide (k.key = j.key)).isSome :=
      List.find?_isSome.mpr ⟨j, hmem, decide_eq_true rfl⟩
    obtain ⟨k, hk⟩ := Option.isSome_iff_exists.mp hsome
    have hsame : k.row now = j.row now ↔ k = j := by
      cases k
      cases j
      simp [JobSpec.row, NewJob.row, JobSpec.newJob]
    rw [rowOf_eq_none hkey, hk, Option.map_some, Option.none_or, Option.none_or]
    simp only [Option.some.injEq, hsame, hkey, false_or]

/-! ## Whole runs -/

/-- The sniffer finds every key taken. -/
def Silent (t : Tables) : Op → Prop
  | .snifferEnqueue j => t.HasKey j.key
  | .enqueueBatch specs => ∀ j ∈ specs, t.HasKey j.key
  | _ => True

theorem insertAll_taken (now : Time) {specs : List JobSpec} (h : ∀ j ∈ specs, t.HasKey j.key) :
    (insertAll now t specs).1.jobs = t.jobs ∧ t.jobSeq ≤ (insertAll now t specs).1.jobSeq := by
  induction specs generalizing t with
  | nil => exact ⟨rfl, le_rfl⟩
  | cons j rest ih =>
    show (insertAll now (snifferEnqueue t now j).1 rest).1.jobs = t.jobs ∧
      t.jobSeq ≤ (insertAll now (snifferEnqueue t now j).1 rest).1.jobSeq
    rcases snifferEnqueue_eq t now j with ⟨_, hs⟩ | ⟨hkey, _⟩
    · rw [hs]
      obtain ⟨hjobs, hseq⟩ := ih (t := { t with jobSeq := t.jobSeq + 1 })
        fun k hk => h k (List.mem_cons_of_mem _ hk)
      exact ⟨hjobs, (Nat.le_succ _).trans hseq⟩
    · exact absurd (h j List.mem_cons_self) hkey

/-- Where the sniffer is silent, every new row has its `enqueue` event. -/
theorem exec_logged (hwf : t.Wf) (now : Time) {op : Op} (hop : ¬op.IsRetention)
    (hsilent : Silent t op) : Logged now op t (exec t now op) := by
  have hsame : ∀ {t' : Tables}, t'.jobs = t.jobs → t'.events = t.events →
      t.jobSeq ≤ t'.jobSeq → Logged now op t t' :=
    fun hjobs hevents hseq => ⟨Delta.ofSame hwf hjobs hevents hseq, fun r hr => by cases hr⟩
  have hupdates : op.updates = true → Logged now op t (exec t now op) := by
    intro hup
    obtain ⟨d, hnone⟩ := exec_updates hwf now hup
    refine ⟨d, fun r hr => ?_⟩
    rw [hnone] at hr
    cases hr
  cases op with
  | enqueue a => exact enqueue_logged hwf a
  | snifferEnqueue j =>
    rcases snifferEnqueue_eq t now j with ⟨_, hs⟩ | ⟨hkey, _⟩
    · refine hsame ?_ ?_ ?_ <;> rw [exec, hs]
      exact Nat.le_succ _
    · exact absurd hsilent hkey
  | enqueueBatch specs =>
    obtain ⟨hjobs, hseq⟩ := insertAll_taken now hsilent
    rw [exec, enqueueBatch]
    split
    · exact hsame rfl rfl le_rfl
    · exact hsame hjobs (insertAll_events now specs t) hseq
  | leaseJob | outcome | sweep | drainLease => exact hupdates rfl
  | retention => exact absurd trivial hop
  | rolledBack jobIds eventIds => exact hsame rfl rfl (Nat.le_add_right _ _)

/-- A trail with one `enqueue` event, in front. -/
def EnqueuedFirst (trail : List EventStatus) : Prop :=
  ∃ rest, trail = .enqueue :: rest ∧ .enqueue ∉ rest

/-- No row step writes an `enqueue` event. -/
theorem RowStep.not_enqueue {op : Op} {r r' : JobRow} {kinds : List EventStatus}
    (h : RowStep now op r r' kinds) : .enqueue ∉ kinds := by
  cases h with
  | finish _ _ kind => cases kind <;> simp [TerminalKind.eventStatus]
  | keep | lease | drain | expire | succeed | retry => simp

theorem exec_enqueuedFirst (hwf : t.Wf) (now : Time) {op : Op} (hsilent : Silent t op)
    (h : ∀ r ∈ t.jobs, EnqueuedFirst (t.trail r.id)) :
    ∀ r ∈ (exec t now op).jobs, EnqueuedFirst ((exec t now op).trail r.id) := by
  by_cases hop : op.IsRetention
  · intro r hr
    obtain ⟨keep, hp⟩ := exec_retention hwf now hop
    obtain ⟨hmem, htrail⟩ := hp.trail hr
    rw [htrail]
    exact h r hmem
  · obtain ⟨d, hlogged⟩ := exec_logged hwf now hop hsilent
    refine d.all_rows (P := fun _ trail => EnqueuedFirst trail) hwf ?_ ?_ h
    · intro r hr
      exact ⟨[], hlogged r hr, List.not_mem_nil⟩
    · rintro r _ r' kinds hstep ⟨rest, htrail, hrest⟩
      refine ⟨rest ++ kinds, by rw [htrail, List.cons_append], ?_⟩
      rw [List.mem_append, not_or]
      exact ⟨hrest, hstep.not_enqueue⟩

/-- The sniffer finds every key taken in every step of the run. -/
def SilentRun (ops : List (Time × Op)) : Prop :=
  ∀ before o after, ops = before ++ o :: after → Silent (execAll before) o.2

theorem execAll_enqueuedFirst {ops : List (Time × Op)} (hsilent : SilentRun ops) :
    ∀ r ∈ (execAll ops).jobs, EnqueuedFirst ((execAll ops).trail r.id) := by
  have hsteps : AllSteps (fun t (o : Time × Op) => exec t o.1 o.2) (fun t o => Silent t o.2)
      Tables.empty ops := allSteps_iff.mpr hsilent
  refine (foldl_all (fun t => t.Wf ∧ ∀ r ∈ t.jobs, EnqueuedFirst (t.trail r.id)) ?_
    ⟨Tables.wf_empty, fun r hr => by cases hr⟩ hsteps).2
  rintro t o ⟨hwf, h⟩ hok
  exact ⟨exec_wf hwf o.1 o.2, exec_enqueuedFirst hwf o.1 hok h⟩

/-- The two paths, compared.  One job gets the same row from both, and a batch
gives it that row exactly when the key was taken or the job is the first of its
key in the batch.  The events agree exactly when the key was taken.  In a run in
which the sniffer finds every key taken, every row has one `enqueue` event, and
it is the first event of the row. -/
theorem enqueue_paths (j : JobSpec) (hj : j.Complete) :
    (∀ t now, (snifferEnqueue t now j).1.jobs = (enqueue t now j.args).1.jobs ∧
      ((snifferEnqueue t now j).1.events = (enqueue t now j.args).1.events ↔ t.HasKey j.key)) ∧
    (∀ t now specs, j ∈ specs →
      ((enqueueBatch t now specs).1.rowOf j.key = (enqueue t now j.args).1.rowOf j.key ↔
        t.HasKey j.key ∨ specs.find? (fun k => decide (k.key = j.key)) = some j) ∧
      ((enqueueBatch t now specs).1.events = (enqueue t now j.args).1.events ↔ t.HasKey j.key)) ∧
    ∀ ops, SilentRun ops → ∀ r ∈ (execAll ops).jobs, EnqueuedFirst ((execAll ops).trail r.id) := by
  refine ⟨fun t now => ⟨(enqueue_jobs hj).symm, ?_⟩, fun t now specs hmem => ⟨?_, ?_⟩, ?_⟩
  · rw [snifferEnqueue_events, eq_comm]
    exact enqueue_events_iff hj
  · exact rowOf_enqueueBatch_iff hj hmem
  · rw [enqueueBatch_events, eq_comm]
    exact enqueue_events_iff hj
  · exact fun ops => execAll_enqueuedFirst

/-- A job that the sniffer finds. -/
def sighting : JobSpec := ⟨"images-1", "a.png", "b.png", "ftp", "localfs"⟩

theorem sighting_complete : sighting.Complete := by
  constructor <;> decide

/-- A job that was enqueued by hand and is then seen by the sniffer keeps its
one event. -/
theorem enqueue_paths_seen_again :
    sighting.Complete ∧
    SilentRun [(0, .enqueue sighting.args), (60, .enqueueBatch [sighting])] ∧
    EnqueuedFirst
      ((execAll [(0, .enqueue sighting.args), (60, .enqueueBatch [sighting])]).trail 1) := by
  have hsteps : AllSteps (fun t (o : Time × Op) => exec t o.1 o.2) (fun t o => Silent t o.2)
      Tables.empty [(0, .enqueue sighting.args), (60, .enqueueBatch [sighting])] := by
    refine ⟨trivial, fun j hj => ?_, trivial⟩
    rw [List.mem_singleton.mp hj]
    exact ⟨sighting.newJob.row 0 1, List.mem_singleton_self _, rfl⟩
  have hsilent := allSteps_iff.mp hsteps
  exact ⟨sighting_complete, hsilent, (enqueue_paths sighting sighting_complete).2.2 _ hsilent
    (sighting.newJob.row 0 1) (List.mem_singleton_self _)⟩

/-- The same job on an empty table: the sniffer leaves a row without an event.
In a batch, an earlier tuple with the key decides the row. -/
theorem enqueue_paths_differ :
    (execAll [(0, .snifferEnqueue sighting)]).trail 1 = [] ∧
    (execAll [(0, .enqueue sighting.args)]).trail 1 = [.enqueue] ∧
    (snifferEnqueue .empty 0 sighting).1.events ≠ (enqueue .empty 0 sighting.args).1.events ∧
    ((enqueueBatch .empty 0 [{ sighting with src := "c.png" }, sighting]).1.rowOf
      sighting.key).map JobRow.src = some "c.png" ∧
    ((enqueue .empty 0 sighting.args).1.rowOf sighting.key).map JobRow.src = some "a.png" := by
  decide

end ImgSync.Queue
