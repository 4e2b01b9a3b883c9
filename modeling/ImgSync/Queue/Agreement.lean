import ImgSync.Lib.Run
import ImgSync.Lib.UniqueIndex
import ImgSync.Queue.Sessions

/-!
# Concurrent enqueue calls agree

The invariant of `ImgSync.Queue.Sessions` is two unique indexes, one for the
keys and one for the ids, which also cover the open transactions, together
with what each call knows.  A call adds to an index only when it forms or
inserts a tuple (`Inv.draw`, `Inv.addTuple`).  `Inv.shrink` is all the other
statements up to the commit.

`enqueue_agreement` is the result over whole runs.
-/

namespace ImgSync.Queue.Sessions

open ImgSync.Lib

section Invariant

variable {n : Nat} (calls : Fin n → Call)

structure Inv (s : State n) : Prop where
  keys : UniqueIndex (s.tables.jobs.map JobRow.key) fun i => (s.phases i).rows.map JobRow.key
  ids : UniqueIndex (s.tables.jobs.map JobRow.id) fun i => (s.phases i).ids
  seq : ∀ r ∈ s.tables.jobs, r.id < s.tables.jobSeq
  drawn : ∀ i, ∀ id ∈ (s.phases i).ids, id < s.tables.jobSeq
  fk : ∀ e ∈ s.tables.events, ∃ r ∈ s.tables.jobs, r.id = e.jobId
  knows : ∀ i, Knows (calls i) s.tables (s.phases i)
  once : ∀ i j, i ≠ j → ∀ r ∈ (s.phases i).reported, ∀ r' ∈ (s.phases j).reported, r.key ≠ r'.key

variable {calls} {s : State n} {i : Fin n}

theorem Inv.wf (h : Inv calls s) : s.tables.Wf := ⟨h.ids.nodup, h.keys.nodup, h.seq, h.fk⟩

theorem inv_initial {t : Tables} (hwf : t.Wf) : Inv calls (initial t) where
  keys := UniqueIndex.empty hwf.keys
  ids := UniqueIndex.empty hwf.ids
  seq := hwf.seq
  drawn _ _ hid := by cases hid
  fk := hwf.fk
  knows _ := trivial
  once _ _ _ _ hr := by cases hr

omit calls in
/-- What the calls have put into an index after the call `i` has moved. -/
theorem pending_update {α : Type} (f : Phase → List α) (phases : Fin n → Phase) (i : Fin n)
    (ph : Phase) : (fun j => f (Function.update phases i ph j)) =
      Function.update (fun j => f (phases j)) i (f ph) :=
  Function.comp_update f phases i ph

omit calls in
/-- No key is reported twice after the call `i` has moved. -/
theorem once_update {phases : Fin n → Phase} {ph : Phase}
    (hold : ∀ j k, j ≠ k → ∀ r ∈ (phases j).reported, ∀ r' ∈ (phases k).reported, r.key ≠ r'.key)
    (hnew : ∀ j, j ≠ i → ∀ r ∈ ph.reported, ∀ r' ∈ (phases j).reported, r.key ≠ r'.key) :
    ∀ j k, j ≠ k → ∀ r ∈ (Function.update phases i ph j).reported,
      ∀ r' ∈ (Function.update phases i ph k).reported, r.key ≠ r'.key :=
  pairwise_update (R := fun p q : Phase => ∀ r ∈ p.reported, ∀ r' ∈ q.reported, r.key ≠ r'.key)
    (fun _ _ h r hr r' hr' => (h r' hr' r hr).symm) hold hnew

/-- A statement that commits nothing. -/
theorem Inv.move (h : Inv calls s) {t' : Tables} {ph : Phase} (hjobs : t'.jobs = s.tables.jobs)
    (hevents : t'.events = s.tables.events) (hseq : s.tables.jobSeq ≤ t'.jobSeq)
    (hkeys : UniqueIndex (s.tables.jobs.map JobRow.key)
      (Function.update (fun j => (s.phases j).rows.map JobRow.key) i (ph.rows.map JobRow.key)))
    (hids : UniqueIndex (s.tables.jobs.map JobRow.id)
      (Function.update (fun j => (s.phases j).ids) i ph.ids))
    (hdrawn : ∀ id ∈ ph.ids, id < t'.jobSeq) (hknows : Knows (calls i) s.tables ph)
    (hrep : ph.reported = []) : Inv calls ⟨t', Function.update s.phases i ph⟩ := by
  refine ⟨?_, ?_, ?_, ?_, ?_, ?_, ?_⟩
  · rw [hjobs]
    exact (pending_update (fun p => p.rows.map JobRow.key) s.phases i ph).symm ▸ hkeys
  · rw [hjobs]
    exact (pending_update Phase.ids s.phases i ph).symm ▸ hids
  · rw [hjobs]
    exact fun r hr => (h.seq r hr).trans_le hseq
  · exact (Function.forall_update_iff s.phases fun _ p => ∀ id ∈ p.ids, id < t'.jobSeq).mpr
      ⟨hdrawn, fun j _ id hid => (h.drawn j id hid).trans_le hseq⟩
  · rw [hjobs, hevents]
    exact h.fk
  · have hgrows : Grows s.tables t' := Grows.of_same hjobs
    exact (Function.forall_update_iff s.phases fun j p => Knows (calls j) t' p).mpr
      ⟨hknows.grow hgrows, fun j _ => (h.knows j).grow hgrows⟩
  · refine once_update h.once fun j _ r hr => ?_
    rw [hrep] at hr
    cases hr

/-- A statement that puts nothing new into the indexes. -/
theorem Inv.shrink (h : Inv calls s) {t' : Tables} {ph : Phase} (hjobs : t'.jobs = s.tables.jobs)
    (hevents : t'.events = s.tables.events) (hseq : s.tables.jobSeq = t'.jobSeq)
    (hrows : ph.rows.Sublist (s.phases i).rows) (hids : ph.ids.Sublist (s.phases i).ids)
    (hknows : Knows (calls i) s.tables ph) (hrep : ph.reported = []) :
    Inv calls ⟨t', Function.update s.phases i ph⟩ :=
  h.move hjobs hevents hseq.le (h.keys.sublist (hrows.map _)) (h.ids.sublist hids)
    (fun id hid => hseq ▸ h.drawn i id (hids.subset hid)) hknows hrep

theorem Inv.commit (h : Inv calls s) {tx : Tx} {answer : Answer}
    (hph : s.phases i = .committing tx answer) :
    Inv calls
      ⟨{ s.tables with jobs := s.tables.jobs ++ tx.jobs, events := s.tables.events ++ tx.events },
        Function.update s.phases i (.returned answer tx.jobs)⟩ := by
  have hrows : (s.phases i).rows = tx.jobs := by rw [hph]; rfl
  have hids : (s.phases i).ids = tx.jobs.map JobRow.id := by rw [hph]; rfl
  obtain ⟨hreports, hevs⟩ : Knows (calls i) s.tables (.committing tx answer) := hph ▸ h.knows i
  -- A row that another call has reported is committed, so its key is taken.
  have hnew : ∀ j, j ≠ i → ∀ r ∈ tx.jobs, ∀ r' ∈ (s.phases j).reported, r.key ≠ r'.key := by
    intro j _ r hr r' hr' heq
    have hknows := h.knows j
    cases hj : s.phases j with
    | returned answer' rows =>
      rw [hj] at hknows hr'
      obtain ⟨c, hc, hkey, _⟩ := hknows.2 r' hr'
      refine h.keys.new i r.key (by rw [hrows]; exact List.mem_map_of_mem hr) ?_
      rw [heq, ← hkey]
      exact List.mem_map_of_mem hc
    | start | inserting | checking | noting | lookup | committing =>
      rw [hj] at hr'
      cases hr'
  refine ⟨?_, ?_, ?_, ?_, ?_, ?_, ?_⟩
  · have hkeys := h.keys.commit (i := i)
    rw [hrows, ← List.map_append] at hkeys
    exact (pending_update (fun p => p.rows.map JobRow.key) s.phases i _).symm ▸ hkeys
  · have hids' := h.ids.commit (i := i)
    rw [hids, ← List.map_append] at hids'
    exact (pending_update Phase.ids s.phases i _).symm ▸ hids'
  · intro r hr
    rcases List.mem_append.mp hr with hr | hr
    · exact h.seq r hr
    · exact h.drawn i r.id (by rw [hids]; exact List.mem_map_of_mem hr)
  · exact (Function.forall_update_iff s.phases fun _ p => ∀ id ∈ p.ids, id < s.tables.jobSeq).mpr
      ⟨fun id hid => absurd hid List.not_mem_nil, fun j _ => h.drawn j⟩
  · intro e he
    rcases List.mem_append.mp he with he | he
    · obtain ⟨r, hr, hre⟩ := h.fk e he
      exact ⟨r, List.mem_append_left _ hr, hre⟩
    · obtain ⟨r, hr, hre⟩ := hevs e he
      exact ⟨r, List.mem_append_right _ hr, hre⟩
  · have hgrows : Grows s.tables { s.tables with
        jobs := s.tables.jobs ++ tx.jobs, events := s.tables.events ++ tx.events } :=
      Grows.of_append rfl
    refine (Function.forall_update_iff s.phases fun j p => Knows (calls j) _ p).mpr
      ⟨⟨hreports.grow hgrows, ?_⟩, fun j _ => (h.knows j).grow hgrows⟩
    exact fun r hr => ⟨r, List.mem_append_right _ hr, rfl, rfl⟩
  · exact once_update h.once hnew

/-- The statements of the other writers keep the key and the id of every
row. -/
theorem Inv.other (h : Inv calls s) (now : Time) {op : Op} (hop : op.updates = true) :
    Inv calls { s with tables := exec s.tables now op } := by
  obtain ⟨d, hnone⟩ := exec_updates h.wf now hop
  have hjobs : (exec s.tables now op).jobs = s.tables.jobs.map d.f := by
    rw [d.jobs, hnone, List.append_nil]
  have hsame : ∀ r ∈ s.tables.jobs, (d.f r).id = r.id ∧ (d.f r).key = r.key :=
    fun r hr => ⟨(d.rows r hr).immutable.1, (d.rows r hr).immutable.2.1⟩
  have hkeys : (exec s.tables now op).jobs.map JobRow.key = s.tables.jobs.map JobRow.key := by
    rw [hjobs, List.map_map]
    exact List.map_congr_left fun r hr => (hsame r hr).2
  have hids : (exec s.tables now op).jobs.map JobRow.id = s.tables.jobs.map JobRow.id := by
    rw [hjobs, List.map_map]
    exact List.map_congr_left fun r hr => (hsame r hr).1
  have hwf : (exec s.tables now op).Wf := d.wf h.wf
  have hgrows : Grows s.tables (exec s.tables now op) := by
    rintro key id ⟨r, hr, rfl, rfl⟩
    exact ⟨d.f r, hjobs ▸ List.mem_map_of_mem hr, (hsame r hr).2, (hsame r hr).1⟩
  exact ⟨hkeys.symm ▸ h.keys, hids.symm ▸ h.ids, hwf.seq,
    fun i id hid => (h.drawn i id hid).trans_le d.seq, hwf.fk, fun i => (h.knows i).grow hgrows,
    h.once⟩

theorem Inv.begin (h : Inv calls s) (i : Fin n) (now : Time) :
    Inv calls (step calls s (.begin i now)) := by
  simp only [step]
  split
  · split
    · rename_i answer href
      exact h.shrink rfl rfl rfl (List.nil_sublist _) (List.nil_sublist _)
        ⟨Call.refused_reports href _, fun r hr => by cases hr⟩ rfl
    · refine h.shrink rfl rfl rfl (List.nil_sublist _) (List.nil_sublist _) ?_ rfl
      exact ⟨rfl, fun r hr => (by cases hr), fun m hm => hm, (Nat.zero_add _).le⟩
  · exact h

theorem Inv.draw (h : Inv calls s) (i : Fin n) : Inv calls (step calls s (.draw i)) := by
  simp only [step]
  split
  · rename_i tx m rest hph
    have hknows : Underway (calls i) tx (m :: rest) := by
      have := h.knows i
      rwa [hph] at this
    have hrows : (s.phases i).rows = tx.jobs := by rw [hph]; rfl
    have hids : (s.phases i).ids = tx.jobs.map JobRow.id := by rw [hph]; rfl
    refine h.move rfl rfl (Nat.le_succ _) ?_ ?_ ?_ hknows rfl
    · exact h.keys.sublist (by rw [hrows]; exact List.Sublist.refl _)
    · have hadd := h.ids.add (i := i) (x := s.tables.jobSeq) ?_ ?_
      · rw [hids] at hadd
        exact hadd
      · intro hmem
        obtain ⟨r, hr, heq⟩ := List.mem_map.mp hmem
        exact absurd (h.seq r hr) (by omega)
      · intro j hmem
        exact absurd (h.drawn j _ hmem) (lt_irrefl _)
    · intro id hid
      rcases List.mem_append.mp hid with hid | hid
      · exact Nat.lt_succ_of_lt (h.drawn i id (by rw [hids]; exact hid))
      · rw [List.mem_singleton.mp hid]
        exact Nat.lt_succ_self _
  · exact h

theorem Inv.failed (h : Inv calls s) (i : Fin n) : Inv calls (s.move i (.returned .failed [])) := by
  refine h.shrink rfl rfl rfl (List.nil_sublist _) (List.nil_sublist _)
    ⟨Reports.nothing rfl (by simp), ?_⟩ rfl
  exact fun r hr => by cases hr

/-- The tuple has a conflict: the transaction goes on without it. -/
theorem Inv.skipTuple (h : Inv calls s) {tx : Tx} {id : Nat} {m : NewJob} {rest : List NewJob}
    (hph : s.phases i = .checking tx id m rest)
    (hconflict : ∃ r ∈ s.tables.jobs ++ tx.jobs, r.key = NewJob.key m) :
    Inv calls (s.move i ((calls i).afterTuple tx rest)) := by
  have hknows : Underway (calls i) tx (m :: rest) := by
    have := h.knows i
    rwa [hph] at this
  have hids : (s.phases i).ids = tx.jobs.map JobRow.id ++ [id] := by rw [hph]; rfl
  obtain ⟨hr, hi, hrep⟩ := rows_afterTuple (calls i) tx rest
  refine h.shrink rfl rfl rfl ?_ ?_ (knows_afterTuple hknows.skip ?_) hrep
  · rw [hr, hph]
    exact List.Sublist.refl _
  · rw [hi, hids]
    exact List.sublist_append_left _ _
  · -- Without rows of its own, the conflict is with a committed row.
    intro hnil a hcall
    obtain ⟨r, hr, hkey⟩ := hconflict
    rw [hnil, List.append_nil] at hr
    have hm : m = a.newJob := by
      have := hknows.tuples m List.mem_cons_self
      rw [hcall] at this
      exact List.mem_singleton.mp this
    subst hm
    exact ⟨r.id, r, hr, hkey, rfl⟩

/-- The key of the tuple is free: the transaction has a new row. -/
theorem Inv.addTuple (h : Inv calls s) {tx : Tx} {id : Nat} {m : NewJob} {rest : List NewJob}
    (hph : s.phases i = .checking tx id m rest)
    (hflight : ¬∃ j, j ≠ i ∧ NewJob.key m ∈ (s.phases j).rows.map JobRow.key)
    (hfree : ∀ r ∈ s.tables.jobs ++ tx.jobs, r.key ≠ NewJob.key m) :
    Inv calls
      (s.move i ((calls i).afterTuple { tx with jobs := tx.jobs ++ [m.row tx.now id] } rest)) := by
  have hknows : Underway (calls i) tx (m :: rest) := by
    have := h.knows i
    rwa [hph] at this
  have hrows : (s.phases i).rows = tx.jobs := by rw [hph]; rfl
  have hids : (s.phases i).ids = tx.jobs.map JobRow.id ++ [id] := by rw [hph]; rfl
  obtain ⟨hr, hi, hrep⟩ := rows_afterTuple (calls i)
    { tx with jobs := tx.jobs ++ [m.row tx.now id] } rest
  refine h.move rfl rfl le_rfl ?_ ?_ ?_ (knows_afterTuple (hknows.add id) ?_) hrep
  · have hadd := h.keys.add (i := i) (x := NewJob.key m) ?_ ?_
    · rw [hr, List.map_append]
      rw [hrows] at hadd
      exact hadd
    · intro hmem
      obtain ⟨r, hr, heq⟩ := List.mem_map.mp hmem
      exact hfree r (List.mem_append_left _ hr) heq
    · intro j hmem
      by_cases hj : j = i
      · subst hj
        rw [hrows] at hmem
        obtain ⟨r, hr, heq⟩ := List.mem_map.mp hmem
        exact hfree r (List.mem_append_right _ hr) heq
      · exact hflight ⟨j, hj, hmem⟩
  · rw [hi, List.map_append]
    exact h.ids.sublist (by rw [hids]; exact List.Sublist.refl _)
  · rw [hi, List.map_append]
    exact fun id' hid' => h.drawn i id' (by rw [hids]; exact hid')
  · intro hnil
    exact absurd hnil (by simp)

theorem Inv.insert (h : Inv calls s) (i : Fin n) : Inv calls (step calls s (.insert i)) := by
  simp only [step]
  split
  · rename_i tx id m rest hph
    split
    · exact h.failed i
    split
    · exact h
    rename_i hflight
    split
    · rename_i hconflict
      obtain ⟨r, hr, hkey⟩ := List.any_eq_true.mp hconflict
      exact h.skipTuple hph ⟨r, hr, beq_iff_eq.mp hkey⟩
    · rename_i hfree
      refine h.addTuple hph (fun hex => hflight (decide_eq_true hex)) fun r hr heq => ?_
      exact hfree (List.any_eq_true.mpr ⟨r, hr, beq_iff_eq.mpr heq⟩)
  · exact h

theorem Inv.note (h : Inv calls s) (i : Fin n) : Inv calls (step calls s (.note i)) := by
  simp only [step]
  split
  · rename_i tx id a hph hcall
    obtain ⟨hev, a', r, hcall', hjobs, rfl, hkey⟩ :
        Knows (calls i) s.tables (.noting tx id) := hph ▸ h.knows i
    have hrows : (s.phases i).rows = tx.jobs := by rw [hph]; rfl
    have hids : (s.phases i).ids = tx.jobs.map JobRow.id := by rw [hph]; rfl
    obtain rfl : a = a' := Call.enqueue.inj (hcall.symm.trans hcall')
    refine h.shrink rfl rfl rfl (hrows ▸ .refl _) (hids ▸ .refl _) ⟨⟨?_, ?_, ?_⟩, ?_⟩ rfl
    · show tx.jobs.length = 1
      rw [hjobs]
      rfl
    · intro r' hr'
      change r' ∈ tx.jobs at hr'
      rw [hjobs, List.mem_singleton] at hr'
      subst hr'
      rw [hcall, hkey]
      exact List.mem_singleton_self _
    · intro a' id b hcall'' hans
      cases hans
      obtain rfl := Call.enqueue.inj (hcall.symm.trans hcall'')
      refine Or.inl ⟨r, ?_, hkey, rfl⟩
      show r ∈ tx.jobs
      rw [hjobs]
      exact List.mem_singleton_self _
    · intro e he
      change e ∈ tx.events ++ [_] at he
      rw [hev, List.nil_append, List.mem_singleton] at he
      subst he
      refine ⟨r, ?_, rfl⟩
      show r ∈ tx.jobs
      rw [hjobs]
      exact List.mem_singleton_self _
  · exact h

theorem Inv.lookup (h : Inv calls s) (i : Fin n) : Inv calls (step calls s (.lookup i)) := by
  simp only [step]
  split
  · rename_i tx a hph hcall
    obtain ⟨hev, hjobs, -⟩ : Knows (calls i) s.tables (.lookup tx) := hph ▸ h.knows i
    split
    · rename_i r hfind
      rw [hjobs, List.append_nil] at hfind
      have hrows : (s.phases i).rows = tx.jobs := by rw [hph]; rfl
      have hids : (s.phases i).ids = tx.jobs.map JobRow.id := by rw [hph]; rfl
      refine h.shrink rfl rfl rfl (hrows ▸ .refl _) (hids ▸ .refl _) ⟨⟨?_, ?_, ?_⟩, ?_⟩ rfl
      · rw [hjobs]
        rfl
      · rw [hjobs]
        exact fun r' hr' => by cases hr'
      · intro a' id b hcall' hans
        cases hans
        obtain rfl := Call.enqueue.inj (hcall.symm.trans hcall')
        have hkey := List.find?_some hfind
        exact Or.inr ⟨r, List.mem_of_find?_eq_some hfind, beq_iff_eq.mp hkey, rfl⟩
      · rw [hev]
        exact fun e he => by cases he
    · exact h.failed i
  · exact h

theorem Inv.step (h : Inv calls s) (a : Action n) : Inv calls (step calls s a) := by
  cases a with
  | begin i now => exact h.begin i now
  | draw i => exact h.draw i
  | insert i => exact h.insert i
  | note i => exact h.note i
  | lookup i => exact h.lookup i
  | commit i =>
    simp only [Sessions.step]
    split
    · rename_i hph
      exact h.commit hph
    · exact h
  | fail i =>
    simp only [Sessions.step]
    split
    · exact h
    · exact h.failed i
  | other now op =>
    simp only [Sessions.step]
    split
    · rename_i hop
      exact h.other now hop
    · exact h

theorem reach_inv {t : Tables} (hwf : t.Wf) (as : List (Action n)) : Inv calls (reach calls t as) :=
  foldl_invariant _ (fun _ a h => h.step a) (inv_initial hwf) as

/-! ## Whole runs -/

/-- A step of another call leaves the phase alone. -/
theorem step_phases_of_ne {a : Action n} (ha : a.call ≠ some i) :
    (step calls s a).phases i = s.phases i := by
  have hne : ∀ {j : Fin n} {ph : Phase}, some j ≠ some i →
      Function.update s.phases j ph i = s.phases i :=
    fun hj => Function.update_of_ne (fun heq => hj (congrArg some heq.symm)) _ _
  cases a with
  | begin j now =>
    simp only [step]
    split
    · split
      · exact hne ha
      · exact hne ha
    · rfl
  | draw j =>
    simp only [step]
    split
    · exact hne ha
    · rfl
  | insert j =>
    simp only [step]
    split
    · split
      · exact hne ha
      split
      · rfl
      · exact hne ha
    · rfl
  | note j =>
    simp only [step]
    split
    · exact hne ha
    · rfl
  | lookup j =>
    simp only [step]
    split
    · split
      · exact hne ha
      · exact hne ha
    · rfl
  | commit j =>
    simp only [step]
    split
    · exact hne ha
    · rfl
  | fail j =>
    simp only [step]
    split
    · rfl
    · exact hne ha
  | other now op =>
    simp only [step]
    split <;> rfl

/-- A call that has returned makes no step. -/
theorem step_of_returned {a : Action n} (ha : a.call = some i) {answer : Answer}
    {rows : List JobRow} (hph : s.phases i = .returned answer rows) : step calls s a = s := by
  cases a with
  | other => cases ha
  | begin j | draw j | insert j | note j | lookup j | commit j | fail j =>
    cases ha
    simp only [step, hph]

theorem returned_foldl {answer : Answer} {rows : List JobRow}
    (hph : s.phases i = .returned answer rows) (as : List (Action n)) :
    (as.foldl (step calls) s).phases i = .returned answer rows := by
  refine foldl_invariant (fun s : State n => s.phases i = .returned answer rows) ?_ hph as
  intro s a h
  by_cases ha : a.call = some i
  · rw [step_of_returned ha h, h]
  · rw [step_phases_of_ne ha, h]

/-- What a step of a call does to the committed tables: nothing, unless it is
the commit. -/
theorem step_tables {a : Action n} (ha : a.call = some i) :
    (step calls s a).tables.jobs = s.tables.jobs ∧
        (step calls s a).tables.events = s.tables.events ∨
      ∃ tx answer, s.phases i = .committing tx answer ∧
        (step calls s a).tables.jobs = s.tables.jobs ++ tx.jobs ∧
        (step calls s a).tables.events = s.tables.events ++ tx.events ∧
        (step calls s a).phases i = .returned answer tx.jobs := by
  cases a with
  | other => cases ha
  | commit j =>
    cases ha
    simp only [step]
    split
    · rename_i tx answer hph
      exact Or.inr ⟨tx, answer, hph, rfl, rfl, Function.update_self _ _ _⟩
    · exact Or.inl ⟨rfl, rfl⟩
  | begin j now =>
    simp only [step]
    split
    · split <;> exact Or.inl ⟨rfl, rfl⟩
    · exact Or.inl ⟨rfl, rfl⟩
  | insert j =>
    simp only [step]
    split
    · split
      · exact Or.inl ⟨rfl, rfl⟩
      · split <;> exact Or.inl ⟨rfl, rfl⟩
    · exact Or.inl ⟨rfl, rfl⟩
  | lookup j =>
    simp only [step]
    split
    · split <;> exact Or.inl ⟨rfl, rfl⟩
    · exact Or.inl ⟨rfl, rfl⟩
  | draw j | note j | fail j =>
    simp only [step]
    split <;> exact Or.inl ⟨rfl, rfl⟩

/-- What the call `i`, which has the phase `last` at the end, may add to the
tables in one of its steps: rows that it reports, and events of those rows. -/
def Adds (t t' : Tables) (last : Phase) : Prop :=
  ∃ rows events, t'.jobs = t.jobs ++ rows ∧ t'.events = t.events ++ events ∧
    (∀ r ∈ rows, r ∈ last.reported) ∧ ∀ e ∈ events, ∃ r ∈ rows, r.id = e.jobId

theorem Inv.adds (h : Inv calls s) {a : Action n} (ha : a.call = some i) (after : List (Action n)) :
    Adds s.tables (Sessions.step calls s a).tables
      ((after.foldl (Sessions.step calls) (Sessions.step calls s a)).phases i) := by
  rcases step_tables (s := s) ha with
    ⟨hjobs, hevents⟩ | ⟨tx, answer, hph, hjobs, hevents, hret⟩
  · refine ⟨[], [], hjobs.trans (List.append_nil _).symm, hevents.trans (List.append_nil _).symm,
      ?_, ?_⟩
    · exact fun r hr => by cases hr
    · exact fun e he => by cases he
  · have hknows : Knows (calls i) s.tables (.committing tx answer) := hph ▸ h.knows i
    refine ⟨tx.jobs, tx.events, hjobs, hevents, ?_, hknows.2⟩
    rw [returned_foldl hret after]
    exact fun r hr => hr

/-- A call that reports no row has added nothing. -/
theorem Adds.nothing {t t' : Tables} {last : Phase} (h : Adds t t' last)
    (hnone : last.reported = []) : t'.jobs = t.jobs ∧ t'.events = t.events := by
  obtain ⟨rows, events, hjobs, hevents, hrows, hevs⟩ := h
  obtain rfl : rows = [] := List.eq_nil_iff_forall_not_mem.mpr fun r hr => by
    have := hrows r hr
    rw [hnone] at this
    cases this
  obtain rfl : events = [] := List.eq_nil_iff_forall_not_mem.mpr fun e he => by
    obtain ⟨r, hr, -⟩ := hevs e he
    cases hr
  exact ⟨hjobs.trans (List.append_nil _), hevents.trans (List.append_nil _)⟩

end Invariant

/-- The enqueue calls agree.  In every state of every run there is one row for
each key, and at most one call reports it as inserted.  A call says how many
rows it has inserted, and `jobs.Enqueue` returns the id of the row with its
key.  A step of a call adds the rows that it reports with their events and
changes nothing else, so a call that inserts nothing or fails leaves both
tables as they were. -/
theorem enqueue_agreement {n : Nat} (calls : Fin n → Call) (t : Tables) (hwf : t.Wf)
    (as : List (Action n)) :
    ((reach calls t as).tables.jobs.map JobRow.key).Nodup ∧
    (∀ i j, ∀ r ∈ ((reach calls t as).phases i).reported,
      ∀ r' ∈ ((reach calls t as).phases j).reported, r.key = r'.key → i = j) ∧
    (∀ i answer rows, (reach calls t as).phases i = .returned answer rows →
      rows.length = answer.inserts ∧ ∀ r ∈ rows, r.key ∈ (calls i).tuples.map NewJob.key) ∧
    (∀ i a id b rows, calls i = .enqueue a →
      (reach calls t as).phases i = .returned (.row id b) rows →
        Stored (reach calls t as).tables (EnqueueArgs.key a) id) ∧
    ∀ i before a after, as = before ++ a :: after → a.call = some i →
      Adds (reach calls t before).tables (reach calls t (before ++ [a])).tables
        ((reach calls t as).phases i) ∧
      ∀ answer rows, (reach calls t as).phases i = .returned answer rows → answer.inserts = 0 →
        (reach calls t (before ++ [a])).tables.jobs = (reach calls t before).tables.jobs ∧
          (reach calls t (before ++ [a])).tables.events = (reach calls t before).tables.events := by
  have hinv : Inv calls (reach calls t as) := reach_inv hwf as
  refine ⟨hinv.keys.nodup, ?_, ?_, ?_, ?_⟩
  · intro i j r hr r' hr' heq
    by_contra hij
    exact hinv.once i j hij r hr r' hr' heq
  · intro i answer rows hret
    have hknows := hinv.knows i
    rw [hret] at hknows
    exact ⟨hknows.1.count, hknows.1.keys⟩
  · intro i a id b rows hcall hret
    have hknows := hinv.knows i
    rw [hret] at hknows
    rcases hknows.1.id a id b hcall rfl with ⟨r, hr, hkey, rfl⟩ | hstored
    · exact hkey ▸ hknows.2 r hr
    · exact hstored
  · rintro i before a after rfl ha
    have hbefore : Inv calls (reach calls t before) := reach_inv hwf before
    have hsplit : ∀ rest, reach calls t (before ++ rest) =
        rest.foldl (step calls) (reach calls t before) := fun rest => List.foldl_append
    have hadds : Adds (reach calls t before).tables (reach calls t (before ++ [a])).tables
        ((reach calls t (before ++ a :: after)).phases i) := by
      rw [hsplit, hsplit]
      exact hbefore.adds ha after
    refine ⟨hadds, ?_⟩
    intro answer rows hret hnone
    refine hadds.nothing ?_
    have hknows := hinv.knows i
    rw [hret] at hknows ⊢
    exact List.length_eq_zero_iff.mp (hknows.1.count.trans hnone)

/-- Two `jobs.Enqueue` calls with one key and a sniffer batch that has the key
twice. -/
def rivals : Fin 3 → Call :=
  ![.enqueue ⟨"t", "/a", "/b", "ftp", "localfs", "", 0⟩,
    .enqueue ⟨"t", "/other", "/b", "ftp", "localfs", "", 9⟩,
    .enqueueBatch [⟨"t", "/c", "/b", "ftp", "ftp"⟩, ⟨"t", "/d", "/b", "ftp", "ftp"⟩]]

/-- The second call draws an id and waits for the first, which fails after it
has written its event.  The second call then inserts, and the batch finds both
tuples taken. -/
def overtaken : List (Action 3) :=
  [.begin 0 10, .begin 1 11, .draw 0, .insert 0, .draw 1, .insert 1, .note 0, .fail 0, .insert 1,
    .begin 2 12, .draw 2, .insert 2, .note 1, .commit 1, .insert 2, .draw 2, .insert 2, .commit 2]

/-- The first call has failed and left nothing; the second returns the id of
the only row, and its event is the only event. -/
theorem enqueue_agreement_overtaken :
    Tables.empty.Wf ∧
    ((reach rivals .empty overtaken).tables.jobs.map fun r => (r.id, r.src)) = [(2, "/other")] ∧
    ((reach rivals .empty overtaken).tables.events.map fun e => e.jobId) = [2] ∧
    Stored (reach rivals .empty overtaken).tables ("t", "/b") 2 := by
  refine ⟨Tables.wf_empty, by decide, by decide, ?_⟩
  exact (enqueue_agreement rivals .empty Tables.wf_empty overtaken).2.2.2.1 1 _ 2 true
    [⟨2, "t", "/other", "/b", "ftp", "localfs", "{}", .pending, 0, 9, none, none, 11, 11, 11⟩]
    rfl (by rfl)

end ImgSync.Queue.Sessions
