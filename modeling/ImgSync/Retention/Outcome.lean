import ImgSync.Retention.Exact

/-!
# What a retention sweep has done when it returns

The call changes the committed tables in one step only, the `COMMIT` after the
short batch.  `Outcome` says so for every run, by the phase that the run reaches:
an error, or a lock that another sweep holds, leaves the tables to the other
clients (`Untouched`), unless it is a lost answer of the `COMMIT`.  In a run of
timely statements the `COMMIT` deletes exactly the outdated rows (`commit_eq`).
-/

namespace ImgSync.Retention

open ImgSync.Lib ImgSync.Queue

variable {cfg : RetentionConfig} {s : Server} {t : Tables}

/-! ## The rows are fixed while the loop runs -/

theorem returned_step {n : Nat} {err : Option String} (h : s.phase = .returned n err)
    (a : Action) : (step cfg s a).phase = .returned n err := by
  cases a with
  | lock | delete | commit =>
    simp only [step, h]
  | other now op =>
    simp only [step]
    split
    · exact h
    · exact h

/-- A step of the loop: the call returns, or clock and rows stay. -/
theorem sweeping_step (hwf : s.tables.Wf) {start : Time} (h : s.phase.sweeping = some start)
    {a : Action} (htimely : Timely cfg s a) :
    (∃ n err, (step cfg s a).phase = .returned n err) ∨
      (step cfg s a).phase.sweeping = some start ∧
        eligible cfg (step cfg s a).tables start = eligible cfg s.tables start := by
  cases a with
  | lock answer =>
    simp only [step]
    split
    · rename_i hph
      rw [hph] at h
      cases h
    · exact Or.inr ⟨h, rfl⟩
  | delete answer =>
    simp only [step]
    split
    · rename_i hph
      rw [hph] at h
      split
      · exact Or.inl ⟨_, _, rfl⟩
      · right
        split
        · exact ⟨h, rfl⟩
        · exact ⟨h, rfl⟩
    · exact Or.inr ⟨h, rfl⟩
  | commit fault =>
    simp only [step]
    split
    · left
      split
      · exact ⟨_, _, rfl⟩
      · exact ⟨_, _, rfl⟩
      · exact ⟨_, _, rfl⟩
    · exact Or.inr ⟨h, rfl⟩
  | other now op =>
    right
    simp only [step]
    split
    · rename_i hguard
      exact ⟨h, admitted_eligible hwf h hguard htimely⟩
    · exact ⟨h, rfl⟩

/-- The eligible rows are the same rows at every point of the loop. -/
theorem eligible_foldl (h : Inv cfg s) {start start' : Time} {as : List Action}
    (htimely : AllSteps (step cfg) (Timely cfg) s as) (hfrom : s.phase.sweeping = some start)
    (hto : (as.foldl (step cfg) s).phase.sweeping = some start') :
    start' = start ∧
      eligible cfg (as.foldl (step cfg) s).tables start = eligible cfg s.tables start := by
  induction as generalizing s with
  | nil =>
    rw [List.foldl_nil, hfrom] at hto
    exact ⟨(Option.some.inj hto).symm, rfl⟩
  | cons a as ih =>
    rcases sweeping_step h.wf hfrom htimely.1 with ⟨n, err, hret⟩ | ⟨hstay, hrows⟩
    · have hend : (as.foldl (step cfg) (step cfg s a)).phase = .returned n err :=
        foldl_invariant (fun s : Server => s.phase = .returned n err)
          (fun _ a h => returned_step h a) hret as
      rw [List.foldl_cons, hend] at hto
      cases hto
    · obtain ⟨hstart, heq⟩ := ih (step_inv h a) htimely.2 hstay hto
      exact ⟨hstart, heq.trans hrows⟩

/-- A step of the open transaction: the call returns, or its clock stays, and it is
a step of another client or leaves the tables. -/
theorem start_step {start : Time} (h : s.phase.start = some start) (a : Action) :
    (step cfg s a).phase.start = none ∨ (step cfg s a).phase.start = some start ∧
      ((step cfg s a).tables = s.tables ∨
        ∃ now op, a = .other now op ∧ (step cfg s a).tables = exec s.tables now op) := by
  cases a with
  | lock answer =>
    simp only [step]
    split
    · rename_i hph
      rw [hph] at h
      split
      · exact Or.inl rfl
      · split
        · exact Or.inr ⟨h, Or.inl rfl⟩
        · exact Or.inl rfl
    · exact Or.inr ⟨h, Or.inl rfl⟩
  | delete answer =>
    simp only [step]
    split
    · rename_i hph
      rw [hph] at h
      split
      · exact Or.inl rfl
      · right
        split
        · exact ⟨h, Or.inl rfl⟩
        · exact ⟨h, Or.inl rfl⟩
    · exact Or.inr ⟨h, Or.inl rfl⟩
  | commit fault =>
    simp only [step]
    split
    · left
      split
      · rfl
      · rfl
      · rfl
    · exact Or.inr ⟨h, Or.inl rfl⟩
  | other now op =>
    right
    simp only [step]
    split
    · exact ⟨h, Or.inr ⟨now, op, rfl, rfl⟩⟩
    · exact ⟨h, Or.inl rfl⟩

/-- A job that is not outdated at some point of the transaction is not outdated at
any later one. -/
theorem not_outdated_foldl (h : Inv cfg s) {start start' : Time} {as : List Action} {id : Nat}
    (htimely : AllSteps (step cfg) (Timely cfg) s as) (hfrom : s.phase.start = some start)
    (hto : (as.foldl (step cfg) s).phase.start = some start')
    (hyoung : ∀ r ∈ s.tables.jobs, r.id = id → outdated start (seconds cfg) r = false) :
    ∀ r ∈ (as.foldl (step cfg) s).tables.jobs, r.id = id →
      outdated start (seconds cfg) r = false := by
  induction as generalizing s with
  | nil => exact hyoung
  | cons a as ih =>
    rcases start_step hfrom a with hret | ⟨hstay, htables⟩
    · -- The call has returned, and a returned call stays so.
      obtain ⟨n, err, hret⟩ : ∃ n err, (step cfg s a).phase = .returned n err := by
        cases hph : (step cfg s a).phase with
        | returned n err => exact ⟨n, err, rfl⟩
        | _ =>
          rw [hph] at hret
          cases hret
      have hend : (as.foldl (step cfg) (step cfg s a)).phase = .returned n err :=
        foldl_invariant (fun s : Server => s.phase = .returned n err)
          (fun _ a h => returned_step h a) hret as
      rw [List.foldl_cons, hend] at hto
      cases hto
    · refine ih (step_inv h a) htimely.2 hstay hto ?_
      rcases htables with heq | ⟨now, op, rfl, heq⟩
      · rw [heq]
        exact hyoung
      · rw [heq]
        exact fun r hr hid => not_outdated_exec h.wf (htimely.1 start hfrom) hyoung hr hid

/-! ## The history of a call -/

/-- The call itself changes nothing in the tables. -/
def Untouched (cfg : RetentionConfig) (s : Server) (as : List Action) : Prop :=
  AllSteps (step cfg) (fun s a => (∀ now op, a ≠ .other now op) → (step cfg s a).tables = s.tables)
    s as

/-- Whether the database answers with an error, and the statement has no effect. -/
def Action.fails : Action → Bool
  | .lock (.error _) | .delete (.error _) | .commit (some (.refused _)) => true
  | _ => false

/-- A `COMMIT` that takes effect. -/
def Action.commits : Action → Bool
  | .commit none | .commit (some (.lost _)) => true
  | _ => false

theorem commits_of_fails {a : Action} (h : a.fails = true) : a.commits = false := by
  rcases a with _ | _ | (_ | ⟨_ | _⟩) | _ <;> first | rfl | cases h

/-- The one step that changes the tables for the call. -/
theorem tables_step {a : Action} (hown : ∀ now op, a ≠ .other now op) :
    (step cfg s a).tables = s.tables ∨
      a.commits = true ∧ ∃ start gone deleted, s.phase = .drained start gone deleted ∧
        (step cfg s a).tables = without s.tables gone := by
  cases a with
  | lock answer =>
    left
    simp only [step]
    repeat' split
    all_goals rfl
  | delete answer =>
    left
    simp only [step]
    repeat' split
    all_goals rfl
  | commit fault =>
    simp only [step]
    split
    · rename_i start gone deleted hph
      rcases fault with _ | ⟨e | e⟩
      · exact Or.inr ⟨rfl, start, gone, deleted, hph, rfl⟩
      · exact Or.inl rfl
      · exact Or.inr ⟨rfl, start, gone, deleted, hph, rfl⟩
    · exact Or.inl rfl
  | other now op => exact absurd rfl (hown now op)

/-- The step in which the call returns. -/
theorem returning_step {a : Action} {n : Nat} {err : Option String}
    (hbefore : ∀ n err, s.phase ≠ .returned n err) (h : (step cfg s a).phase = .returned n err) :
    a.fails = true ∧ n = 0 ∧ err ≠ none ∨
      (a = .lock (.ok false) ∧ n = 0 ∧ err = none ∧ ∃ start, s.phase = .begun start) ∨
      (a = .commit none ∧ err = none ∧ ∃ start gone, s.phase = .drained start gone n) ∨
      n = 0 ∧ err ≠ none ∧ ∃ e start gone deleted, a = .commit (some (.lost e)) ∧
        s.phase = .drained start gone deleted := by
  cases a with
  | lock answer =>
    simp only [step] at h
    split at h
    · rename_i start hph
      cases answer with
      | error e =>
        cases h
        exact Or.inl ⟨rfl, rfl, Option.some_ne_none _⟩
      | ok locked =>
        cases locked with
        | true => cases h
        | false =>
          cases h
          exact Or.inr (Or.inl ⟨rfl, rfl, rfl, start, hph⟩)
    · exact absurd h (hbefore n err)
  | delete answer =>
    simp only [step] at h
    split at h
    · cases answer with
      | error e =>
        cases h
        exact Or.inl ⟨rfl, rfl, Option.some_ne_none _⟩
      | ok scan =>
        simp only at h
        split at h
        · cases h
        · cases h
    · exact absurd h (hbefore n err)
  | commit fault =>
    simp only [step] at h
    split at h
    · rename_i start gone deleted hph
      rcases fault with _ | ⟨e | e⟩
      · cases h
        exact Or.inr (Or.inr (Or.inl ⟨rfl, rfl, start, gone, hph⟩))
      · cases h
        exact Or.inl ⟨rfl, rfl, Option.some_ne_none _⟩
      · cases h
        exact Or.inr (Or.inr (Or.inr ⟨rfl, Option.some_ne_none _, e, start, gone, deleted, rfl,
          hph⟩))
    · exact absurd h (hbefore n err)
  | other now op =>
    refine absurd ?_ (hbefore n err)
    simp only [step] at h
    split at h
    · exact h
    · exact h

theorem Untouched.snoc {as : List Action} {a : Action} (h : Untouched cfg s as)
    (ha : (∀ now op, a ≠ .other now op) →
      (step cfg (as.foldl (step cfg) s) a).tables = (as.foldl (step cfg) s).tables) :
    Untouched cfg s (as ++ [a]) :=
  allSteps_append.mpr ⟨h, ha, trivial⟩

/-- A step that does not commit is one more step of the others. -/
theorem Untouched.step {as : List Action} {a : Action} (h : Untouched cfg s as)
    (ha : a.commits = true →
      ∀ start gone n, (as.foldl (step cfg) s).phase ≠ .drained start gone n) :
    Untouched cfg s (as ++ [a]) := by
  refine h.snoc fun hown => ?_
  rcases tables_step hown with heq | ⟨hcommit, start, gone, n, hph, -⟩
  · exact heq
  · exact absurd hph (ha hcommit start gone n)

section History

variable {begin : Except String Time} {as : List Action}

/-- The call has committed after a short batch, in the step `a` and with `n` rows in
its count. -/
def Swept (cfg : RetentionConfig) (t : Tables) (begin : Except String Time) (as : List Action)
    (a : Action) (n : Nat) : Prop :=
  ∃ before after start gone, as = before ++ a :: after ∧
    (reach cfg t begin before).phase = .drained start gone n ∧
    Untouched cfg (beginTx cfg t begin) before ∧
    Untouched cfg (reach cfg t begin (before ++ [a])) after

/-- Another sweep held the lock. -/
def Refused (cfg : RetentionConfig) (t : Tables) (begin : Except String Time)
    (as : List Action) : Prop :=
  ∃ before after start, as = before ++ .lock (.ok false) :: after ∧
    (reach cfg t begin before).phase = .begun start

/-- What a run has done, by the phase that it reaches. -/
def Outcome (cfg : RetentionConfig) (t : Tables) (begin : Except String Time)
    (as : List Action) : Phase → Prop
  | .returned n none =>
    Swept cfg t begin as (.commit none) n ∨
      Untouched cfg (beginTx cfg t begin) as ∧ n = 0 ∧
        (cfg.window ≤ 0 ∨ Refused cfg t begin as)
  | .returned n (some _) =>
    n = 0 ∧ ((∃ e m, Swept cfg t begin as (.commit (some (.lost e))) m) ∨
      Untouched cfg (beginTx cfg t begin) as ∧
        ((∃ e, begin = .error e) ∨ ∃ a ∈ as, a.fails = true))
  | _ => Untouched cfg (beginTx cfg t begin) as

theorem outcome_iff {ph : Phase} (h : ∀ n err, ph ≠ .returned n err) :
    Outcome cfg t begin as ph ↔ Untouched cfg (beginTx cfg t begin) as := by
  cases ph with
  | begun | deleting | drained => exact Iff.rfl
  | returned n err => exact absurd rfl (h n err)

theorem outcome_begin : Outcome cfg t begin [] (beginTx cfg t begin).phase := by
  unfold beginTx
  split
  · rename_i hwindow
    exact Or.inr ⟨trivial, rfl, Or.inl hwindow⟩
  · cases begin with
    | error e => exact ⟨rfl, Or.inr ⟨trivial, Or.inl ⟨e, rfl⟩⟩⟩
    | ok start => exact (outcome_iff (by simp)).mpr trivial

theorem Swept.snoc {a : Action} {n m : Nat} {err : Option String} (h : Swept cfg t begin as a n)
    (hret : (reach cfg t begin as).phase = .returned m err) (b : Action) :
    Swept cfg t begin (as ++ [b]) a n := by
  obtain ⟨before, after, start, gone, rfl, hph, hpre, hpost⟩ := h
  refine ⟨before, after ++ [b], start, gone, by simp, hph, hpre, hpost.step fun _ => ?_⟩
  have hsame : after.foldl (step cfg) (reach cfg t begin (before ++ [a])) =
      reach cfg t begin (before ++ a :: after) := by
    simp [reach]
  rw [hsame, hret]
  simp

theorem Refused.snoc (h : Refused cfg t begin as) (a : Action) :
    Refused cfg t begin (as ++ [a]) := by
  obtain ⟨before, after, start, rfl, hph⟩ := h
  exact ⟨before, after ++ [a], start, by simp, hph⟩

/-- After the return the outcome stays. -/
theorem outcome_returned {n : Nat} {err : Option String}
    (hret : (reach cfg t begin as).phase = .returned n err)
    (h : Outcome cfg t begin as (.returned n err)) (a : Action) :
    Outcome cfg t begin (as ++ [a]) (.returned n err) := by
  have hquiet : Untouched cfg (beginTx cfg t begin) as →
      Untouched cfg (beginTx cfg t begin) (as ++ [a]) := by
    refine fun hun => hun.step fun _ => ?_
    show ∀ start gone n, (reach cfg t begin as).phase ≠ _
    rw [hret]
    simp
  cases err with
  | none =>
    rcases h with hswept | ⟨hun, hn, hwhy⟩
    · exact Or.inl (hswept.snoc hret a)
    · exact Or.inr ⟨hquiet hun, hn, hwhy.imp_right fun hrefused => hrefused.snoc a⟩
  | some e =>
    obtain ⟨hn, ⟨e', m, hswept⟩ | ⟨hun, hwhy⟩⟩ := h
    · exact ⟨hn, Or.inl ⟨e', m, hswept.snoc hret a⟩⟩
    · exact ⟨hn, Or.inr ⟨hquiet hun, hwhy.imp_right fun ⟨b, hb, hfails⟩ =>
        ⟨b, List.mem_append_left _ hb, hfails⟩⟩⟩

/-- The step in which the call returns gives the outcome. -/
theorem outcome_returning {a : Action} {n : Nat} {err : Option String}
    (hbefore : ∀ n err, (reach cfg t begin as).phase ≠ .returned n err)
    (hun : Untouched cfg (beginTx cfg t begin) as)
    (h : (step cfg (reach cfg t begin as) a).phase = .returned n err) :
    Outcome cfg t begin (as ++ [a]) (.returned n err) := by
  have hlast : a ∈ as ++ [a] := List.mem_append_right _ List.mem_cons_self
  rcases returning_step hbefore h with ⟨hfails, hn, herr⟩ |
    ⟨rfl, hn, rfl, start, hph⟩ | ⟨rfl, rfl, start, gone, hph⟩ |
    ⟨hn, herr, e', start, gone, deleted, rfl, hph⟩
  · cases err with
    | none => exact absurd rfl herr
    | some e =>
      refine ⟨hn, Or.inr ⟨hun.step fun hcommit => ?_, Or.inr ⟨a, hlast, hfails⟩⟩⟩
      rw [commits_of_fails hfails] at hcommit
      cases hcommit
  · exact Or.inr ⟨hun.step (by simp [Action.commits]), hn, Or.inr ⟨as, [], start, rfl, hph⟩⟩
  · exact Or.inl ⟨as, [], start, gone, rfl, hph, hun, trivial⟩
  · cases err with
    | none => exact absurd rfl herr
    | some e =>
      exact ⟨hn, Or.inl ⟨e', deleted, as, [], start, gone, rfl, hph, hun, trivial⟩⟩

theorem reach_outcome (cfg : RetentionConfig) (t : Tables) (begin : Except String Time)
    (as : List Action) : Outcome cfg t begin as (reach cfg t begin as).phase := by
  induction as using List.reverseRecOn with
  | nil => exact outcome_begin
  | append_singleton as a ih =>
    have hreach : reach cfg t begin (as ++ [a]) = step cfg (reach cfg t begin as) a := by
      simp [reach]
    rw [hreach]
    by_cases hret : ∃ n err, (reach cfg t begin as).phase = .returned n err
    · obtain ⟨n, err, hret⟩ := hret
      rw [hret] at ih
      rw [returned_step hret a]
      exact outcome_returned hret ih a
    · have hbefore : ∀ n err, (reach cfg t begin as).phase ≠ .returned n err :=
        fun n err heq => hret ⟨n, err, heq⟩
      have hun := (outcome_iff hbefore).mp ih
      by_cases hnow : ∃ n err, (step cfg (reach cfg t begin as) a).phase = .returned n err
      · obtain ⟨n, err, hnow⟩ := hnow
        rw [hnow]
        exact outcome_returning hbefore hun hnow
      · refine (outcome_iff fun n err heq => hnow ⟨n, err, heq⟩).mpr (hun.step ?_)
        -- A `COMMIT` after the short batch would have returned.
        intro hcommit start gone n hph
        have hdrained : (reach cfg t begin as).phase = .drained start gone n := hph
        rcases a with _ | _ | (_ | ⟨_ | e⟩) | _ <;> try cases hcommit
        · exact hnow ⟨n, none, by simp only [step, hdrained]⟩
        · exact hnow ⟨0, some ("retention: commit: " ++ e), by
            simp only [step, hdrained, Server.fail]⟩

/-- A window of `k` seconds. -/
theorem seconds_eq {k : Int} (hwindow : cfg.window = k * 1000000000) : seconds cfg = k := by
  rw [seconds, Duration.seconds, hwindow]
  exact Int.mul_tdiv_cancel k (by decide)

theorem reach_append (bs : List Action) :
    reach cfg t begin (as ++ bs) = bs.foldl (step cfg) (reach cfg t begin as) := by
  rw [reach, List.foldl_append]
  rfl

/-- After the short batch the `COMMIT` deletes the eligible rows, and the count is
theirs. -/
theorem commit_eq (h : Inv cfg s) (hfin : Finished cfg s) {start : Time} {gone : List Nat}
    {n : Nat} (hph : s.phase = .drained start gone n) {a : Action} (ha : a.commits = true) :
    (step cfg s a).tables = s.tables.deleteJobs (outdated start (seconds cfg)) ∧
      n = (eligible cfg s.tables start).length := by
  have hloop : Loop cfg s.tables start gone n := by
    have hphase := h.phase
    rwa [hph] at hphase
  have hall : Complete cfg s.tables start gone n := ⟨hloop, hfin start gone n hph⟩
  refine ⟨?_, hall.deleted_eq h.wf⟩
  rw [← hall.without_eq h.wf]
  rcases a with _ | _ | (_ | ⟨_ | _⟩) | _ <;> try cases ha
  · simp only [step, hph]
  · simp only [step, hph, Server.fail]

theorem reach_finished (hwf : t.Wf)
    (htimely : AllSteps (step cfg) (Timely cfg) (beginTx cfg t begin) as) :
    Finished cfg (reach cfg t begin as) :=
  foldl_finished (reach_inv hwf begin []) (finished_begin t begin) htimely

/-- The statements of the call itself are timely. -/
theorem timely_own (h : ∀ a ∈ as, ∀ now op, a ≠ .other now op) :
    AllSteps (step cfg) (Timely cfg) s as := by
  refine allSteps_iff.mpr fun before a after heq => ?_
  have ha := h a (heq ▸ List.mem_append_right _ List.mem_cons_self)
  cases a with
  | other now op => exact absurd rfl (ha now op)
  | lock | delete | commit => trivial

/-- More `DELETE`s than the eligible rows can fill end the loop. -/
theorem loop_ends (hwf : t.Wf) {start : Time} {gone : List Nat} {n : Nat} {bs : List Action}
    (htimely : AllSteps (step cfg) (Timely cfg) (reach cfg t begin as) bs)
    (hph : (reach cfg t begin as).phase = .deleting start gone n)
    (hmany : (eligible cfg (reach cfg t begin as).tables start).length <
      bs.countP Action.isDelete * cfg.batch) :
    (reach cfg t begin (as ++ bs)).phase.pastLoop = true := by
  have hinv : Inv cfg (reach cfg t begin (as ++ bs)) := reach_inv hwf begin (as ++ bs)
  rw [reach_append] at hinv ⊢
  rcases deleting_foldl cfg hph bs with hpast | ⟨gone', hstill⟩
  · exact hpast
  · -- Every `DELETE` of `bs` was a full batch of rows that were there from the start.
    have hphase := hinv.phase
    rw [hstill] at hphase
    have hle := Loop.deleted_le hphase
    have hfrom : (reach cfg t begin as).phase.sweeping = some start := by
      rw [hph]
      rfl
    have hfixed := (eligible_foldl (reach_inv hwf begin as) htimely hfrom (by rw [hstill]; rfl)).2
    rw [hfixed] at hle
    omega

/-- `DELETE`s with nothing in between reach the short batch. -/
theorem deletes_drain (hwf : t.Wf) (scan : Scan) {start : Time} {gone : List Nat} {n m : Nat}
    (h : Loop cfg t start gone n) (hm : (eligible cfg t start).length < m + n) :
    ∃ gone' n', (List.replicate m (.delete (.ok scan))).foldl (step cfg)
      ⟨t, .deleting start gone n⟩ = ⟨t, .drained start gone' n'⟩ := by
  induction m generalizing gone n with
  | zero =>
    have hle := h.deleted_le
    omega
  | succ m ih =>
    have hbatch : Loop cfg t start (gone ++ batchIds cfg t start gone scan)
        (n + (batchIds cfg t start gone scan).length) := h.batch hwf
    rw [List.replicate_succ, List.foldl_cons]
    by_cases hshort : (batchIds cfg t start gone scan).length < cfg.batch
    · refine ⟨gone ++ batchIds cfg t start gone scan,
        n + (batchIds cfg t start gone scan).length, ?_⟩
      -- The loop is left, and the other statements are not issued.
      refine foldl_mem (fun s : Server => s = ⟨t, .drained start _ _⟩) ?_ ?_
        fun a ha => List.eq_of_mem_replicate ha
      · rintro _ _ rfl rfl
        rfl
      · simp only [step, hshort, if_true]
    · simp only [step, hshort, if_false]
      refine ih hbatch ?_
      have hpos := batch_pos cfg
      omega

theorem reach_drained (hwf : t.Wf) (scan : Scan) {start : Time} (hwindow : 0 < cfg.window) {m : Nat}
    (hm : (eligible cfg t start).length < m) :
    ∃ gone n, reach cfg t (.ok start) (.lock (.ok true) :: List.replicate m (.delete (.ok scan))) =
        ⟨t, .drained start gone n⟩ ∧ Finished cfg ⟨t, .drained start gone n⟩ := by
  have hloop : Loop cfg t start [] 0 := ⟨List.nodup_nil, by simp, rfl⟩
  obtain ⟨gone, n, hdrain⟩ := deletes_drain hwf scan hloop hm
  have hbegin : beginTx cfg t (.ok start) = ⟨t, .begun start⟩ := if_neg (not_le.mpr hwindow)
  have hlock : step cfg ⟨t, .begun start⟩ (.lock (.ok true)) = ⟨t, .deleting start [] 0⟩ := rfl
  have hat : reach cfg t (.ok start)
      (.lock (.ok true) :: List.replicate m (.delete (.ok scan))) = ⟨t, .drained start gone n⟩ := by
    rw [reach, List.foldl_cons, hbegin, hlock, hdrain]
  refine ⟨gone, n, hat, hat ▸ reach_finished hwf (timely_own fun a ha now op => ?_)⟩
  rcases List.mem_cons.mp ha with rfl | ha
  · exact Action.noConfusion
  · rw [List.eq_of_mem_replicate ha]
    exact Action.noConfusion

/-- A call with nothing in between is the transaction of the operation list. -/
theorem reach_alone (hwf : t.Wf) (scan : Scan) {start : Time} (hwindow : 0 < cfg.window) {m : Nat}
    (hm : (eligible cfg t start).length < m) :
    reach cfg t (.ok start)
        (.lock (.ok true) :: List.replicate m (.delete (.ok scan)) ++ [.commit none]) =
      ⟨(retentionSweep scan.order t start cfg true).1,
        .returned (retentionSweep scan.order t start cfg true).2 none⟩ := by
  obtain ⟨gone, n, hat, hfin⟩ := reach_drained hwf scan hwindow hm
  have hinv : Inv cfg ⟨t, .drained start gone n⟩ := hat ▸ reach_inv hwf (.ok start) _
  obtain ⟨htables, hcount⟩ := commit_eq hinv hfin rfl (a := .commit none) rfl
  rw [reach_append, hat, retentionSweep_eq hwf scan hwindow, ← hcount, ← htables]
  rfl

/-- What the `COMMIT` of the run has done, in the step `a`: it has deleted exactly
the outdated rows, with their events, and `n` is their number. -/
def DeletedExactly (cfg : RetentionConfig) (k : Int) (t : Tables) (begin : Except String Time)
    (as : List Action) (a : Action) (n : Nat) : Prop :=
  ∃ before after start, as = before ++ a :: after ∧
    (reach cfg t begin before).phase.sweeping = some start ∧
    Untouched cfg (beginTx cfg t begin) before ∧
    Untouched cfg (reach cfg t begin (before ++ [a])) after ∧
    (reach cfg t begin (before ++ [a])).tables =
      (reach cfg t begin before).tables.deleteJobs (outdated start k) ∧
    n = ((reach cfg t begin before).tables.jobs.filter (outdated start k)).length

theorem Swept.deletedExactly {k : Int} (hwf : t.Wf) (hseconds : seconds cfg = k)
    (htimely : AllSteps (step cfg) (Timely cfg) (beginTx cfg t begin) as) {a : Action} {n : Nat}
    (h : Swept cfg t begin as a n) (ha : a.commits = true) :
    DeletedExactly cfg k t begin as a n := by
  obtain ⟨before, after, start, gone, rfl, hdrained, hpre, hpost⟩ := h
  obtain ⟨htables, hcount⟩ := commit_eq (reach_inv hwf begin before)
    (reach_finished hwf (allSteps_append.mp htimely).1) hdrained ha
  rw [hseconds] at htables
  refine ⟨before, after, start, rfl, by rw [hdrained]; rfl, hpre, hpost, ?_, ?_⟩
  · rw [reach_append]
    exact htables
  · rw [hcount, eligible, hseconds]

/-- One call of `Sweep` among the other clients, at any point of any run of timely
statements.  Its loop ends after at most as many `DELETE`s as the outdated rows fill;
the outdated rows are the same rows from the lock to the `COMMIT`, and a job that is
not outdated at some point of the transaction, because it is not terminal or
younger, never becomes so; a success has deleted exactly the outdated rows, with
their events, and returns their number; and an error, or a lock that is held
elsewhere, deletes nothing, unless the answer of the `COMMIT` was lost. -/
theorem retention_exact (cfg : RetentionConfig) {k : Int} (hk : 0 < k)
    (hwindow : cfg.window = k * 1000000000) {t : Tables} (hwf : t.Wf)
    (begin : Except String Time) (as : List Action)
    (htimely : AllSteps (step cfg) (Timely cfg) (beginTx cfg t begin) as) :
    (∀ start gone n bs, AllSteps (step cfg) (Timely cfg) (reach cfg t begin as) bs →
      (reach cfg t begin as).phase = .deleting start gone n →
      ((reach cfg t begin as).tables.jobs.filter (outdated start k)).length <
        bs.countP Action.isDelete * cfg.batch →
      (reach cfg t begin (as ++ bs)).phase.pastLoop = true) ∧
    (∀ start start' bs, AllSteps (step cfg) (Timely cfg) (reach cfg t begin as) bs →
      (reach cfg t begin as).phase.sweeping = some start →
      (reach cfg t begin (as ++ bs)).phase.sweeping = some start' →
      start' = start ∧ (reach cfg t begin (as ++ bs)).tables.jobs.filter (outdated start k) =
        (reach cfg t begin as).tables.jobs.filter (outdated start k)) ∧
    (∀ start start' bs id, AllSteps (step cfg) (Timely cfg) (reach cfg t begin as) bs →
      (reach cfg t begin as).phase.start = some start →
      (reach cfg t begin (as ++ bs)).phase.start = some start' →
      (∀ r ∈ (reach cfg t begin as).tables.jobs, r.id = id → outdated start k r = false) →
      ∀ r ∈ (reach cfg t begin (as ++ bs)).tables.jobs, r.id = id → outdated start k r = false) ∧
    (∀ n, (reach cfg t begin as).phase = .returned n none →
      (n = 0 ∧ Refused cfg t begin as ∧ Untouched cfg (beginTx cfg t begin) as) ∨
      DeletedExactly cfg k t begin as (.commit none) n) ∧
    ∀ n e, (reach cfg t begin as).phase = .returned n (some e) →
      n = 0 ∧ (Untouched cfg (beginTx cfg t begin) as ∨
        ∃ e' m, DeletedExactly cfg k t begin as (.commit (some (.lost e'))) m) := by
  have hseconds : seconds cfg = k := seconds_eq hwindow
  have hinv : Inv cfg (reach cfg t begin as) := reach_inv hwf begin as
  have houtcome := reach_outcome cfg t begin as
  refine ⟨?_, ?_, ?_, ?_, ?_⟩
  · intro start gone n bs hbs hph hmany
    rw [← hseconds] at hmany
    exact loop_ends hwf hbs hph hmany
  · intro start start' bs hbs hfrom hto
    rw [reach_append] at hto ⊢
    rw [← hseconds]
    exact eligible_foldl hinv hbs hfrom hto
  · intro start start' bs id hbs hfrom hto hyoung
    rw [reach_append] at hto ⊢
    rw [← hseconds] at hyoung ⊢
    exact not_outdated_foldl hinv hbs hfrom hto hyoung
  · intro n hph
    rw [hph] at houtcome
    rcases houtcome with hswept | ⟨hun, hn, hdisabled | hrefused⟩
    · exact Or.inr (hswept.deletedExactly hwf hseconds htimely rfl)
    · rw [hwindow] at hdisabled
      have hpos : 0 < k * 1000000000 := by omega
      exact absurd hdisabled (not_le.mpr hpos)
    · exact Or.inl ⟨hn, hrefused, hun⟩
  · intro n e hph
    rw [hph] at houtcome
    obtain ⟨hn, ⟨e', m, hswept⟩ | ⟨hun, -⟩⟩ := houtcome
    · exact ⟨hn, Or.inr ⟨e', m, hswept.deletedExactly hwf hseconds htimely rfl⟩⟩
    · exact ⟨hn, Or.inl hun⟩

/-! ## Two runs -/

/-- Two jobs, of which the first one has ended. -/
def agedSpecs : JobSpec × JobSpec :=
  (⟨"images-1", "a.png", "b.png", "localfs", "localfs"⟩,
    ⟨"images-2", "c.png", "d.png", "localfs", "localfs"⟩)

def agedScan : Scan := ⟨id, fun _ => .refl _⟩

/-- The first job ends at time zero. -/
def endFirst : List (Time × Op) :=
  [(0, .snifferEnqueue agedSpecs.1), (0, .leaseJob "pod-w0" []),
    (0, .outcome "pod-w0" (.success (agedSpecs.1.newJob.row 0 1) (.fields [])))]

/-- A sweep three seconds later, with a window of one second and batches of one row.
The first batch is full and the second one is empty; a job is enqueued in between. -/
def agedSweep : List Action :=
  [.lock (.ok true), .delete (.ok agedScan), .other 3000000 (.snifferEnqueue agedSpecs.2),
    .delete (.ok agedScan), .commit none]

def sweptAged : List Action → Server := reach ⟨1000000000, 1⟩ (execAll endFirst) (.ok 3000000)

theorem retention_exact_aged :
    (sweptAged agedSweep).phase = .returned 1 none ∧
    DeletedExactly ⟨1000000000, 1⟩ 1 (execAll endFirst) (.ok 3000000) agedSweep (.commit none)
      1 := by
  have hend : (sweptAged agedSweep).phase = .returned 1 none := by decide +kernel
  refine ⟨hend, ?_⟩
  rcases (retention_exact ⟨1000000000, 1⟩ (by decide : (0 : Int) < 1) (by decide)
    (execAll_audited endFirst).wf (.ok 3000000) agedSweep (by decide +kernel)).2.2.2.1 1 hend with
    ⟨hzero, -⟩ | hdeleted
  · cases hzero
  · exact hdeleted

/-- The second job is leased as well.  Its outcome was written at time zero, and
commits after the first batch. -/
def lateSweep : List Action :=
  [.lock (.ok true), .delete (.ok agedScan),
    .other 0 (.outcome "pod-w0" (.success (agedSpecs.2.newJob.row 0 2) (.fields []))),
    .delete (.ok agedScan), .delete (.ok agedScan), .commit none]

def sweptLate : List Action → Server :=
  reach ⟨1000000000, 1⟩
    (execAll (endFirst ++ [(0, .snifferEnqueue agedSpecs.2), (0, .leaseJob "pod-w0" [])]))
    (.ok 3000000)

/-- The job was leased when the sweep had already deleted its first batch, and the
sweep deletes it. -/
theorem late_outcome_deleted :
    ((sweptLate (lateSweep.take 2)).tables.jobs.filter fun r => r.id == 2).map JobRow.status =
      [.leased] ∧
    (sweptLate (lateSweep.take 2)).phase.sweeping = some 3000000 ∧
    (sweptLate lateSweep).phase = .returned 2 none ∧ (sweptLate lateSweep).tables.jobs = [] := by
  decide +kernel

end History

end ImgSync.Retention
