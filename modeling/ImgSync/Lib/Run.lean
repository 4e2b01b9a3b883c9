import Mathlib.Tactic

/-!
# Runs of a step function

A system is given by a step function `step : σ → α → σ`.  A run is a list of
actions, and `as.foldl step s` is the state that the run reaches from `s`.  An
action that is not enabled in a state leaves the state alone, so every list
of actions is a run.

The file states the rules that the safety proofs over runs use:

* `foldl_invariant`: a predicate that one step keeps holds in every state
  that a run reaches;
* `foldl_all`: the same rule for runs whose steps all meet a side condition,
  which `allSteps_iff` reads as a condition on every step, and `foldl_mem` for
  a condition on the actions alone;
* `foldl_rel`: a reflexive and transitive relation that contains every step
  relates the two ends of a run;
* `foldl_trace`: a reading of the state makes a run of its own, whose actions
  are the `trace` of the run, and `foldl_trace_all` the same under a side
  condition;
* `tally_le`: a potential of the state bounds what the steps of a run take from
  it by what they add to it.
-/

namespace ImgSync.Lib

variable {σ α : Type*}

/-- What one step keeps holds in every state that a run reaches. -/
theorem foldl_invariant {step : σ → α → σ} (Inv : σ → Prop)
    (hstep : ∀ s a, Inv s → Inv (step s a)) {s : σ} (h0 : Inv s) (as : List α) :
    Inv (as.foldl step s) := by
  induction as generalizing s with
  | nil => exact h0
  | cons a as ih => exact ih (hstep s a h0)

/-- Every step of the run from `s` satisfies `ok`, which reads the state
before the step and the action. -/
def AllSteps (step : σ → α → σ) (ok : σ → α → Prop) : σ → List α → Prop
  | _, [] => True
  | s, a :: as => ok s a ∧ AllSteps step ok (step s a) as

instance AllSteps.decidable {step : σ → α → σ} {ok : σ → α → Prop} [∀ s a, Decidable (ok s a)] :
    (s : σ) → (as : List α) → Decidable (AllSteps step ok s as)
  | _, [] => isTrue trivial
  | s, a :: as =>
    have : Decidable (AllSteps step ok (step s a) as) := AllSteps.decidable (step s a) as
    inferInstanceAs (Decidable (ok s a ∧ AllSteps step ok (step s a) as))

/-- The side condition, step by step. -/
theorem allSteps_iff {step : σ → α → σ} {ok : σ → α → Prop} {s : σ} {as : List α} :
    AllSteps step ok s as ↔
      ∀ before a after, as = before ++ a :: after → ok (before.foldl step s) a := by
  induction as generalizing s with
  | nil =>
    refine ⟨fun _ before a after h => ?_, fun _ => trivial⟩
    exact absurd h.symm (by simp)
  | cons b as ih =>
    constructor
    · rintro ⟨hb, hrest⟩ before a after heq
      cases before with
      | nil =>
        obtain ⟨rfl, rfl⟩ := List.cons.inj heq
        exact hb
      | cons c before =>
        obtain ⟨rfl, htail⟩ := List.cons.inj heq
        exact ih.mp hrest before a after htail
    · intro h
      refine ⟨h [] b as rfl, ih.mpr fun before a after heq => ?_⟩
      exact h (b :: before) a after (by rw [heq]; rfl)

theorem allSteps_append {step : σ → α → σ} {ok : σ → α → Prop} {s : σ} {as bs : List α} :
    AllSteps step ok s (as ++ bs) ↔
      AllSteps step ok s as ∧ AllSteps step ok (as.foldl step s) bs := by
  induction as generalizing s with
  | nil => exact iff_of_eq (true_and _).symm
  | cons a as ih =>
    show (ok s a ∧ AllSteps step ok (step s a) (as ++ bs)) ↔ _
    rw [ih]
    exact and_assoc.symm

/-- The invariant rule for runs whose steps all meet a side condition. -/
theorem foldl_all {step : σ → α → σ} {ok : σ → α → Prop} (Inv : σ → Prop)
    (hstep : ∀ s a, Inv s → ok s a → Inv (step s a)) {s : σ} (h0 : Inv s) {as : List α}
    (hok : AllSteps step ok s as) : Inv (as.foldl step s) := by
  induction as generalizing s with
  | nil => exact h0
  | cons a as ih => exact ih (hstep s a h0 hok.1) hok.2

/-- The invariant rule for runs whose actions all meet a side condition. -/
theorem foldl_mem {step : σ → α → σ} {ok : α → Prop} (Inv : σ → Prop)
    (hstep : ∀ s a, Inv s → ok a → Inv (step s a)) {s : σ} (h0 : Inv s) {as : List α}
    (hok : ∀ a ∈ as, ok a) : Inv (as.foldl step s) := by
  have hsteps : AllSteps step (fun _ a => ok a) s as :=
    allSteps_iff.mpr fun before a after heq =>
      hok a (heq ▸ List.mem_append_right _ List.mem_cons_self)
  exact foldl_all Inv hstep h0 hsteps

/-- A reflexive and transitive relation that every step respects relates the
two ends of a run.  The invariant `Inv` is carried along, so the step fact
may use it. -/
theorem foldl_rel {step : σ → α → σ} (Inv : σ → Prop) (R : σ → σ → Prop)
    (hrefl : ∀ s, R s s) (htrans : ∀ s t u, R s t → R t u → R s u)
    (hstep : ∀ s a, Inv s → Inv (step s a) ∧ R s (step s a))
    {s : σ} (h0 : Inv s) (as : List α) : R s (as.foldl step s) := by
  induction as generalizing s with
  | nil => exact hrefl s
  | cons a as ih =>
    obtain ⟨hinv, hrel⟩ := hstep s a h0
    exact htrans _ _ _ hrel (ih hinv)

/-- The operations of a run, for an observer that sees one operation, or none, in
each step. -/
def trace {β : Type*} (step : σ → α → σ) (op? : σ → α → Option β) : σ → List α → List β
  | _, [] => []
  | s, a :: as => (op? s a).toList ++ trace step op? (step s a) as

theorem trace_append {β : Type*} (step : σ → α → σ) (op? : σ → α → Option β) (s : σ)
    (as bs : List α) :
    trace step op? s (as ++ bs) = trace step op? s as ++ trace step op? (as.foldl step s) bs := by
  induction as generalizing s with
  | nil => rfl
  | cons a as ih => rw [List.cons_append, trace, trace, ih, List.append_assoc, List.foldl_cons]

section Trace

variable {β γ : Type*} {step : σ → α → σ} {op? : σ → α → Option β} (Inv : σ → Prop)
  {read : σ → γ} {next : γ → β → γ}

/-- If every step changes a reading of the state by the operation that the
observer sees, so does a run by its trace.  The run meets a side condition. -/
theorem foldl_trace_all {ok : σ → α → Prop}
    (hstep : ∀ s a, Inv s → ok s a →
      Inv (step s a) ∧ read (step s a) = (op? s a).toList.foldl next (read s))
    {s : σ} (h0 : Inv s) {as : List α} (hok : AllSteps step ok s as) :
    read (as.foldl step s) = (trace step op? s as).foldl next (read s) := by
  induction as generalizing s with
  | nil => rfl
  | cons a as ih =>
    obtain ⟨hinv, hread⟩ := hstep s a h0 hok.1
    rw [List.foldl_cons, ih hinv hok.2, hread, trace, List.foldl_append]

/-- The same rule without a side condition. -/
theorem foldl_trace
    (hstep : ∀ s a, Inv s →
      Inv (step s a) ∧ read (step s a) = (op? s a).toList.foldl next (read s))
    {s : σ} (h0 : Inv s) (as : List α) :
    read (as.foldl step s) = (trace step op? s as).foldl next (read s) :=
  foldl_trace_all Inv (fun s a hinv (_ : True) => hstep s a hinv) h0
    (allSteps_iff.mpr fun _ _ _ _ => trivial)

end Trace

/-- The sum of a quantity over the steps of a run. -/
def tally (step : σ → α → σ) (f : σ → α → Nat) : σ → List α → Nat
  | _, [] => 0
  | s, a :: as => f s a + tally step f (step s a) as

section Tally

variable {step : σ → α → σ} (Inv : σ → Prop) (potential : σ → Nat)
  (outflow inflow : σ → α → Nat)

/-- What a run takes from a potential is no more than what was there and what
the run has added. -/
theorem tally_le {ok : σ → α → Prop}
    (hstep : ∀ s a, Inv s → ok s a →
      Inv (step s a) ∧ potential (step s a) + outflow s a ≤ potential s + inflow s a)
    {s : σ} (h0 : Inv s) {as : List α} (hok : AllSteps step ok s as) :
    potential (as.foldl step s) + tally step outflow s as ≤
      potential s + tally step inflow s as := by
  induction as generalizing s with
  | nil => exact le_rfl
  | cons a as ih =>
    obtain ⟨hinv, hle⟩ := hstep s a h0 hok.1
    have hrest := ih hinv hok.2
    rw [List.foldl_cons, tally, tally]
    omega

end Tally

end ImgSync.Lib
