import ImgSync.Lib.Run
import ImgSync.Transfer.CtxReader

/-!
# The goroutines of a context reader

`ctxReader.Read` (`internal/transfer/ctxreader.go`) starts a goroutine that reads
into the buffer `scratch` and sends the result on `pending`, and waits for it or
for the end of the context.  A call that returns because of the context leaves
the goroutine behind.

Here the steps of the caller and of the goroutines are interleaved, and the
context may end between any two of them.  A goroutine looks at the fields
`scratch` and `pending` when it runs, not when it is started, and there could be
many of them; that there is at most one is a result.  `gen` counts the arrays of
`scratch`, because a goroutine writes into the array that it found.

The invariant is `Stage`: how far the read is that no caller has received yet.
`ctx_transparent` says what callers see, and `ctx_refines` that it is what the
reader of `CtxReader`, where a call is one step, answers.
-/

namespace ImgSync.Transfer

open ImgSync.Lib

variable {σ ε : Type}

/-- A goroutine of a call of `Read` with a buffer of `n` bytes. -/
inductive Goroutine (ε : Type) where
  | started (n : Nat)
  /-- Inside the underlying `Read`, with the array number `gen` of `scratch`. -/
  | reading (n gen : Nat)
  /-- About to send the result. -/
  | returned (k : Nat) (stop : Option (Stop ε))
  /-- `scratch[:n]` was out of range. -/
  | panicked

/-- The underlying `Read` has been called and has not returned. -/
def Goroutine.outstanding : Goroutine ε → Bool
  | .reading _ _ => true
  | _ => false

inductive Caller where
  | idle
  /-- In the `select`. -/
  | waiting (n : Nat)

/-- What a call of `Read` with a buffer of `n` bytes returns. -/
inductive Answer (ε : Type) where
  | passed (n : Nat) (res : ReadResult ε)
  /-- The error of the context. -/
  | aborted (n : Nat)

def Answer.size : Answer ε → Nat
  | .passed n _ | .aborted n => n

def Answer.result (ctxErr : ε) : Answer ε → ReadResult ε
  | .passed _ res => res
  | .aborted _ => ⟨[], some (.error ctxErr)⟩

/-- The bytes of an answer. -/
def Answer.data : Answer ε → List UInt8
  | .passed _ res => res.data
  | .aborted _ => []

structure CtxMachine (σ ε : Type) where
  inner : σ
  cancelled : Bool
  scratch : List UInt8
  gen : Nat
  /-- The channel, once it is made, and the result in its buffer. -/
  pending : Option (Option (Nat × Option (Stop ε)))
  goroutines : List (Goroutine ε)
  caller : Caller
  /-- The answers so far. -/
  answers : List (Answer ε)
  /-- The buffer sizes of the underlying reads that have returned. -/
  reads : List Nat

def CtxMachine.init (s : σ) : CtxMachine σ ε where
  inner := s
  cancelled := false
  scratch := []
  gen := 0
  pending := none
  goroutines := []
  caller := .idle
  answers := []
  reads := []

inductive CtxAction where
  /-- The context ends. -/
  | cancel
  /-- `Read` is called, and gets to its `select` or returns before. -/
  | call (n : Nat)
  /-- The goroutine calls the underlying `Read`. -/
  | begin (i : Nat)
  /-- The underlying `Read` returns. -/
  | ret (i : Nat)
  /-- The goroutine sends its result. -/
  | deliver (i : Nat)
  /-- The `select` receives the result. -/
  | receive
  /-- The `select` chooses `ctx.Done()`. -/
  | abort

/-- The part of `Read` that starts a goroutine. -/
def CtxMachine.start (s : CtxMachine σ ε) (n : Nat) : CtxMachine σ ε :=
  { s with
    scratch := if s.scratch.length < n then List.replicate n 0 else s.scratch
    gen := if s.scratch.length < n then s.gen + 1 else s.gen
    pending := some none
    goroutines := s.goroutines ++ [.started n] }

def CtxMachine.answer (s : CtxMachine σ ε) (a : Answer ε) : CtxMachine σ ε :=
  { s with caller := .idle, answers := s.answers ++ [a] }

def ctxStep (r : Reader σ ε) (s : CtxMachine σ ε) : CtxAction → CtxMachine σ ε
  | .cancel => { s with cancelled := true }
  | .call n =>
    match s.caller with
    | .idle =>
      if s.cancelled then s.answer (.aborted n)
      else
        match s.pending with
        | none => { s.start n with caller := .waiting n }
        | some _ => { s with caller := .waiting n }
    | .waiting _ => s
  | .begin i =>
    match s.goroutines[i]? with
    | some (.started n) =>
      { s with
        goroutines := s.goroutines.set i
          (if n ≤ s.scratch.length then .reading n s.gen else .panicked) }
    | _ => s
  | .ret i =>
    match s.goroutines[i]? with
    | some (.reading n gen) =>
      let (res, inner) := r.read s.inner n
      { s with
        inner := inner
        scratch :=
          if gen = s.gen then res.data ++ s.scratch.drop res.data.length else s.scratch
        goroutines := s.goroutines.set i (.returned res.data.length res.stop)
        reads := s.reads ++ [n] }
    | _ => s
  | .deliver i =>
    match s.goroutines[i]?, s.pending with
    | some (.returned k stop), some none =>
      { s with goroutines := s.goroutines.eraseIdx i, pending := some (some (k, stop)) }
    | _, _ => s
  | .receive =>
    match s.caller, s.pending with
    | .waiting n, some (some (k, stop)) =>
      { s.answer (.passed n ⟨(s.scratch.take k).take n, stop⟩) with pending := none }
    | _, _ => s
  | .abort =>
    match s.caller with
    | .waiting n => if s.cancelled then s.answer (.aborted n) else s
    | .idle => s

/-- The state after the actions, from `NewCtxReader`. -/
def ctxReach (r : Reader σ ε) (s : σ) (as : List CtxAction) : CtxMachine σ ε :=
  as.foldl (ctxStep r) (CtxMachine.init s)

/-! ## The read that nobody has received -/

/-- The call that started the read waits for it, or has given it up. -/
def CtxMachine.Waits (s : CtxMachine σ ε) (n : Nat) : Prop :=
  s.caller = .waiting n ∨ s.caller = .idle ∧ s.cancelled = true

/-- How far that read is.  `ns` are the sizes of the reads before it, and `t` is
the state of the underlying reader behind them. -/
inductive Stage (r : Reader σ ε) (ns : List Nat) (t : σ) (s : CtxMachine σ ε) : Prop where
  | rest (hgo : s.goroutines = []) (hpending : s.pending = none) (hcaller : s.caller = .idle)
      (hinner : s.inner = t) (hreads : s.reads = ns)
  | started (n : Nat) (hgo : s.goroutines = [.started n]) (hpending : s.pending = some none)
      (hwaits : s.Waits n) (hlen : n ≤ s.scratch.length)
      (hinner : s.inner = t) (hreads : s.reads = ns)
  | reading (n : Nat) (hgo : s.goroutines = [.reading n s.gen]) (hpending : s.pending = some none)
      (hwaits : s.Waits n) (hinner : s.inner = t) (hreads : s.reads = ns)
  | returned (n k : Nat) (stop : Option (Stop ε)) (hgo : s.goroutines = [.returned k stop])
      (hpending : s.pending = some none) (hwaits : s.Waits n)
      (hread : r.read t n = (⟨s.scratch.take k, stop⟩, s.inner)) (hreads : s.reads = ns ++ [n])
  | delivered (n k : Nat) (stop : Option (Stop ε)) (hgo : s.goroutines = [])
      (hpending : s.pending = some (some (k, stop))) (hwaits : s.Waits n)
      (hread : r.read t n = (⟨s.scratch.take k, stop⟩, s.inner)) (hreads : s.reads = ns ++ [n])

section Invariant

variable {r : Reader σ ε} {s₀ t : σ} {ns : List Nat} {s s' : CtxMachine σ ε}

/-- A change of the caller only. -/
theorem Stage.of_caller (h : Stage r ns t s) (hrest : s.pending = none → s'.caller = .idle)
    (hwaits : ∀ n, s.Waits n → s'.Waits n) (hgo : s'.goroutines = s.goroutines)
    (hpending : s'.pending = s.pending) (hscratch : s'.scratch = s.scratch)
    (hgen : s'.gen = s.gen) (hinner : s'.inner = s.inner) (hreads : s'.reads = s.reads) :
    Stage r ns t s' := by
  cases h with
  | rest h1 h2 h3 h4 h5 =>
    exact .rest (hgo.trans h1) (hpending.trans h2) (hrest h2) (hinner.trans h4) (hreads.trans h5)
  | started n h1 h2 h3 h4 h5 h6 =>
    exact .started n (hgo.trans h1) (hpending.trans h2) (hwaits n h3) (hscratch ▸ h4)
      (hinner.trans h5) (hreads.trans h6)
  | reading n h1 h2 h3 h4 h5 =>
    exact .reading n (by rw [hgo, hgen, h1]) (hpending.trans h2) (hwaits n h3) (hinner.trans h4)
      (hreads.trans h5)
  | returned n k stop h1 h2 h3 h4 h5 =>
    exact .returned n k stop (hgo.trans h1) (hpending.trans h2) (hwaits n h3)
      (by rw [hscratch, hinner]; exact h4) (hreads.trans h5)
  | delivered n k stop h1 h2 h3 h4 h5 =>
    exact .delivered n k stop (hgo.trans h1) (hpending.trans h2) (hwaits n h3)
      (by rw [hscratch, hinner]; exact h4) (hreads.trans h5)

/-- A caller that is outside, with a context that has not ended, has received
every read. -/
theorem Stage.rest_of_idle (h : Stage r ns t s) (hcaller : s.caller = .idle)
    (hlive : s.cancelled = false) :
    s.goroutines = [] ∧ s.pending = none ∧ s.inner = t ∧ s.reads = ns := by
  have hnot : ∀ n, ¬s.Waits n := by
    rintro n (hw | ⟨-, hc⟩)
    · rw [hcaller] at hw
      cases hw
    · rw [hlive] at hc
      cases hc
  cases h with
  | rest h1 h2 h3 h4 h5 => exact ⟨h1, h2, h4, h5⟩
  | started n h1 h2 h3 => exact absurd h3 (hnot n)
  | reading n h1 h2 h3 => exact absurd h3 (hnot n)
  | returned n k stop h1 h2 h3 => exact absurd h3 (hnot n)
  | delivered n k stop h1 h2 h3 => exact absurd h3 (hnot n)

theorem Stage.goroutines_le (h : Stage r ns t s) : s.goroutines.length ≤ 1 := by
  cases h with
  | rest h1 | delivered n k stop h1 =>
    rw [h1]
    exact Nat.zero_le 1
  | started n h1 | reading n h1 | returned n k stop h1 =>
    rw [h1]
    exact Nat.le_refl 1

theorem Stage.start (hgo : s.goroutines = []) (hinner : s.inner = t) (hreads : s.reads = ns)
    (n : Nat) : Stage r ns t { s.start n with caller := .waiting n } := by
  refine .started n ?_ rfl (Or.inl rfl) ?_ hinner hreads
  · show s.goroutines ++ [.started n] = _
    rw [hgo]
    rfl
  · show n ≤ (if s.scratch.length < n then List.replicate n 0 else s.scratch).length
    split
    · rw [List.length_replicate]
    · rename_i hroom
      exact Nat.le_of_not_lt hroom

/-- A list with one element has it at index 0 only. -/
theorem getElem?_singleton_eq {α : Type} {x y : α} {i : Nat} (h : [x][i]? = some y) :
    i = 0 ∧ x = y := by
  cases i with
  | zero => exact ⟨rfl, Option.some.inj h⟩
  | succ i => cases h

theorem Stage.begin (h : Stage r ns t s) (i : Nat) : Stage r ns t (ctxStep r s (.begin i)) := by
  cases hget : s.goroutines[i]? with
  | none =>
    simp only [ctxStep, hget]
    exact h
  | some g =>
    cases g with
    | started n =>
      simp only [ctxStep, hget]
      cases h with
      | started m h1 h2 h3 h4 h5 h6 =>
        rw [h1] at hget
        obtain ⟨rfl, heq⟩ := getElem?_singleton_eq hget
        cases heq
        refine .reading n ?_ h2 h3 h5 h6
        rw [h1, if_pos h4]
        rfl
      | rest h1 | delivered m k stop h1 | reading m h1 | returned m k stop h1 =>
        rw [h1] at hget
        first
          | cases hget
          | cases (getElem?_singleton_eq hget).2
    | _ =>
      simp only [ctxStep, hget]
      exact h

/-- The underlying read returns; its bytes are at the front of `scratch`. -/
theorem Stage.ret (h : Stage r ns t s) (i : Nat) : Stage r ns t (ctxStep r s (.ret i)) := by
  cases hget : s.goroutines[i]? with
  | none =>
    simp only [ctxStep, hget]
    exact h
  | some g =>
    cases g with
    | reading n gen =>
      simp only [ctxStep, hget]
      cases h with
      | reading m h1 h2 h3 h4 h5 =>
        rw [h1] at hget
        obtain ⟨rfl, heq⟩ := getElem?_singleton_eq hget
        cases heq
        refine .returned n (r.read s.inner n).1.data.length (r.read s.inner n).1.stop ?_ h2 h3 ?_ ?_
        · rw [h1]
          rfl
        · rw [if_pos rfl, List.take_left, h4]
        · rw [h5]
      | rest h1 | delivered m k stop h1 | started m h1 | returned m k stop h1 =>
        rw [h1] at hget
        first
          | cases hget
          | cases (getElem?_singleton_eq hget).2
    | _ =>
      simp only [ctxStep, hget]
      exact h

theorem Stage.deliver (h : Stage r ns t s) (i : Nat) : Stage r ns t (ctxStep r s (.deliver i)) := by
  simp only [ctxStep]
  split
  · rename_i k stop hget hpending
    cases h with
    | returned n k' stop' h1 h2 h3 h4 h5 =>
      rw [h1] at hget
      obtain ⟨rfl, heq⟩ := getElem?_singleton_eq hget
      cases heq
      refine .delivered n k stop ?_ rfl h3 h4 h5
      rw [h1]
      rfl
    | rest h1 | delivered m k stop h1 | started m h1 | reading m h1 =>
      rw [h1] at hget
      first
        | cases hget
        | cases (getElem?_singleton_eq hget).2
  · exact h

/-- The answers so far are those of the underlying reader, and then errors of
the context. -/
structure CtxInv (r : Reader σ ε) (s₀ : σ) (s : CtxMachine σ ε)
    (passed : List (Nat × ReadResult ε)) (aborted : List Nat) : Prop where
  answers : s.answers = passed.map (fun p => .passed p.1 p.2) ++ aborted.map .aborted
  results : passed.map Prod.snd = (readSeq r s₀ (passed.map Prod.fst)).1
  cancelled : aborted ≠ [] → s.cancelled = true
  waiting : s.caller ≠ .idle → aborted = []
  stage : Stage r (passed.map Prod.fst) (readSeq r s₀ (passed.map Prod.fst)).2 s

variable {passed : List (Nat × ReadResult ε)} {aborted : List Nat}

/-- A call returns the error of the context. -/
theorem CtxInv.aborts (h : CtxInv r s₀ s passed aborted) (hcancelled : s.cancelled = true)
    (n : Nat) : CtxInv r s₀ (s.answer (.aborted n)) passed (aborted ++ [n]) := by
  refine ⟨?_, h.results, fun _ => hcancelled, fun hne => absurd rfl hne, ?_⟩
  · show s.answers ++ [.aborted n] = _
    rw [h.answers, List.map_append, List.append_assoc]
    rfl
  · exact h.stage.of_caller (fun _ => rfl) (fun _ _ => Or.inr ⟨rfl, hcancelled⟩) rfl rfl rfl rfl
      rfl rfl

/-- A call receives the result of its read. -/
theorem CtxInv.receives (h : CtxInv r s₀ s passed []) {n k : Nat} {stop : Option (Stop ε)}
    (hgo : s.goroutines = [])
    (hread : r.read (readSeq r s₀ (passed.map Prod.fst)).2 n =
      (⟨s.scratch.take k, stop⟩, s.inner))
    (hreads : s.reads = passed.map Prod.fst ++ [n]) :
    CtxInv r s₀ { s.answer (.passed n ⟨(s.scratch.take k).take n, stop⟩) with pending := none }
      (passed ++ [(n, ⟨s.scratch.take k, stop⟩)]) [] := by
  have hfits := r.fits (readSeq r s₀ (passed.map Prod.fst)).2 n
  rw [hread] at hfits
  refine ⟨?_, ?_, fun hne => absurd rfl hne, fun _ => rfl, ?_⟩
  · show s.answers ++ [.passed n ⟨(s.scratch.take k).take n, stop⟩] = _
    rw [List.take_of_length_le hfits, h.answers, List.map_append, List.map_nil, List.append_nil,
      List.append_nil]
    rfl
  · rw [List.map_append, List.map_append]
    show _ = (readSeq r s₀ (passed.map Prod.fst ++ [n])).1
    rw [readSeq_concat, hread, h.results]
    rfl
  · rw [List.map_append]
    show Stage r (passed.map Prod.fst ++ [n]) (readSeq r s₀ (passed.map Prod.fst ++ [n])).2 _
    refine .rest hgo rfl rfl ?_ hreads
    rw [readSeq_concat, hread]
    rfl

/-- A step of a goroutine. -/
theorem CtxInv.of_stage (h : CtxInv r s₀ s passed aborted)
    (hstage : Stage r (passed.map Prod.fst) (readSeq r s₀ (passed.map Prod.fst)).2 s')
    (hanswers : s'.answers = s.answers) (hcancelled : s'.cancelled = s.cancelled)
    (hcaller : s'.caller = s.caller) : CtxInv r s₀ s' passed aborted :=
  ⟨hanswers.trans h.answers, h.results, hcancelled ▸ h.cancelled, hcaller ▸ h.waiting, hstage⟩

theorem CtxInv.call (h : CtxInv r s₀ s passed aborted) (n : Nat) :
    ∃ aborted', CtxInv r s₀ (ctxStep r s (.call n)) passed aborted' := by
  simp only [ctxStep]
  split
  · rename_i hidle
    split
    · rename_i hcancelled
      exact ⟨_, h.aborts hcancelled n⟩
    · rename_i hlive
      have hlive' := Bool.eq_false_of_not_eq_true hlive
      obtain ⟨hgo, hpending, hinner, hreads⟩ := h.stage.rest_of_idle hidle hlive'
      have hnil : aborted = [] := by
        by_contra hne
        exact hlive (h.cancelled hne)
      split
      · exact ⟨aborted, h.answers, h.results, h.cancelled, fun _ => hnil,
          Stage.start hgo hinner hreads n⟩
      · rename_i ch hsome
        rw [hpending] at hsome
        cases hsome
  · exact ⟨aborted, h⟩

theorem CtxInv.step (h : CtxInv r s₀ s passed aborted) (a : CtxAction) :
    ∃ passed' aborted', CtxInv r s₀ (ctxStep r s a) passed' aborted' := by
  cases a with
  | cancel =>
    refine ⟨passed, aborted, h.answers, h.results, fun _ => rfl, h.waiting, ?_⟩
    refine h.stage.of_caller ?_ ?_ rfl rfl rfl rfl rfl rfl
    · intro hpending
      cases h.stage with
      | rest h1 h2 h3 => exact h3
      | started n h1 h2 | reading n h1 h2 | returned n k stop h1 h2 | delivered n k stop h1 h2 =>
        rw [hpending] at h2
        cases h2
    · rintro n (hw | ⟨hidle, -⟩)
      · exact Or.inl hw
      · exact Or.inr ⟨hidle, rfl⟩
  | call n => exact ⟨passed, h.call n⟩
  | begin i =>
    refine ⟨passed, aborted, h.of_stage (h.stage.begin i) ?_ ?_ ?_⟩ <;>
      (simp only [ctxStep]; split <;> rfl)
  | ret i =>
    refine ⟨passed, aborted, h.of_stage (h.stage.ret i) ?_ ?_ ?_⟩ <;>
      (simp only [ctxStep]; split <;> rfl)
  | deliver i =>
    refine ⟨passed, aborted, h.of_stage (h.stage.deliver i) ?_ ?_ ?_⟩ <;>
      (simp only [ctxStep]; split <;> rfl)
  | receive =>
    simp only [ctxStep]
    split
    · rename_i n k stop hcaller hpending
      have hnil := h.waiting (by rw [hcaller]; simp)
      subst hnil
      -- Only the last stage has a result in the channel.
      cases h.stage with
      | delivered m k' stop' h1 h2 h3 h4 h5 =>
        rw [hpending] at h2
        cases h2
        rcases h3 with hw | ⟨hidle, -⟩
        · rw [hcaller] at hw
          cases hw
          exact ⟨_, _, h.receives h1 h4 h5⟩
        · rw [hcaller] at hidle
          cases hidle
      | rest h1 h2 | started m h1 h2 | reading m h1 h2 | returned m k' stop' h1 h2 =>
        rw [hpending] at h2
        cases h2
    · exact ⟨passed, aborted, h⟩
  | abort =>
    simp only [ctxStep]
    split
    · rename_i n hcaller
      split
      · rename_i hcancelled
        exact ⟨passed, _, h.aborts hcancelled n⟩
      · exact ⟨passed, aborted, h⟩
    · exact ⟨passed, aborted, h⟩

/-- The underlying reader is at most one read ahead of the answers. -/
theorem Stage.reads_eq (h : Stage r ns t s) : s.reads = ns ∨ ∃ n, s.reads = ns ++ [n] := by
  cases h with
  | rest h1 h2 h3 h4 h5 => exact Or.inl h5
  | started n h1 h2 h3 h4 h5 h6 => exact Or.inl h6
  | reading n h1 h2 h3 h4 h5 => exact Or.inl h5
  | returned n k stop h1 h2 h3 h4 h5 => exact Or.inr ⟨n, h5⟩
  | delivered n k stop h1 h2 h3 h4 h5 => exact Or.inr ⟨n, h5⟩

/-- The bytes of the answers are those that the underlying reader gave first. -/
theorem CtxInv.delivered_prefix (h : CtxInv r s₀ s passed aborted) :
    s.answers.flatMap Answer.data <+: (readSeq r s₀ s.reads).1.flatMap ReadResult.data := by
  have hpassed : (passed.map fun p => Answer.passed p.1 p.2).flatMap Answer.data =
      (readSeq r s₀ (passed.map Prod.fst)).1.flatMap ReadResult.data := by
    rw [← h.results, List.flatMap_map, List.flatMap_map]
    rfl
  have haborted : (aborted.map (Answer.aborted (ε := ε))).flatMap Answer.data = [] := by
    rw [List.flatMap_map, List.flatMap_eq_nil_iff]
    intro n _
    rfl
  rw [h.answers, List.flatMap_append, hpassed, haborted, List.append_nil]
  rcases h.stage.reads_eq with heq | ⟨n, heq⟩
  · rw [heq]
  · rw [heq, readSeq_concat, List.flatMap_append]
    exact List.prefix_append _ _

/-- Behind an error of the context there are only such errors. -/
theorem CtxInv.no_data_after (h : CtxInv r s₀ s passed aborted) :
    s.answers.Pairwise fun a b => (∃ n, a = .aborted n) → b.data = [] := by
  rw [h.answers, List.pairwise_append]
  have haborted : ∀ b ∈ aborted.map (Answer.aborted (ε := ε)), b.data = [] := by
    intro b hb
    obtain ⟨n, -, rfl⟩ := List.mem_map.mp hb
    rfl
  refine ⟨?_, ?_, fun a _ b hb _ => haborted b hb⟩
  · rw [List.pairwise_map]
    refine List.pairwise_of_forall fun p q hp => ?_
    obtain ⟨n, hn⟩ := hp
    cases hn
  · rw [List.pairwise_map]
    exact List.pairwise_of_forall fun _ _ _ => rfl

/-- A call that no cancellation disturbs. -/
theorem answers_of_undisturbed (hgo : s.goroutines = []) (hpending : s.pending = none)
    (hcaller : s.caller = .idle) (hlive : s.cancelled = false) (n : Nat) :
    ([.call n, .begin 0, .ret 0, .deliver 0, .receive].foldl (ctxStep r) s).answers =
      s.answers ++ [.passed n (r.read s.inner n).1] := by
  have hroom : n ≤ (if s.scratch.length < n then List.replicate n 0 else s.scratch).length := by
    split
    · rw [List.length_replicate]
    · omega
  have hfits := List.take_of_length_le (r.fits s.inner n)
  simp [ctxStep, CtxMachine.start, CtxMachine.answer, hgo, hpending, hcaller, hlive, hroom, hfits]

end Invariant

theorem ctxReach_inv (r : Reader σ ε) (s : σ) (as : List CtxAction) :
    ∃ passed aborted, CtxInv r s (ctxReach r s as) passed aborted :=
  foldl_invariant (fun m : CtxMachine σ ε => ∃ passed aborted, CtxInv r s m passed aborted)
    (fun _ a ⟨_, _, h⟩ => h.step a)
    ⟨[], [], rfl, rfl, fun hne => absurd rfl hne, fun _ => rfl, .rest rfl rfl rfl rfl rfl⟩ as

/-- A context reader, for every underlying reader and every order of the steps of
the caller, its goroutines and the context.  The answers are first those of the
underlying reader for buffers of the same sizes, and then errors of the context,
which only come when it has ended.  The bytes are the first ones of the stream;
none come after an error of the context.  At most one underlying read is
outstanding.  A call that no cancellation disturbs returns the next read. -/
theorem ctx_transparent (r : Reader σ ε) (s : σ) (as : List CtxAction) :
    (∃ (passed : List (Nat × ReadResult ε)) (aborted : List Nat),
      (ctxReach r s as).answers =
        passed.map (fun p => .passed p.1 p.2) ++ aborted.map .aborted ∧
      passed.map Prod.snd = (readSeq r s (passed.map Prod.fst)).1 ∧
      ((ctxReach r s as).cancelled = false → aborted = [])) ∧
    (ctxReach r s as).answers.flatMap Answer.data <+:
      (readSeq r s (ctxReach r s as).reads).1.flatMap ReadResult.data ∧
    ((ctxReach r s as).answers.Pairwise fun a b => (∃ n, a = .aborted n) → b.data = []) ∧
    (ctxReach r s as).goroutines.countP Goroutine.outstanding ≤ 1 ∧
    ((ctxReach r s as).caller = .idle → (ctxReach r s as).cancelled = false → ∀ n,
      (ctxReach r s (as ++ [.call n, .begin 0, .ret 0, .deliver 0, .receive])).answers =
        (ctxReach r s as).answers ++ [.passed n (r.read (ctxReach r s as).inner n).1]) := by
  obtain ⟨passed, aborted, hinv⟩ := ctxReach_inv r s as
  refine ⟨⟨passed, aborted, hinv.answers, hinv.results, ?_⟩, hinv.delivered_prefix,
    hinv.no_data_after, List.countP_le_length.trans hinv.stage.goroutines_le, ?_⟩
  · intro hlive
    by_contra hne
    rw [hinv.cancelled hne] at hlive
    cases hlive
  · intro hidle hlive n
    obtain ⟨hgo, hpending, -, -⟩ := hinv.stage.rest_of_idle hidle hlive
    rw [ctxReach, List.foldl_append]
    exact answers_of_undisturbed hgo hpending hidle hlive n

/-! ## The reader with one step for a call -/

section Atomic

variable {ctx : Nat → CtxAt} {ctxErr : ε} {r : Reader σ ε}

/-- Calls while the context lives. -/
theorem readSeq_live {s : CtxState σ ε} {ns : List Nat} (hpending : s.pending = none)
    (hcancelled : s.cancelled = false) (hctx : ∀ j < ns.length, ctx (s.calls + j) = .live) :
    (readSeq (ctxReader ctx ctxErr r) s ns).1 = (readSeq r s.inner ns).1 ∧
      (readSeq (ctxReader ctx ctxErr r) s ns).2.calls = s.calls + ns.length := by
  induction ns generalizing s with
  | nil => exact ⟨rfl, rfl⟩
  | cons n ns ih =>
    have hnow : ctx s.calls = .live := hctx 0 (Nat.succ_pos _)
    have hread : (ctxReader ctx ctxErr r).read s n =
        ((r.read s.inner n).1,
          { inner := (r.read s.inner n).2, calls := s.calls + 1, cancelled := false,
            pending := none }) := by
      have hfits := List.take_of_length_le (r.fits s.inner n)
      simp [ctxReader, awaited, hpending, hcancelled, hnow, hfits]
    simp only [readSeq, hread]
    have hlater : ∀ j < ns.length, ctx (s.calls + 1 + j) = .live := by
      intro j hj
      have h := hctx (j + 1) (Nat.succ_lt_succ hj)
      rwa [← Nat.add_assoc, Nat.add_right_comm] at h
    have hrest := ih (s := ⟨(r.read s.inner n).2, s.calls + 1, false, none⟩) rfl rfl hlater
    refine ⟨by rw [hrest.1], ?_⟩
    rw [hrest.2, List.length_cons]
    show s.calls + 1 + ns.length = _
    omega

/-- Calls after it has ended. -/
theorem readSeq_cancelled {s : CtxState σ ε} {ns : List Nat}
    (hctx : ∀ j, s.calls ≤ j → ctx j = .cancelled) :
    (readSeq (ctxReader ctx ctxErr r) s ns).1 = ns.map fun _ => ⟨[], some (.error ctxErr)⟩ := by
  induction ns generalizing s with
  | nil => rfl
  | cons n ns ih =>
    have hread : (ctxReader ctx ctxErr r).read s n =
        (⟨[], some (.error ctxErr)⟩, { s with calls := s.calls + 1, cancelled := true }) := by
      simp [ctxReader, hctx s.calls (Nat.le_refl _)]
    simp only [readSeq, hread, List.map_cons]
    rw [ih fun j hj => hctx j (Nat.le_of_succ_le hj)]

end Atomic

/-- What the callers of a context reader see, whatever the interleaving, is what
`ctxReader` answers with some context. -/
theorem ctx_refines (r : Reader σ ε) (ctxErr : ε) (s : σ) (as : List CtxAction) :
    ∃ ctx : Nat → CtxAt, (ctxReach r s as).answers.map (Answer.result ctxErr) =
      (readSeq (ctxReader ctx ctxErr r) (.initial s)
        ((ctxReach r s as).answers.map Answer.size)).1 := by
  obtain ⟨passed, aborted, hinv⟩ := ctxReach_inv r s as
  let ctx : Nat → CtxAt := fun k => if k < passed.length then .live else .cancelled
  have hlive : (readSeq (ctxReader ctx ctxErr r) (.initial s) (passed.map Prod.fst)).1 =
      (readSeq r s (passed.map Prod.fst)).1 ∧
      (readSeq (ctxReader ctx ctxErr r) (.initial s) (passed.map Prod.fst)).2.calls =
        0 + (passed.map Prod.fst).length := by
    refine readSeq_live rfl rfl ?_
    intro j hj
    rw [List.length_map] at hj
    show ctx (0 + j) = .live
    rw [Nat.zero_add]
    exact if_pos hj
  have hover : (readSeq (ctxReader ctx ctxErr r)
      (readSeq (ctxReader ctx ctxErr r) (.initial s) (passed.map Prod.fst)).2 aborted).1 =
      aborted.map fun _ => ⟨[], some (.error ctxErr)⟩ := by
    refine readSeq_cancelled ?_
    intro j hj
    rw [hlive.2, List.length_map] at hj
    exact if_neg (by omega)
  refine ⟨ctx, ?_⟩
  have hsizes : (ctxReach r s as).answers.map Answer.size = passed.map Prod.fst ++ aborted := by
    rw [hinv.answers, List.map_append, List.map_map, List.map_map]
    congr 1
    exact List.map_id _
  rw [hsizes, readSeq_append, hover, hlive.1, hinv.answers, List.map_append, List.map_map,
    List.map_map]
  show passed.map Prod.snd ++ _ = _
  rw [hinv.results]
  rfl

end ImgSync.Transfer
