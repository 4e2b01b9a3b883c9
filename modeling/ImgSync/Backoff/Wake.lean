import ImgSync.Backoff.Idle
import ImgSync.Lib.Run
import ImgSync.Lib.SliceHeap

/-!
# Waiting and waking

`Idle.WaitOnce` and `Idle.WakeAll` (`internal/backoff/backoff.go`), called by any
number of goroutines.  `WaitOnce` registers a channel in `i.wakers`, waits for
the timer, a token or its context, and takes the channel out again.  `WakeAll`
takes the whole slice away under the mutex, and sends the tokens afterwards.

A section under `i.mu` is one step, and so is every token that is sent.  The
channel of a call of `WaitOnce` has the number of the call.  `WakeAll` reads the
slice that it took away element by element, while evictions move the elements
of the live slice in place, so slices are headers over arrays here.

The last three fields of `Idle` record what happened: which `WakeAll` took a
channel away, how many tokens were put into it, and how many were dropped
because its buffer was full.
-/

namespace ImgSync.Backoff

open ImgSync.Lib

/-- Where a call of `WaitOnce` is. -/
inductive WaitPhase where
  | before
  /-- In the `select`, with the delay of its timer. -/
  | waiting (delay : Int)
  /-- Behind the `select`, before the eviction. -/
  | leaving
  | done
  deriving DecidableEq

/-- The call has registered its channel and has not finished its eviction. -/
def WaitPhase.registered : WaitPhase → Bool
  | .waiting _ | .leaving => true
  | _ => false

/-- Where a call of `WakeAll` is. -/
inductive WakePhase where
  | before
  /-- Behind the mutex, about to send to the channel number `k` of the slice. -/
  | sending (wakers : SliceHeader) (k : Nat)
  | done
  deriving DecidableEq

structure Idle where
  nominal : Int
  heap : SliceHeap Nat
  wakers : SliceHeader
  /-- The tokens in the buffer of a channel, which has room for one. -/
  buffer : Nat → Nat
  waits : Nat → WaitPhase
  wakes : Nat → WakePhase
  taken : Nat → Option Nat
  sends : Nat → Nat
  dropped : Nat

def Idle.init (cfg : Config) : Idle where
  nominal := cfg.baseDelay
  heap := { cells := fun _ => [], next := 0 }
  wakers := .nil
  buffer := fun _ => 0
  waits := fun _ => .before
  wakes := fun _ => .before
  taken := fun _ => none
  sends := fun _ => 0
  dropped := 0

/-- The channels in `i.wakers`. -/
def Idle.live (s : Idle) : List Nat := s.heap.read s.wakers

/-- How the `select` of `WaitOnce` ends. -/
inductive Reason where
  | timer
  | token
  | ctxDone

inductive Action where
  /-- The first section of `WaitOnce`.  `spare` is the free part of a new array. -/
  | register (i : Nat) (draw : Fin (2 ^ 53)) (spare : List Nat)
  | select (i : Nat) (reason : Reason)
  /-- The second section of `WaitOnce`. -/
  | evict (i : Nat)
  /-- The section of `WakeAll`. -/
  | detach (j : Nat)
  /-- One round of the loop of `WakeAll`. -/
  | send (j : Nat)

/-- The loop over `i.wakers` that removes the channel. -/
def Idle.evict (s : Idle) (i : Nat) : Idle :=
  let k := s.live.idxOf i
  if k < s.wakers.len then
    { s with heap := (s.heap.removeAt s.wakers k).1, wakers := (s.heap.removeAt s.wakers k).2 }
  else s

/-- A send that does not block. -/
def Idle.trySend (s : Idle) (i : Nat) : Idle :=
  if s.buffer i = 0 then
    { s with
      buffer := Function.update s.buffer i 1, sends := Function.update s.sends i (s.sends i + 1) }
  else { s with dropped := s.dropped + 1 }

def step (cfg : Config) (s : Idle) : Action → Idle
  | .register i draw spare =>
    match s.waits i with
    | .before =>
      { s with
        nominal := advance cfg s.nominal
        heap := (s.heap.append s.wakers i spare).1, wakers := (s.heap.append s.wakers i spare).2
        waits := Function.update s.waits i (.waiting (jitter draw s.nominal)) }
    | _ => s
  | .select i reason =>
    match s.waits i with
    | .waiting _ =>
      match reason with
      | .timer | .ctxDone => { s with waits := Function.update s.waits i .leaving }
      | .token =>
        if s.buffer i = 0 then s
        else
          { s with
            buffer := Function.update s.buffer i (s.buffer i - 1)
            waits := Function.update s.waits i .leaving }
    | _ => s
  | .evict i =>
    match s.waits i with
    | .leaving => { s.evict i with waits := Function.update s.waits i .done }
    | _ => s
  | .detach j =>
    match s.wakes j with
    | .before =>
      { s with
        nominal := cfg.baseDelay, wakers := .nil
        wakes := Function.update s.wakes j (.sending s.wakers 0)
        taken := fun i => if i ∈ s.live then some j else s.taken i }
    | _ => s
  | .send j =>
    match s.wakes j with
    | .sending wakers k =>
      match (s.heap.read wakers)[k]? with
      | some i => { s.trySend i with wakes := Function.update s.wakes j (.sending wakers (k + 1)) }
      | none => { s with wakes := Function.update s.wakes j .done }
    | _ => s

/-- The state after the actions, from `NewIdle`. -/
def reach (cfg : Config) (as : List Action) : Idle :=
  as.foldl (step (newIdle cfg)) (Idle.init (newIdle cfg))

/-! ## What a `WakeAll` has taken -/

/-- The slice of a `WakeAll` that has sent `k` tokens. -/
structure Batch (s : Idle) (j : Nat) (d : SliceHeader) (k : Nat) : Prop where
  valid : s.heap.Valid d
  /-- Nobody writes its array any more. -/
  apart : SliceHeap.Apart s.wakers d
  nodup : (s.heap.read d).Nodup
  members : ∀ i, i ∈ s.heap.read d ↔ s.taken i = some j
  sent : ∀ i ∈ (s.heap.read d).take k, s.sends i = 1
  unsent : ∀ i ∈ (s.heap.read d).drop k, s.sends i = 0

/-- What is known of a `WakeAll` in its phase. -/
def WakeAt (s : Idle) (j : Nat) : WakePhase → Prop
  | .before => ∀ i, s.taken i ≠ some j
  | .sending d k => Batch s j d k
  | .done => ∀ i, s.taken i = some j → s.sends i = 1

structure WakeInv (s : Idle) : Prop where
  valid : s.heap.Valid s.wakers
  nodup : s.live.Nodup
  live : ∀ i, i ∈ s.live ↔ (s.waits i).registered = true ∧ s.taken i = none
  early : ∀ i, s.waits i = .before → s.taken i = none
  calls : ∀ j, WakeAt s j (s.wakes j)
  untaken : ∀ i, s.taken i = none → s.sends i = 0
  buffer : ∀ i, s.buffer i ≤ s.sends i
  dropped : s.dropped = 0

theorem wakeInv_init (cfg : Config) : WakeInv (Idle.init cfg) where
  valid := SliceHeap.valid_nil _
  nodup := List.nodup_nil
  live := by
    intro i
    refine ⟨fun h => ?_, fun h => ?_⟩
    · cases h
    · cases h.1
  early := fun _ _ => rfl
  calls := by
    intro j i h
    cases h
  untaken := fun _ _ => rfl
  buffer := fun _ => Nat.le_refl 0
  dropped := rfl

section Steps

variable {cfg : Config} {s s' : Idle} {i j k : Nat} {d : SliceHeader}

/-- What a `WakeAll` took away stays as it is while the live slice is written. -/
theorem WakeAt.frame {ph : WakePhase} (h : WakeAt s j ph)
    (hheap : ∀ d, s.heap.Valid d → SliceHeap.Apart s.wakers d →
      s'.heap.Valid d ∧ SliceHeap.Apart s'.wakers d ∧ s'.heap.read d = s.heap.read d)
    (htaken : ∀ i, s'.taken i = some j ↔ s.taken i = some j)
    (hsends : ∀ i, s.taken i = some j → s'.sends i = s.sends i) : WakeAt s' j ph := by
  cases ph with
  | before =>
    intro i hi
    exact h i ((htaken i).mp hi)
  | done =>
    intro i hi
    have hold := (htaken i).mp hi
    rw [hsends i hold]
    exact h i hold
  | sending d k =>
    obtain ⟨hvalid, hapart, hread⟩ := hheap d h.valid h.apart
    have hmem : ∀ i ∈ s.heap.read d, s'.sends i = s.sends i :=
      fun i hi => hsends i ((h.members i).mp hi)
    refine ⟨hvalid, hapart, hread ▸ h.nodup, ?_, ?_, ?_⟩
    · intro i
      rw [hread, htaken]
      exact h.members i
    · intro i hi
      rw [hread] at hi
      rw [hmem i (List.mem_of_mem_take hi)]
      exact h.sent i hi
    · intro i hi
      rw [hread] at hi
      rw [hmem i (List.mem_of_mem_drop hi)]
      exact h.unsent i hi

/-- A step that writes no slice. -/
theorem WakeAt.of_same {ph : WakePhase} (h : WakeAt s j ph) (hheap : s'.heap = s.heap)
    (hwakers : s'.wakers = s.wakers) (htaken : s'.taken = s.taken)
    (hsends : ∀ i, s.taken i = some j → s'.sends i = s.sends i) : WakeAt s' j ph := by
  refine h.frame ?_ ?_ hsends
  · intro d hvalid hapart
    rw [hheap, hwakers]
    exact ⟨hvalid, hapart, rfl⟩
  · intro i
    rw [htaken]

theorem WakeInv.register (h : WakeInv s) (hi : s.waits i = .before) (draw : Fin (2 ^ 53))
    (spare : List Nat) : WakeInv (step cfg s (.register i draw spare)) := by
  have hread := SliceHeap.read_append h.valid i spare
  have hnew : i ∉ s.live := by
    intro hmem
    have hreg := ((h.live i).mp hmem).1
    rw [hi] at hreg
    cases hreg
  simp only [step, hi]
  refine ⟨SliceHeap.valid_append h.valid i spare, ?_, ?_, ?_, ?_, h.untaken, h.buffer, h.dropped⟩
  · show (SliceHeap.read _ _).Nodup
    rw [hread]
    exact List.nodup_append.mpr ⟨h.nodup, List.nodup_singleton i, fun a ha b hb => by
      rw [List.mem_singleton.mp hb]
      rintro rfl
      exact hnew ha⟩
  · intro a
    show a ∈ SliceHeap.read _ _ ↔ (Function.update s.waits i _ a).registered = true ∧ _
    rw [hread, List.mem_append, List.mem_singleton]
    by_cases ha : a = i
    · subst ha
      rw [Function.update_self]
      exact ⟨fun _ => ⟨rfl, h.early a hi⟩, fun _ => Or.inr rfl⟩
    · rw [Function.update_of_ne ha]
      exact ⟨fun hmem => (h.live a).mp (hmem.resolve_right ha),
        fun hreg => Or.inl ((h.live a).mpr hreg)⟩
  · intro a ha
    by_cases hai : a = i
    · rw [hai]
      exact h.early i hi
    · have ha' : Function.update s.waits i _ a = _ := ha
      rw [Function.update_of_ne hai] at ha'
      exact h.early a ha'
  · intro j
    refine (h.calls j).frame ?_ (fun _ => Iff.rfl) (fun _ _ => rfl)
    intro d hvalid hapart
    exact ⟨hvalid.append_of_apart hapart i spare, SliceHeap.apart_append hvalid hapart i spare,
      SliceHeap.read_append_of_apart hvalid hapart i spare⟩

/-- A call of `WaitOnce` that leaves the `select` is still registered. -/
theorem WakeInv.leave {delay : Int} (h : WakeInv s) (hi : s.waits i = .waiting delay)
    (hheap : s'.heap = s.heap) (hwakers : s'.wakers = s.wakers) (hwakes : s'.wakes = s.wakes)
    (htaken : s'.taken = s.taken) (hsends : s'.sends = s.sends)
    (hwaits : s'.waits = Function.update s.waits i .leaving)
    (hbuffer : ∀ a, s'.buffer a ≤ s.buffer a) (hdropped : s'.dropped = s.dropped) :
    WakeInv s' := by
  have hlive : s'.live = s.live := by
    rw [Idle.live, hheap, hwakers, Idle.live]
  have hreg : ∀ a, (s'.waits a).registered = (s.waits a).registered := by
    intro a
    rw [hwaits]
    by_cases ha : a = i
    · rw [ha, Function.update_self, hi]
      rfl
    · rw [Function.update_of_ne ha]
  refine ⟨?_, hlive ▸ h.nodup, ?_, ?_, ?_, ?_, ?_, hdropped.trans h.dropped⟩
  · rw [hheap, hwakers]
    exact h.valid
  · intro a
    rw [hlive, hreg, htaken]
    exact h.live a
  · intro a ha
    rw [htaken]
    rw [hwaits] at ha
    by_cases hai : a = i
    · rw [hai, Function.update_self] at ha
      cases ha
    · rw [Function.update_of_ne hai] at ha
      exact h.early a ha
  · intro j
    rw [hwakes]
    exact (h.calls j).of_same hheap hwakers htaken (fun a _ => congrFun hsends a)
  · intro a
    rw [htaken, hsends]
    exact h.untaken a
  · intro a
    rw [hsends]
    exact (hbuffer a).trans (h.buffer a)

theorem WakeInv.select (h : WakeInv s) (i : Nat) (reason : Reason) :
    WakeInv (step cfg s (.select i reason)) := by
  cases hi : s.waits i with
  | waiting delay =>
    cases reason with
    | timer | ctxDone =>
      simp only [step, hi]
      exact h.leave hi rfl rfl rfl rfl rfl rfl (fun _ => Nat.le_refl _) rfl
    | token =>
      simp only [step, hi]
      split
      · exact h
      · refine h.leave hi rfl rfl rfl rfl rfl rfl ?_ rfl
        intro a
        show Function.update s.buffer i _ a ≤ _
        by_cases ha : a = i
        · rw [ha, Function.update_self]
          exact Nat.sub_le _ _
        · rw [Function.update_of_ne ha]
  | _ =>
    simp only [step, hi]
    exact h

/-- The loop of the second section removes the channel, if it is still there. -/
theorem Idle.evict_spec (hvalid : s.heap.Valid s.wakers) (i : Nat) :
    (s.evict i).heap.Valid (s.evict i).wakers ∧ (s.evict i).live = s.live.erase i ∧
    (∀ d, s.heap.Valid d → SliceHeap.Apart s.wakers d →
      (s.evict i).heap.Valid d ∧ SliceHeap.Apart (s.evict i).wakers d ∧
        (s.evict i).heap.read d = s.heap.read d) := by
  have hlen : s.live.length = s.wakers.len := hvalid.length_read
  unfold Idle.evict
  dsimp only
  split
  · rename_i hk
    refine ⟨SliceHeap.valid_removeAt hvalid hk, ?_, ?_⟩
    · show SliceHeap.read _ _ = _
      rw [SliceHeap.read_removeAt hvalid hk]
      exact List.eraseIdx_idxOf_eq_erase i s.live
    · intro d hd hapart
      exact ⟨hd.removeAt_of_apart hapart _, SliceHeap.apart_removeAt hapart _,
        SliceHeap.read_removeAt_of_apart hapart _⟩
  · rename_i hk
    have hnot : i ∉ s.live := by
      intro hmem
      have hlt := List.idxOf_lt_length_iff.mpr hmem
      omega
    exact ⟨hvalid, (List.erase_of_not_mem hnot).symm, fun d hd hapart => ⟨hd, hapart, rfl⟩⟩

/-- It touches nothing else. -/
theorem Idle.evict_same (s : Idle) (i : Nat) :
    (s.evict i).taken = s.taken ∧ (s.evict i).sends = s.sends ∧ (s.evict i).buffer = s.buffer ∧
      (s.evict i).dropped = s.dropped ∧ (s.evict i).wakes = s.wakes := by
  unfold Idle.evict
  dsimp only
  split <;> exact ⟨rfl, rfl, rfl, rfl, rfl⟩

theorem Idle.evict_nominal (s : Idle) (i : Nat) : (s.evict i).nominal = s.nominal := by
  unfold Idle.evict
  dsimp only
  split <;> rfl

/-- A send touches its channel only. -/
theorem Idle.trySend_same (s : Idle) (i : Nat) :
    (s.trySend i).nominal = s.nominal ∧ (s.trySend i).heap = s.heap ∧
      (s.trySend i).taken = s.taken := by
  unfold Idle.trySend
  split <;> exact ⟨rfl, rfl, rfl⟩

theorem WakeInv.evict (h : WakeInv s) (hi : s.waits i = .leaving) :
    WakeInv (step cfg s (.evict i)) := by
  obtain ⟨hvalid, hlive, hframe⟩ := Idle.evict_spec h.valid i
  obtain ⟨htaken, hsends, hbuffer, hdropped, hwakes⟩ := s.evict_same i
  simp only [step, hi]
  refine ⟨hvalid, ?_, ?_, ?_, ?_, ?_, ?_, hdropped.trans h.dropped⟩
  · exact hlive ▸ h.nodup.erase i
  · intro a
    show a ∈ (s.evict i).live ↔ (Function.update s.waits i .done a).registered = true ∧
      (s.evict i).taken a = none
    rw [hlive, htaken, h.nodup.mem_erase_iff, h.live a]
    by_cases ha : a = i
    · rw [ha, Function.update_self]
      exact ⟨fun hne => absurd rfl hne.1, fun hreg => by cases hreg.1⟩
    · rw [Function.update_of_ne ha]
      exact ⟨fun hreg => hreg.2, fun hreg => ⟨ha, hreg⟩⟩
  · intro a ha
    show (s.evict i).taken a = none
    rw [htaken]
    by_cases hai : a = i
    · have ha' : Function.update s.waits i .done a = _ := ha
      rw [hai, Function.update_self] at ha'
      cases ha'
    · have ha' : Function.update s.waits i .done a = _ := ha
      rw [Function.update_of_ne hai] at ha'
      exact h.early a ha'
  · intro j
    show WakeAt _ j ((s.evict i).wakes j)
    rw [hwakes]
    refine (h.calls j).frame hframe ?_ ?_
    · intro a
      show (s.evict i).taken a = _ ↔ _
      rw [htaken]
    · intro a _
      exact congrFun hsends a
  · intro a ha
    show (s.evict i).sends a = 0
    rw [hsends]
    exact h.untaken a (htaken ▸ ha)
  · intro a
    show (s.evict i).buffer a ≤ (s.evict i).sends a
    rw [hbuffer, hsends]
    exact h.buffer a

/-- The section of `WakeAll` gives the slice to the call. -/
theorem WakeInv.detach (h : WakeInv s) (hj : s.wakes j = .before) :
    WakeInv (step cfg s (.detach j)) := by
  have hnone : ∀ a ∈ s.live, s.taken a = none := fun a ha => ((h.live a).mp ha).2
  simp only [step, hj]
  refine ⟨SliceHeap.valid_nil _, List.nodup_nil, ?_, ?_, ?_, ?_, h.buffer, h.dropped⟩
  · intro a
    show a ∈ [] ↔ _ ∧ (if a ∈ s.live then some j else s.taken a) = none
    refine ⟨fun hmem => absurd hmem List.not_mem_nil, ?_⟩
    rintro ⟨hreg, htaken⟩
    split at htaken
    · cases htaken
    · rename_i hnot
      exact absurd ((h.live a).mpr ⟨hreg, htaken⟩) hnot
  · intro a ha
    have hnot : a ∉ s.live := by
      intro hmem
      have hreg := ((h.live a).mp hmem).1
      rw [ha] at hreg
      cases hreg
    show (if a ∈ s.live then some j else s.taken a) = none
    rw [if_neg hnot]
    exact h.early a ha
  · intro j'
    show WakeAt _ j' (Function.update s.wakes j _ j')
    by_cases hjj : j' = j
    · subst hjj
      rw [Function.update_self]
      have hbefore := h.calls j'
      rw [hj] at hbefore
      refine ⟨h.valid, SliceHeap.apart_nil _, h.nodup, ?_, ?_, ?_⟩
      · intro a
        show a ∈ s.live ↔ (if a ∈ s.live then some j' else s.taken a) = some j'
        split
        · rename_i hmem
          exact ⟨fun _ => rfl, fun _ => hmem⟩
        · rename_i hnot
          exact ⟨fun hmem => absurd hmem hnot, fun htaken => absurd htaken (hbefore a)⟩
      · intro a ha
        rw [List.take_zero] at ha
        cases ha
      · intro a ha
        exact h.untaken a (hnone a ha)
    · rw [Function.update_of_ne hjj]
      refine (h.calls j').frame ?_ ?_ (fun _ _ => rfl)
      · intro d hvalid _
        exact ⟨hvalid, SliceHeap.apart_nil d, rfl⟩
      · intro a
        show (if a ∈ s.live then some j else s.taken a) = some j' ↔ _
        split
        · rename_i hmem
          rw [hnone a hmem]
          exact ⟨fun heq => absurd (Option.some.inj heq).symm hjj, fun heq => by cases heq⟩
        · exact Iff.rfl
  · intro a ha
    have ha' : (if a ∈ s.live then some j else s.taken a) = none := ha
    split at ha'
    · cases ha'
    · exact h.untaken a ha'

/-- The next channel of a slice, which has no token yet. -/
theorem Batch.next (h : Batch s j d k) (hget : (s.heap.read d)[k]? = some i) :
    s.taken i = some j ∧ s.sends i = 0 ∧
      (s.heap.read d).take (k + 1) = (s.heap.read d).take k ++ [i] ∧
      i ∉ (s.heap.read d).take k ∧ i ∉ (s.heap.read d).drop (k + 1) := by
  obtain ⟨hlt, heq⟩ := List.getElem?_eq_some_iff.mp hget
  have hdrop : (s.heap.read d).drop k = i :: (s.heap.read d).drop (k + 1) := by
    rw [List.drop_eq_getElem_cons hlt, heq]
  have hnodup := h.nodup
  rw [← List.take_append_drop k (s.heap.read d), hdrop] at hnodup
  obtain ⟨-, hcons, hdisj⟩ := List.nodup_append.mp hnodup
  refine ⟨(h.members i).mp (List.mem_of_getElem? hget), ?_, ?_, ?_, ?_⟩
  · apply h.unsent
    rw [hdrop]
    exact List.mem_cons_self
  · rw [List.take_add_one, hget]
    rfl
  · intro hmem
    exact hdisj i hmem i List.mem_cons_self rfl
  · exact (List.nodup_cons.mp hcons).1

/-- The slice after the token, with one channel more that has its token. -/
theorem Batch.send (h : Batch s j d k) (hget : (s.heap.read d)[k]? = some i) {s' : Idle}
    (hheap : s'.heap = s.heap) (hwakers : s'.wakers = s.wakers) (htaken : s'.taken = s.taken)
    (hsends : s'.sends = Function.update s.sends i (s.sends i + 1)) : Batch s' j d (k + 1) := by
  obtain ⟨-, hzero, htake, hntake, hndrop⟩ := h.next hget
  refine ⟨hheap ▸ h.valid, hwakers ▸ h.apart, hheap ▸ h.nodup, ?_, ?_, ?_⟩
  · intro a
    rw [hheap, htaken]
    exact h.members a
  · intro a ha
    rw [hheap, htake, List.mem_append, List.mem_singleton] at ha
    rw [hsends]
    rcases ha with ha | rfl
    · have hne : a ≠ i := fun heq => hntake (heq ▸ ha)
      rw [Function.update_of_ne hne]
      exact h.sent a ha
    · rw [Function.update_self, hzero]
  · intro a ha
    rw [hheap] at ha
    have hne : a ≠ i := fun heq => hndrop (heq ▸ ha)
    rw [hsends, Function.update_of_ne hne]
    refine h.unsent a ?_
    rw [← List.tail_drop] at ha
    exact List.mem_of_mem_tail ha

/-- The loop of `WakeAll` sends one token.  The buffer has room for it. -/
theorem WakeInv.sendToken (h : WakeInv s) (hj : s.wakes j = .sending d k)
    (hget : (s.heap.read d)[k]? = some i) : WakeInv (step cfg s (.send j)) := by
  have hbatch := h.calls j
  rw [hj] at hbatch
  have hbatch : Batch s j d k := hbatch
  obtain ⟨htaken, hzero, -, -, -⟩ := hbatch.next hget
  have hroom : s.buffer i = 0 := Nat.le_zero.mp (hzero ▸ h.buffer i)
  have hother : ∀ a, a ≠ i → Function.update s.sends i (s.sends i + 1) a = s.sends a :=
    fun a ha => Function.update_of_ne ha ..
  simp only [step, hj, hget, Idle.trySend, hroom, if_true]
  refine ⟨h.valid, h.nodup, h.live, h.early, ?_, ?_, ?_, h.dropped⟩
  · intro j'
    show WakeAt _ j' (Function.update s.wakes j _ j')
    by_cases hjj : j' = j
    · subst hjj
      rw [Function.update_self]
      exact hbatch.send hget rfl rfl rfl rfl
    · rw [Function.update_of_ne hjj]
      refine (h.calls j').of_same rfl rfl rfl ?_
      intro a ha
      refine hother a ?_
      rintro rfl
      rw [htaken] at ha
      exact hjj (Option.some.inj ha).symm
  · intro a ha
    show Function.update s.sends i (s.sends i + 1) a = 0
    rw [hother a (fun heq => by rw [heq, htaken] at ha; cases ha)]
    exact h.untaken a ha
  · intro a
    show Function.update s.buffer i 1 a ≤ Function.update s.sends i (s.sends i + 1) a
    by_cases ha : a = i
    · rw [ha, Function.update_self, Function.update_self]
      exact Nat.le_add_left _ _
    · rw [Function.update_of_ne ha, Function.update_of_ne ha]
      exact h.buffer a

/-- The loop of `WakeAll` is at its end: all channels have their token. -/
theorem WakeInv.sendEnd (h : WakeInv s) (hj : s.wakes j = .sending d k)
    (hget : (s.heap.read d)[k]? = none) : WakeInv (step cfg s (.send j)) := by
  have hbatch := h.calls j
  rw [hj] at hbatch
  have hbatch : Batch s j d k := hbatch
  simp only [step, hj, hget]
  refine ⟨h.valid, h.nodup, h.live, h.early, ?_, h.untaken, h.buffer, h.dropped⟩
  intro j'
  show WakeAt _ j' (Function.update s.wakes j .done j')
  by_cases hjj : j' = j
  · subst hjj
    rw [Function.update_self]
    intro a ha
    apply hbatch.sent
    rw [List.take_of_length_le (List.getElem?_eq_none_iff.mp hget)]
    exact (hbatch.members a).mpr ha
  · rw [Function.update_of_ne hjj]
    exact (h.calls j').of_same rfl rfl rfl (fun _ _ => rfl)

theorem WakeInv.send (h : WakeInv s) (hj : s.wakes j = .sending d k) :
    WakeInv (step cfg s (.send j)) := by
  cases hget : (s.heap.read d)[k]? with
  | none => exact h.sendEnd hj hget
  | some i => exact h.sendToken hj hget

theorem WakeInv.step (h : WakeInv s) (a : Action) : WakeInv (Backoff.step cfg s a) := by
  cases a with
  | register i draw spare =>
    cases hi : s.waits i with
    | before => exact h.register hi draw spare
    | _ =>
      simp only [Backoff.step, hi]
      exact h
  | select i reason => exact h.select i reason
  | evict i =>
    cases hi : s.waits i with
    | leaving => exact h.evict hi
    | _ =>
      simp only [Backoff.step, hi]
      exact h
  | detach j =>
    cases hj : s.wakes j with
    | before => exact h.detach hj
    | _ =>
      simp only [Backoff.step, hj]
      exact h
  | send j =>
    cases hj : s.wakes j with
    | sending d k => exact h.send hj
    | _ =>
      simp only [Backoff.step, hj]
      exact h

/-- What a `WakeAll` has taken is fixed from then on. -/
theorem WakeInv.step_taken (h : WakeInv s) (hj : s.wakes j ≠ .before) (a : Action) :
    (Backoff.step cfg s a).wakes j ≠ .before ∧
      ∀ i, (Backoff.step cfg s a).taken i = some j ↔ s.taken i = some j := by
  have hsame : s.wakes j ≠ .before ∧ ∀ i, s.taken i = some j ↔ s.taken i = some j :=
    ⟨hj, fun _ => Iff.rfl⟩
  cases a with
  | register i draw spare =>
    simp only [Backoff.step]
    split <;> exact hsame
  | select i reason =>
    simp only [Backoff.step]
    split
    · split
      · exact hsame
      · exact hsame
      · split <;> exact hsame
    · exact hsame
  | evict i =>
    obtain ⟨htaken, -, -, -, hwakes⟩ := s.evict_same i
    simp only [Backoff.step]
    split
    · rw [htaken, hwakes]
      exact hsame
    · exact hsame
  | detach j' =>
    cases hj' : s.wakes j' with
    | before =>
      have hne : j ≠ j' := by
        rintro rfl
        exact hj hj'
      simp only [Backoff.step, hj']
      refine ⟨?_, ?_⟩
      · rw [Function.update_of_ne hne]
        exact hj
      · intro i
        split
        · rename_i hmem
          rw [((h.live i).mp hmem).2]
          exact ⟨fun heq => absurd (Option.some.inj heq).symm hne, fun heq => by cases heq⟩
        · exact Iff.rfl
    | _ =>
      have hnoop : Backoff.step cfg s (.detach j') = s := by simp only [Backoff.step, hj']
      rw [hnoop]
      exact hsame
  | send j' =>
    have hkeep : ∀ ph : WakePhase, ph ≠ .before → Function.update s.wakes j' ph j ≠ .before := by
      intro ph hph
      by_cases hne : j = j'
      · rw [hne, Function.update_self]
        exact hph
      · rw [Function.update_of_ne hne]
        exact hj
    simp only [Backoff.step]
    split
    · split
      · refine ⟨hkeep _ (by simp), ?_⟩
        intro i
        show (Idle.trySend s _).taken i = _ ↔ _
        rw [(s.trySend_same _).2.2]
      · exact ⟨hkeep _ (by simp), fun _ => Iff.rfl⟩
    · exact hsame

/-- The loop of `WakeAll` never blocks: its own rounds bring it to the end. -/
theorem send_done (n : Nat) (hj : s.wakes j = .sending d k)
    (hlen : (s.heap.read d).length ≤ k + n) :
    ((List.replicate (n + 1) (Action.send j)).foldl (Backoff.step cfg) s).wakes j = .done := by
  induction n generalizing s k with
  | zero =>
    have hget : (s.heap.read d)[k]? = none := List.getElem?_eq_none_iff.mpr hlen
    show (Backoff.step cfg s (.send j)).wakes j = .done
    simp only [Backoff.step, hj, hget]
    exact Function.update_self ..
  | succ n ih =>
    rw [List.replicate_succ, List.foldl_cons]
    cases hget : (s.heap.read d)[k]? with
    | some i =>
      have hnext : Backoff.step cfg s (.send j) =
          { s.trySend i with wakes := Function.update s.wakes j (.sending d (k + 1)) } := by
        simp only [Backoff.step, hj, hget]
      have hheap := (s.trySend_same i).2.1
      rw [hnext]
      refine ih (Function.update_self ..) ?_
      show ((s.trySend i).heap.read d).length ≤ k + 1 + n
      rw [hheap]
      omega
    | none =>
      have hnext : Backoff.step cfg s (.send j) =
          { s with wakes := Function.update s.wakes j .done } := by
        simp only [Backoff.step, hj, hget]
      rw [hnext]
      -- The call has returned, and the other rounds do nothing.
      have hrest : ∀ a ∈ List.replicate (n + 1) (Action.send j), a = .send j :=
        fun a ha => List.eq_of_mem_replicate ha
      refine foldl_mem (fun s : Idle => s.wakes j = .done) ?_ (Function.update_self ..) hrest
      intro s a hdone ha
      rw [ha]
      simp only [Backoff.step, hdone]

end Steps

theorem reach_wakeInv (cfg : Config) (as : List Action) : WakeInv (reach cfg as) :=
  foldl_invariant WakeInv (fun _ a h => h.step a) (wakeInv_init _) as

/-- A channel gets at most one token, and that from the call that took it. -/
theorem WakeInv.sends_le {s : Idle} (h : WakeInv s) (i : Nat) :
    s.sends i ≤ 1 ∧ (s.sends i = 1 → ∃ j, s.taken i = some j) := by
  cases htaken : s.taken i with
  | none =>
    rw [h.untaken i htaken]
    exact ⟨Nat.zero_le _, fun heq => by cases heq⟩
  | some j =>
    refine ⟨?_, fun _ => ⟨j, rfl⟩⟩
    have hcall := h.calls j
    cases hj : s.wakes j with
    | before =>
      rw [hj] at hcall
      exact absurd htaken (hcall i)
    | done =>
      rw [hj] at hcall
      exact (hcall i htaken).le
    | sending d k =>
      rw [hj] at hcall
      have hbatch : Batch s j d k := hcall
      have hmem := (hbatch.members i).mpr htaken
      rw [← List.take_append_drop k (s.heap.read d)] at hmem
      rcases List.mem_append.mp hmem with hsent | hunsent
      · exact (hbatch.sent i hsent).le
      · rw [hbatch.unsent i hunsent]
        exact Nat.zero_le 1

/-- The `WakeAll` has begun, and has taken the channels of the list. -/
structure Took (j : Nat) (channels : List Nat) (s : Idle) : Prop where
  inv : WakeInv s
  begun : s.wakes j ≠ .before
  taken : ∀ i, s.taken i = some j ↔ i ∈ channels

theorem Took.step {cfg : Config} {j : Nat} {channels : List Nat} {s : Idle}
    (h : Took j channels s) (a : Action) : Took j channels (Backoff.step cfg s a) := by
  obtain ⟨hbegun, htaken⟩ := h.inv.step_taken h.begun a
  exact ⟨h.inv.step a, hbegun, fun i => (htaken i).trans (h.taken i)⟩

/-- The run of a `WakeAll` from the step in which it takes the mutex. -/
theorem detach_run (cfg : Config) (as bs : List Action) (j : Nat)
    (hj : (reach cfg as).wakes j = .before) :
    Took j (reach cfg as).live (reach cfg (as ++ .detach j :: bs)) := by
  have hinv := reach_wakeInv cfg as
  have hcall := hinv.calls j
  rw [hj] at hcall
  have hsplit : reach cfg (as ++ .detach j :: bs) =
      bs.foldl (step (newIdle cfg)) (step (newIdle cfg) (reach cfg as) (.detach j)) := by
    rw [reach, List.foldl_append, List.foldl_cons, reach]
  rw [hsplit]
  refine foldl_invariant (Took j (reach cfg as).live) (fun _ a h => h.step a) ?_ bs
  refine ⟨hinv.step (.detach j), ?_, ?_⟩
  · simp only [step, hj]
    rw [Function.update_self]
    simp
  · intro i
    simp only [step, hj]
    split
    · rename_i hmem
      exact ⟨fun _ => hmem, fun _ => rfl⟩
    · rename_i hnot
      exact ⟨fun htaken => absurd htaken (hcall i), fun hmem => absurd hmem hnot⟩

/-- Waking, for any number of calls of `WaitOnce` and `WakeAll` in any order.
`i.wakers` has exactly the channels that are registered and neither taken nor
evicted, each once; so it is empty when no call waits.  No token is dropped, and
a channel gets at most one, after a `WakeAll` has taken it.  A `WakeAll` takes
all registered channels and leaves none; when it returns, each of them has got
its token, and nothing keeps it from returning. -/
theorem wake_exact (cfg : Config) (as : List Action) :
    ((reach cfg as).live.Nodup ∧
      ∀ i, i ∈ (reach cfg as).live ↔
        ((reach cfg as).waits i).registered = true ∧ (reach cfg as).taken i = none) ∧
    ((∀ i, ((reach cfg as).waits i).registered = false) → (reach cfg as).live = []) ∧
    (reach cfg as).dropped = 0 ∧
    (∀ i, (reach cfg as).sends i ≤ 1 ∧
      ((reach cfg as).sends i = 1 → ∃ j, (reach cfg as).taken i = some j)) ∧
    ∀ j, (reach cfg as).wakes j = .before →
      (reach cfg (as ++ [.detach j])).live = [] ∧
      ∀ bs,
        (∀ i, (reach cfg (as ++ .detach j :: bs)).taken i = some j ↔ i ∈ (reach cfg as).live) ∧
        ((reach cfg (as ++ .detach j :: bs)).wakes j = .done →
          ∀ i ∈ (reach cfg as).live, (reach cfg (as ++ .detach j :: bs)).sends i = 1) ∧
        ∃ n, (reach cfg (as ++ .detach j :: bs ++ List.replicate n (.send j))).wakes j = .done := by
  have hinv := reach_wakeInv cfg as
  refine ⟨⟨hinv.nodup, hinv.live⟩, ?_, hinv.dropped, hinv.sends_le, ?_⟩
  · intro hquiet
    rw [List.eq_nil_iff_forall_not_mem]
    intro i hi
    have hreg := ((hinv.live i).mp hi).1
    rw [hquiet i] at hreg
    cases hreg
  · intro j hj
    refine ⟨?_, ?_⟩
    · rw [reach, List.foldl_append, ← reach]
      show (step (newIdle cfg) (reach cfg as) (.detach j)).live = []
      simp only [step, hj]
      rfl
    · intro bs
      have htook := detach_run cfg as bs j hj
      refine ⟨htook.taken, ?_, ?_⟩
      · intro hdone i hi
        have hcall := htook.inv.calls j
        rw [hdone] at hcall
        exact hcall i ((htook.taken i).mpr hi)
      · cases hphase : (reach cfg (as ++ .detach j :: bs)).wakes j with
        | before => exact absurd hphase htook.begun
        | done => exact ⟨0, by rw [List.replicate_zero, List.append_nil]; exact hphase⟩
        | sending d k =>
          refine ⟨((reach cfg (as ++ .detach j :: bs)).heap.read d).length + 1, ?_⟩
          rw [reach, List.foldl_append, ← reach]
          exact send_done _ hphase (Nat.le_add_left _ _)

end ImgSync.Backoff
