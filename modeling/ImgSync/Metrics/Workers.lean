import ImgSync.Lib.Board
import ImgSync.Lib.Run
import ImgSync.Lib.Slots

/-!
# The gauge of active workers

`cmd/imgsync/worker.go` counts the workers in an atomic `int32`.  The callback
`OnWorkerStart` adds one, `OnWorkerStop` subtracts one, and both then load the
count and set the gauge `imgsync_workers_active` to what they have loaded.

The three are steps of their own.  Between the load and the set, the callbacks
of other workers can run, so that the older of two counts is set last
(`gauge_stale`).  As long as the newest count never overtakes an older one, the
gauge is right whenever no callback runs (`gauge_converges`).
-/

namespace ImgSync.Metrics

open ImgSync.Lib

inductive Callback where
  | onWorkerStart
  | onWorkerStop
  deriving DecidableEq, Repr

/-- Where a worker goroutine is. -/
inductive Phase where
  /-- Has not entered its loop. -/
  | new
  /-- Has added to the count. -/
  | added (cb : Callback)
  /-- Has loaded the count. -/
  | loaded (cb : Callback)
  /-- In its loop. -/
  | running
  /-- Has left its loop. -/
  | stopped
  deriving DecidableEq, Repr

/-- The phase after a callback. -/
def Callback.next : Callback → Phase
  | .onWorkerStart => .running
  | .onWorkerStop => .stopped

/-- The worker is in the count. -/
def Phase.counted : Phase → Bool
  | .added .onWorkerStart | .loaded .onWorkerStart | .running => true
  | _ => false

/-- The worker is in a callback. -/
def Phase.busy : Phase → Bool
  | .added _ | .loaded _ => true
  | _ => false

/-- The value of a sum in 32 bits. -/
def wrap32 (k : Int) : Int := k.bmod 4294967296

/-- `workersGauge`, the workers, and what they load and set. -/
structure Gauge (n : Nat) where
  count : Int
  phase : Fin n → Phase
  board : Board (Fin n) Int

inductive Action (n : Nat) where
  /-- `atomic.AddInt32`. -/
  | add (w : Fin n)
  /-- `atomic.LoadInt32`. -/
  | load (w : Fin n)
  /-- `SetWorkersActive`. -/
  | set (w : Fin n)

section Model

variable {n : Nat}

def Gauge.init (n : Nat) : Gauge n where
  count := 0
  phase := fun _ => .new
  board := .empty

def step (s : Gauge n) : Action n → Gauge n
  | .add w =>
    match s.phase w with
    | .new =>
      { s with
        count := wrap32 (s.count + 1)
        phase := Function.update s.phase w (.added .onWorkerStart) }
    | .running =>
      { s with
        count := wrap32 (s.count - 1)
        phase := Function.update s.phase w (.added .onWorkerStop) }
    | _ => s
  | .load w =>
    match s.phase w with
    | .added cb =>
      { s with
        phase := Function.update s.phase w (.loaded cb), board := s.board.take w s.count }
    | _ => s
  | .set w =>
    match s.phase w with
    | .loaded cb =>
      { s with phase := Function.update s.phase w cb.next, board := s.board.publish w }
    | _ => s

def reach (as : List (Action n)) : Gauge n := as.foldl step (Gauge.init n)

/-- The workers that have started and not stopped. -/
def Gauge.active (s : Gauge n) : Nat :=
  (Finset.univ.filter fun w => (s.phase w).counted).card

/-- The step sets the newest count while an older one is still to be set. -/
def overtaking (s : Gauge n) : Action n → Bool
  | .set w => s.board.overtakes w
  | _ => false

end Model

/-! ## The count -/

section Count

theorem wrap32_add (a b : Int) : wrap32 (wrap32 a + b) = wrap32 (a + b) := Int.bmod_add_bmod

theorem wrap32_of_lt {k : Nat} (h : k < 2 ^ 31) : wrap32 k = k := by
  apply Int.bmod_eq_of_le_mul_two
  · omega
  · omega

variable {n : Nat} {s : Gauge n}

/-- The count after one worker has changed its phase. -/
theorem active_update (w : Fin n) (ph : Phase) :
    (Finset.univ.filter fun k => (Function.update s.phase w ph k).counted).card +
        (if (s.phase w).counted then 1 else 0) =
      s.active + (if ph.counted then 1 else 0) :=
  card_filter_update Phase.counted s.phase w ph

theorem active_le (s : Gauge n) : s.active ≤ n :=
  (Finset.card_le_univ _).trans_eq (Fintype.card_fin n)

/-- Without a callback in progress, the counted workers are those in their
loop. -/
theorem active_eq (h : ∀ w, (s.phase w).busy = false) :
    s.active = (Finset.univ.filter fun w => s.phase w = .running).card := by
  unfold Gauge.active
  congr 1
  refine Finset.filter_congr fun w _ => ?_
  have hw := h w
  cases hph : s.phase w <;> simp_all [Phase.counted, Phase.busy]

/-- What the steps of the callbacks keep, as long as none overtakes another. -/
structure GaugeInv (s : Gauge n) : Prop where
  count : s.count = wrap32 s.active
  /-- The owners of a loaded count are in the middle of their callback. -/
  nodup : s.board.owners.Nodup
  owner : ∀ w, w ∈ s.board.owners ↔ ∃ cb, s.phase w = .loaded cb
  /-- The newest loaded count is the count, unless somebody has yet to load. -/
  newest : (∃ w cb, s.phase w = .added cb) ∨ s.board.newest = some s.count ∨
    s.board.newest = none ∧ ∀ w, s.phase w = .new

theorem gaugeInv_init : GaugeInv (Gauge.init n) where
  count := by
    have hzero : (Gauge.init n).active = 0 := by
      simp [Gauge.active, Gauge.init, Phase.counted]
    rw [hzero]
    rfl
  nodup := List.nodup_nil
  owner := by
    intro w
    simp [Gauge.init, Board.empty, Board.owners]
  newest := Or.inr (Or.inr ⟨rfl, fun _ => rfl⟩)

/-- An add of a worker that has nothing loaded. -/
theorem GaugeInv.add (h : GaugeInv s) {w : Fin n} {cb : Callback} {d : Int}
    (hold : ∀ cb, s.phase w ≠ .loaded cb)
    (hcount : s.active + d =
      ((Finset.univ.filter fun k =>
        (Function.update s.phase w (.added cb) k).counted).card : Int)) :
    GaugeInv { s with
      count := wrap32 (s.count + d), phase := Function.update s.phase w (.added cb) } where
  count := by
    show wrap32 (s.count + d) = _
    rw [h.count, wrap32_add, hcount]
    rfl
  nodup := h.nodup
  owner := by
    intro k
    rw [h.owner k]
    by_cases hk : k = w
    · subst hk
      simpa using hold
    · simp [Function.update_of_ne hk]
  newest := Or.inl ⟨w, cb, Function.update_self ..⟩

theorem GaugeInv.load (h : GaugeInv s) {w : Fin n} {cb : Callback} (hw : s.phase w = .added cb) :
    GaugeInv { s with
      phase := Function.update s.phase w (.loaded cb), board := s.board.take w s.count } where
  count := by
    have hact := active_update (s := s) w (.loaded cb)
    rw [hw] at hact
    have hsame : (Phase.loaded cb).counted = (Phase.added cb).counted := by cases cb <;> rfl
    rw [hsame] at hact
    rw [h.count, ← Nat.add_right_cancel hact]
    rfl
  nodup := by
    rw [Board.owners_take, List.nodup_append]
    refine ⟨h.nodup, List.nodup_singleton w, ?_⟩
    rintro k hk _ hk' rfl
    obtain ⟨cb', hcb⟩ := (h.owner k).mp hk
    rw [List.mem_singleton.mp hk', hw] at hcb
    cases hcb
  owner := by
    intro k
    rw [Board.owners_take, List.mem_append, List.mem_singleton, h.owner k]
    by_cases hk : k = w
    · subst hk
      simp
    · simp [hk]
  newest := Or.inr (Or.inl Board.newest_take)

theorem GaugeInv.set (h : GaugeInv s) {w : Fin n} {cb : Callback} (hw : s.phase w = .loaded cb)
    (horder : s.board.overtakes w = false) :
    GaugeInv { s with
      phase := Function.update s.phase w cb.next, board := s.board.publish w } where
  count := by
    have hact := active_update (s := s) w cb.next
    rw [hw] at hact
    have hsame : cb.next.counted = (Phase.loaded cb).counted := by cases cb <;> rfl
    rw [hsame] at hact
    rw [h.count, ← Nat.add_right_cancel hact]
    rfl
  nodup := by
    rw [Board.owners_publish]
    exact h.nodup.erase w
  owner := by
    intro k
    rw [Board.owners_publish, h.nodup.mem_erase_iff, h.owner k]
    by_cases hk : k = w
    · subst hk
      cases cb <;> simp [Callback.next]
    · simp [hk]
  newest := by
    rw [Board.newest_publish horder]
    rcases h.newest with ⟨k, cb', hk⟩ | hsome | ⟨-, hnew⟩
    · refine Or.inl ⟨k, cb', ?_⟩
      have hne : k ≠ w := by
        rintro rfl
        rw [hw] at hk
        cases hk
      exact (Function.update_of_ne hne ..).trans hk
    · exact Or.inr (Or.inl hsome)
    · have hcontra := hnew w
      rw [hw] at hcontra
      cases hcontra

theorem GaugeInv.step (h : GaugeInv s) {a : Action n} (horder : overtaking s a = false) :
    GaugeInv (step s a) := by
  cases a with
  | add w =>
    have hact := fun cb => active_update (s := s) w (.added cb)
    simp only [Metrics.step]
    split
    · rename_i hw
      have hone := hact .onWorkerStart
      rw [hw] at hone
      change _ + 0 = s.active + 1 at hone
      refine h.add (by simp [hw]) ?_
      omega
    · rename_i hw
      have hone := hact .onWorkerStop
      rw [hw] at hone
      change _ + 1 = s.active + 0 at hone
      refine h.add (d := -1) (by simp [hw]) ?_
      omega
    · exact h
  | load w =>
    simp only [Metrics.step]
    split
    · rename_i cb hw
      exact h.load hw
    · exact h
  | set w =>
    simp only [Metrics.step]
    split
    · rename_i cb hw
      exact h.set hw horder
    · exact h

end Count

/-- For every number of workers that fits an `int32`: if the newest count never
overtakes an older one, the gauge shows the number of active workers whenever no
callback is in progress. -/
theorem gauge_converges {n : Nat} (hn : n < 2 ^ 31) (as : List (Action n))
    (horder : ∀ before a after, as = before ++ a :: after → overtaking (reach before) a = false)
    (hquiet : ∀ w, ((reach as).phase w).busy = false) {v : Int}
    (hv : (reach as).board.shown = some v) :
    v = (Finset.univ.filter fun w => (reach as).phase w = .running).card := by
  have hinv : GaugeInv (reach as) :=
    foldl_all GaugeInv (fun _ _ h hok => h.step hok) gaugeInv_init (allSteps_iff.mpr horder)
  have howed : (reach as).board.owed = [] := by
    rw [← List.map_eq_nil_iff, List.eq_nil_iff_forall_not_mem]
    intro w hw
    obtain ⟨cb, hcb⟩ := (hinv.owner w).mp hw
    have hbusy := hquiet w
    rw [hcb] at hbusy
    cases hbusy
  rcases hinv.newest with ⟨w, cb, hcb⟩ | hsome | ⟨hnone, -⟩
  · have hbusy := hquiet w
    rw [hcb] at hbusy
    cases hbusy
  · rw [Board.newest_of_owed_nil howed, hv, hinv.count, active_eq hquiet] at hsome
    rw [Option.some.inj hsome]
    exact wrap32_of_lt (lt_of_le_of_lt ((active_eq hquiet).symm.le.trans (active_le _)) hn)
  · rw [Board.newest_of_owed_nil howed, hv] at hnone
    cases hnone

/-- Two workers start one after the other. -/
theorem gauge_converges_two :
    (reach (n := 2) [.add 0, .load 0, .set 0, .add 1, .load 1, .set 1]).board.shown = some 2 ∧
    (2 : Int) = (Finset.univ.filter fun w =>
      (reach (n := 2) [.add 0, .load 0, .set 0, .add 1, .load 1, .set 1]).phase w =
        .running).card := by
  have hsteps : AllSteps step (fun s a => overtaking s a = false) (Gauge.init 2)
      [.add 0, .load 0, .set 0, .add 1, .load 1, .set 1] := by
    simp only [AllSteps]
    decide
  exact ⟨by decide, gauge_converges (by decide) _ (allSteps_iff.mp hsteps) (by decide) (by decide)⟩

/-- Two workers start at the same time.  The first sets its count after the
second, and the gauge stays at one. -/
theorem gauge_stale :
    (reach (n := 2) [.add 0, .load 0, .add 1, .load 1, .set 1, .set 0]).phase 0 = .running ∧
    (reach (n := 2) [.add 0, .load 0, .add 1, .load 1, .set 1, .set 0]).phase 1 = .running ∧
    (reach (n := 2) [.add 0, .load 0, .add 1, .load 1, .set 1, .set 0]).count = 2 ∧
    (reach (n := 2) [.add 0, .load 0, .add 1, .load 1, .set 1, .set 0]).board.shown = some 1 := by
  decide

end ImgSync.Metrics
