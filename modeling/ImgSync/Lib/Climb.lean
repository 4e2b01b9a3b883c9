import Mathlib.Tactic

/-!
# Climbing to a cap

A function that takes a positive value at least to its double, or else to a cap,
and never above the cap.  `Climbs` says no more than that about it, so the
function may jump as it likes in between.

Below the cap it grows (`Climbs.lt`), and at the cap it stays (`Climbs.at_cap`).
Its iterates are at least as large as those of the doubling, up to the cap
(`Climbs.iterate_ge`), so a known number of them reaches it
(`Climbs.iterate_eq_cap`).
-/

namespace ImgSync.Lib

variable {α : Type*} [CommRing α] [LinearOrder α] [IsStrictOrderedRing α]

structure Climbs (cap : α) (f : α → α) : Prop where
  doubles : ∀ x, 0 < x → x ≤ cap → min (2 * x) cap ≤ f x
  le_cap : ∀ x, 0 < x → x ≤ cap → f x ≤ cap

namespace Climbs

variable {cap x : α} {f : α → α}

theorem lt (h : Climbs cap f) (hpos : 0 < x) (hlt : x < cap) : x < f x := by
  have hdouble : x < 2 * x := by linarith
  exact (lt_min hdouble hlt).trans_le (h.doubles x hpos hlt.le)

theorem at_cap (h : Climbs cap f) (hpos : 0 < cap) : f cap = cap := by
  have hdouble := h.doubles cap hpos le_rfl
  rw [min_eq_right (by linarith)] at hdouble
  exact le_antisymm (h.le_cap cap hpos le_rfl) hdouble

theorem le (h : Climbs cap f) (hpos : 0 < x) (hle : x ≤ cap) : x ≤ f x := by
  rcases hle.lt_or_eq with hlt | heq
  · exact (h.lt hpos hlt).le
  · rw [heq] at hpos ⊢
    exact (h.at_cap hpos).ge

/-- The iterates stay between the first value and the cap. -/
theorem iterate_mem (h : Climbs cap f) (hpos : 0 < x) (hle : x ≤ cap) (k : Nat) :
    x ≤ f^[k] x ∧ f^[k] x ≤ cap := by
  induction k with
  | zero => exact ⟨le_rfl, hle⟩
  | succ k ih =>
    obtain ⟨hlow, hhigh⟩ := ih
    have hpos' : 0 < f^[k] x := hpos.trans_le hlow
    rw [Function.iterate_succ_apply']
    exact ⟨hlow.trans (h.le hpos' hhigh), h.le_cap _ hpos' hhigh⟩

theorem iterate_ge (h : Climbs cap f) (hpos : 0 < x) (hle : x ≤ cap) (k : Nat) :
    min (x * 2 ^ k) cap ≤ f^[k] x := by
  induction k with
  | zero =>
    rw [pow_zero, mul_one]
    exact min_le_left _ _
  | succ k ih =>
    obtain ⟨hlow, hhigh⟩ := h.iterate_mem hpos hle k
    rw [Function.iterate_succ_apply']
    refine le_trans ?_ (h.doubles _ (hpos.trans_le hlow) hhigh)
    refine le_min ?_ (min_le_right _ _)
    -- Either the doubling is below the cap so far, or the iterate is at the cap.
    rcases min_le_iff.mp ih with hdouble | hcap
    · calc min (x * 2 ^ (k + 1)) cap ≤ x * 2 ^ (k + 1) := min_le_left _ _
        _ = 2 * (x * 2 ^ k) := by ring
        _ ≤ 2 * f^[k] x := by linarith
    · calc min (x * 2 ^ (k + 1)) cap ≤ cap := min_le_right _ _
        _ ≤ 2 * f^[k] x := by linarith

theorem iterate_eq_cap (h : Climbs cap f) (hpos : 0 < x) (hle : x ≤ cap) {k : Nat}
    (hk : cap ≤ x * 2 ^ k) : f^[k] x = cap := by
  have hge := h.iterate_ge hpos hle k
  rw [min_eq_right hk] at hge
  exact le_antisymm (h.iterate_mem hpos hle k).2 hge

end Climbs

end ImgSync.Lib
