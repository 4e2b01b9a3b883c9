import Mathlib.Tactic

/-!
# Replacing every match in one pass

A `Matcher` finds a match at the head of a text.  `replaceAll` goes through a
text from left to right, replaces every match that it meets and goes on behind
it, so a replacement is not read again.

* `replaceAll_induction`: the three ways in which the pass goes on;
* `replaceAll_eq_self_iff`: a text is left alone exactly if it has no match.
-/

namespace ImgSync.Lib

variable {β : Type*}

/-- A text up to its first character outside a class is unique. -/
theorem append_cons_inj {p : β → Bool} {x y r r' : List β} {a b : β} (hx : ∀ c ∈ x, p c = true)
    (hy : ∀ c ∈ y, p c = true) (ha : p a = false) (hb : p b = false)
    (h : x ++ a :: r = y ++ b :: r') : x = y ∧ a = b ∧ r = r' := by
  have htake := congrArg (List.takeWhile p) h
  rw [List.takeWhile_append_of_pos hx, List.takeWhile_append_of_pos hy,
    List.takeWhile_cons_of_neg (by simp [ha]), List.takeWhile_cons_of_neg (by simp [hb]),
    List.append_nil, List.append_nil] at htake
  subst htake
  exact ⟨rfl, List.cons.inj (List.append_cancel_left h)⟩

/-- A text is in a class, or has a first character outside. -/
theorem all_or_split (p : β → Bool) (l : List β) :
    (∀ c ∈ l, p c = true) ∨
      ∃ x a r, l = x ++ a :: r ∧ (∀ c ∈ x, p c = true) ∧ p a = false := by
  induction l with
  | nil => exact Or.inl (by simp)
  | cons c l ih =>
    by_cases hc : p c = true
    · rcases ih with hall | ⟨x, a, r, rfl, hx, ha⟩
      · exact Or.inl (by simpa [hc] using hall)
      · exact Or.inr ⟨c :: x, a, r, rfl, by simpa [hc] using hx, ha⟩
    · exact Or.inr ⟨[], c, l, rfl, by simp, by simpa using hc⟩

/-- A match at the head of a text: the replacement, and the text behind it. -/
structure Matcher (β : Type*) where
  find : List β → Option (List β × List β)
  shrinks : ∀ {s pre tail}, find s = some (pre, tail) → pre.length + tail.length < s.length

def replaceAll (m : Matcher β) : List β → List β
  | [] => []
  | c :: cs =>
    match h : m.find (c :: cs) with
    | some (pre, tail) =>
      have : tail.length ≤ cs.length := Nat.lt_succ_iff.mp (Nat.lt_of_add_left_lt (m.shrinks h))
      pre ++ replaceAll m tail
    | none => c :: replaceAll m cs
termination_by s => s.length

variable {m : Matcher β}

theorem replaceAll_nil : replaceAll m [] = [] := by rw [replaceAll]

theorem replaceAll_of_none {c : β} {cs : List β} (h : m.find (c :: cs) = none) :
    replaceAll m (c :: cs) = c :: replaceAll m cs := by
  rw [replaceAll]
  split
  · rename_i heq
    rw [h] at heq
    cases heq
  · rfl

theorem replaceAll_of_some {s pre tail : List β} (h : m.find s = some (pre, tail)) :
    replaceAll m s = pre ++ replaceAll m tail := by
  cases s with
  | nil => exact absurd (m.shrinks h) (Nat.not_lt_zero _)
  | cons c cs =>
    rw [replaceAll]
    split
    · rename_i heq
      rw [h] at heq
      cases heq
      rfl
    · rename_i heq
      rw [h] at heq
      cases heq

/-- The pass skips a character or goes on behind a match. -/
theorem replaceAll_induction (m : Matcher β) {P : List β → Prop} (nil : P [])
    (skip : ∀ c cs, m.find (c :: cs) = none → P cs → P (c :: cs))
    (found : ∀ s pre tail, m.find s = some (pre, tail) → P tail → P s) (s : List β) : P s := by
  induction hn : s.length using Nat.strong_induction_on generalizing s with
  | _ n ih =>
    cases s with
    | nil => exact nil
    | cons c cs =>
      subst hn
      cases hfind : m.find (c :: cs) with
      | none => exact skip c cs hfind (ih cs.length (Nat.lt_succ_self _) cs rfl)
      | some r =>
        have hlt : r.2.length < (c :: cs).length := Nat.lt_of_add_left_lt (m.shrinks hfind)
        exact found _ r.1 r.2 hfind (ih r.2.length hlt r.2 rfl)

theorem length_replaceAll_le (s : List β) : (replaceAll m s).length ≤ s.length := by
  induction s using replaceAll_induction m with
  | nil => rw [replaceAll_nil]
  | skip c cs hnone ih =>
    rw [replaceAll_of_none hnone]
    exact Nat.succ_le_succ ih
  | found s pre tail hsome ih =>
    have hlt := m.shrinks hsome
    rw [replaceAll_of_some hsome, List.length_append]
    omega

/-- No part of the text is a match. -/
def NoMatch (m : Matcher β) : List β → Prop
  | [] => True
  | c :: cs => m.find (c :: cs) = none ∧ NoMatch m cs

theorem NoMatch.find_eq {x s : List β} (h : NoMatch m (x ++ s)) (hs : s ≠ []) :
    m.find s = none := by
  induction x with
  | nil =>
    cases s with
    | nil => exact absurd rfl hs
    | cons c cs => exact h.1
  | cons c x ih => exact ih h.2

/-- A text is left alone exactly if no part of it is a match. -/
theorem replaceAll_eq_self_iff {s : List β} : replaceAll m s = s ↔ NoMatch m s := by
  induction s with
  | nil => exact iff_of_true replaceAll_nil trivial
  | cons c cs ih =>
    cases hfind : m.find (c :: cs) with
    | none =>
      rw [replaceAll_of_none hfind, NoMatch, ← ih, hfind]
      simp
    | some r =>
      have hlt := m.shrinks hfind
      have hle := length_replaceAll_le (m := m) r.2
      constructor
      · intro heq
        rw [replaceAll_of_some hfind] at heq
        have hlen := congrArg List.length heq
        rw [List.length_append] at hlen
        omega
      · intro hno
        rw [hno.1] at hfind
        cases hfind

end ImgSync.Lib
