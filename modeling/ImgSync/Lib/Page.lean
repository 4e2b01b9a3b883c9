import Mathlib.Tactic

/-!
# A page of a sorted selection

`page key p n l` is `SELECT ... WHERE p ORDER BY key LIMIT n` over the list
`l`.  The reader of a page remembers the key of the last element.  When the
keys are distinct, that key separates what the page holds from what it leaves
for later: `mem_page_of_le`.  The selection above that key is then the rest of
the selection behind the page, in the same order: `selection_above`.
-/

namespace ImgSync.Lib

variable {α κ : Type*} [LinearOrder κ]

/-- The first `n` elements that satisfy `p`, in the order of their keys. -/
def page (key : α → κ) (p : α → Bool) (n : Nat) (l : List α) : List α :=
  ((l.filter p).mergeSort fun a b => decide (key a ≤ key b)).take n

variable {key : α → κ} {p : α → Bool} {n : Nat} {l : List α} {x z : α}

theorem mem_of_mem_page (h : x ∈ page key p n l) : x ∈ l ∧ p x = true := by
  have hsort := List.mem_of_mem_take h
  rw [List.mem_mergeSort] at hsort
  exact List.mem_filter.mp hsort

theorem sorted_selection (key : α → κ) (p : α → Bool) (l : List α) :
    ((l.filter p).mergeSort fun a b => decide (key a ≤ key b)).Pairwise
      fun a b => key a ≤ key b := by
  have h := @List.pairwise_mergeSort α (fun a b => decide (key a ≤ key b))
    (by simpa using fun a b c => le_trans) (by simpa using fun a b => le_total (key a) (key b))
    (l.filter p)
  simpa using h

/-- Everything up to the last key of a page is in the page. -/
theorem mem_page_of_le (hinj : ∀ a ∈ l, ∀ b ∈ l, key a = key b → a = b) (hx : x ∈ l)
    (hp : p x = true) (hz : z ∈ page key p n l) (hle : key x ≤ key z) : x ∈ page key p n l := by
  unfold page at hz ⊢
  generalize hs : (l.filter p).mergeSort (fun a b => decide (key a ≤ key b)) = s at hz ⊢
  have hsorted : s.Pairwise fun a b => key a ≤ key b := hs ▸ sorted_selection key p l
  have hmem : ∀ y, y ∈ s ↔ y ∈ l ∧ p y = true := by
    intro y
    rw [← hs, List.mem_mergeSort, List.mem_filter]
  have hxs : x ∈ s.take n ++ s.drop n := by
    rw [List.take_append_drop]
    exact (hmem x).mpr ⟨hx, hp⟩
  rcases List.mem_append.mp hxs with hin | hlater
  · exact hin
  · -- An element behind the page is not below its last key, so it ties with it.
    rw [← List.take_append_drop n s, List.pairwise_append] at hsorted
    have hge : key z ≤ key x := hsorted.2.2 z hz x hlater
    have hzl := ((hmem z).mp (List.mem_of_mem_take hz)).1
    have heq : x = z := hinj x hx z hzl (le_antisymm hle hge)
    exact heq ▸ hz

/-! ## What a page leaves -/

/-- All elements that satisfy `p`, in the order of their keys. -/
def selection (key : α → κ) (p : α → Bool) (l : List α) : List α :=
  (l.filter p).mergeSort fun a b => decide (key a ≤ key b)

theorem page_eq_take (key : α → κ) (p : α → Bool) (n : Nat) (l : List α) :
    page key p n l = (selection key p l).take n := rfl

theorem perm_selection (key : α → κ) (p : α → Bool) (l : List α) :
    (selection key p l).Perm (l.filter p) :=
  List.mergeSort_perm _ _

theorem mem_selection : x ∈ selection key p l ↔ x ∈ l ∧ p x = true := by
  rw [selection, List.mem_mergeSort, List.mem_filter]

/-- Distinct keys are in strict order. -/
theorem selection_strict (hnodup : (l.map key).Nodup) :
    (selection key p l).Pairwise fun a b => key a < key b := by
  have hne : (selection key p l).Pairwise fun a b => key a ≠ key b := by
    have hfilter : ((l.filter p).map key).Nodup := hnodup.sublist (List.filter_sublist.map _)
    exact List.pairwise_map.mp (((perm_selection key p l).map key).nodup_iff.mpr hfilter)
  exact ((sorted_selection key p l).and hne).imp fun h => lt_of_le_of_ne h.1 h.2

/-- A further condition filters the selection. -/
theorem selection_and (hnodup : (l.map key).Nodup) (q : α → Bool) :
    selection key (fun x => p x && q x) l = (selection key p l).filter q := by
  refine @List.Perm.eq_of_pairwise α (fun a b => key a ≤ key b) _ _ ?_
    (sorted_selection key _ l) ((sorted_selection key p l).filter q) ?_
  · intro a b ha hb hab hba
    have hal := (mem_selection.mp ha).1
    have hbl := (mem_selection.mp (List.mem_of_mem_filter hb)).1
    exact List.inj_on_of_nodup_map hnodup hal hbl (le_antisymm hab hba)
  · have hfilter : l.filter (fun x => p x && q x) = (l.filter p).filter q := by
      rw [List.filter_filter]
      exact List.filter_congr fun x _ => Bool.and_comm _ _
    exact (perm_selection key _ l).trans (hfilter ▸ ((perm_selection key p l).filter q).symm)

/-- What a condition that goes downwards leaves of a sorted list is a front
part of it. -/
theorem filter_eq_take {s : List α} (hs : s.Pairwise fun a b => key a ≤ key b) {q : α → Bool}
    (hq : ∀ a b, key a ≤ key b → q b = true → q a = true) :
    s.filter q = s.take (s.countP q) := by
  induction s with
  | nil => rfl
  | cons a s ih =>
    obtain ⟨hle, hs⟩ := List.pairwise_cons.mp hs
    by_cases ha : q a = true
    · rw [List.filter_cons_of_pos ha, List.countP_cons_of_pos ha, List.take_succ_cons, ih hs]
    · have hnone : ∀ b ∈ s, ¬q b = true := fun b hb h => ha (hq a b (hle b hb) h)
      rw [List.filter_cons_of_neg ha, List.countP_cons_of_neg ha,
        List.filter_eq_nil_iff.mpr hnone, List.countP_eq_zero.mpr hnone, List.take_zero]

theorem drop_min_length (n : Nat) (l : List α) : l.drop (min n l.length) = l.drop n := by
  rcases Nat.le_total n l.length with hle | hle
  · rw [Nat.min_eq_left hle]
  · rw [Nat.min_eq_right hle, List.drop_length, List.drop_of_length_le hle]

/-- The last element of a page separates it from the rest. -/
theorem selection_above {p' : α → Bool} (hnodup : (l.map key).Nodup)
    (hz : ((selection key p l).take n).getLast? = some z)
    (hp' : ∀ x ∈ l, p' x = true ↔ p x = true ∧ key z < key x) :
    selection key p' l = (selection key p l).drop n := by
  have hcut := selection_strict (p := p) hnodup
  rw [← List.take_append_drop n (selection key p l), List.pairwise_append] at hcut
  obtain ⟨htake, -, hacross⟩ := hcut
  have hand : selection key p' l = selection key (fun x => p x && decide (key z < key x)) l := by
    rw [selection, selection]
    congr 1
    refine List.filter_congr fun x hx => Bool.eq_iff_iff.mpr ?_
    rw [hp' x hx, Bool.and_eq_true, decide_eq_true_eq]
  -- Above the last key of the page there is the rest, and nothing of the page.
  rw [hand, selection_and hnodup]
  conv_lhs => rw [← List.take_append_drop n (selection key p l)]
  rw [List.filter_append, List.filter_eq_nil_iff.mpr, List.nil_append, List.filter_eq_self]
  · intro x hx
    exact decide_eq_true (hacross z (List.mem_of_getLast? hz) x hx)
  · intro x hx
    obtain ⟨front, hfront⟩ := List.getLast?_eq_some_iff.mp hz
    rw [hfront, List.pairwise_append] at htake
    rw [hfront, List.mem_append, List.mem_singleton] at hx
    rcases hx with hx | rfl
    · simpa using (htake.2.2 x hx z (List.mem_singleton_self z)).le
    · simp

end ImgSync.Lib
