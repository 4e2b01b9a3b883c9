import Mathlib.Tactic

/-!
# Rows of a table

A table is a list of rows.  `updateWhere` is an `UPDATE ... SET ... WHERE`
statement: it rewrites the rows that the condition picks and keeps the others
in place.  The lemmas are about a table in which no row is picked, about tables
whose rows have distinct keys, and about the number of rows that a condition
picks.
-/

namespace ImgSync.Lib

variable {α β : Type*}

/-- `UPDATE ... SET f WHERE p`. -/
def updateWhere (p : α → Bool) (f : α → α) (rows : List α) : List α :=
  rows.map fun r => if p r then f r else r

/-- An update that picks no row changes nothing. -/
theorem updateWhere_eq_self {p : α → Bool} {f : α → α} {rows : List α}
    (h : ∀ r ∈ rows, p r = false) : updateWhere p f rows = rows := by
  rw [updateWhere]
  conv_rhs => rw [← List.map_id rows]
  refine List.map_congr_left fun r hr => ?_
  simp only [h r hr, Bool.false_eq_true, if_false, id_eq]

/-- With distinct keys, two rows under the same key are the same row. -/
theorem eq_of_key_eq {key : α → β} {rows : List α} (hn : (rows.map key).Nodup)
    {r r' : α} (hr : r ∈ rows) (hr' : r' ∈ rows) (hk : key r = key r') : r = r' :=
  List.inj_on_of_nodup_map hn hr hr' hk

/-- With distinct keys, the rows under one key are the one row that has it. -/
theorem filter_key_eq_singleton [DecidableEq β] {key : α → β} {rows : List α}
    (hn : (rows.map key).Nodup) {r : α} (hr : r ∈ rows) :
    rows.filter (fun x => key x == key r) = [r] := by
  induction rows with
  | nil => simp at hr
  | cons x rows ih =>
    rw [List.map_cons, List.nodup_cons] at hn
    rcases List.mem_cons.mp hr with rfl | hr'
    · have hnone : rows.filter (fun y => key y == key r) = [] := by
        rw [List.filter_eq_nil_iff]
        intro y hy hkey
        exact hn.1 (List.mem_map.mpr ⟨y, hy, by simpa using hkey⟩)
      simp [hnone]
    · have hne : key x ≠ key r := fun h => hn.1 (h ▸ List.mem_map_of_mem hr')
      simp [hne, ih hn.2 hr']

/-! ## Counting rows -/

theorem countP_or_le (p q : α → Bool) (rows : List α) :
    rows.countP (fun x => p x || q x) ≤ rows.countP p + rows.countP q := by
  induction rows with
  | nil => exact le_rfl
  | cons x rows ih =>
    rw [List.countP_cons, List.countP_cons, List.countP_cons]
    cases p x <;> cases q x <;> simp <;> omega

/-- A row that only the weaker condition picks makes a difference. -/
theorem countP_lt_countP {p q : α → Bool} {rows : List α} {x : α} (hx : x ∈ rows)
    (hq : q x = true) (hp : p x = false)
    (hle : ∀ y ∈ rows, p y = true → q y = true) : rows.countP p < rows.countP q := by
  obtain ⟨front, back, rfl⟩ := List.append_of_mem hx
  have hfront : front.countP p ≤ front.countP q :=
    List.countP_mono_left fun y hy => hle y (List.mem_append_left _ hy)
  have hback : back.countP p ≤ back.countP q :=
    List.countP_mono_left fun y hy => hle y (List.mem_append_right _ (List.mem_cons_of_mem _ hy))
  have hnot : ¬p x = true := by simp [hp]
  rw [List.countP_append, List.countP_append, List.countP_cons_of_neg hnot,
    List.countP_cons_of_pos hq]
  omega

end ImgSync.Lib
