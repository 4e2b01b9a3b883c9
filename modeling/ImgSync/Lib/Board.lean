import Mathlib.Tactic

/-!
# Snapshots that are published later

Several owners read a value that changes, and publish what they have read in a
later step.  A `Board` has the snapshots that are taken and not yet published,
oldest first, and the one that was published last.

`newest` is the snapshot that was taken last, published or not.  Publishing
keeps it (`newest_publish`), unless the newest snapshot overtakes an older one:
then the older one comes out last.  When nothing is owed, the newest snapshot is
the one that is shown.
-/

namespace ImgSync.Lib

structure Board (ι α : Type*) where
  owed : List (ι × α)
  shown : Option α

namespace Board

variable {ι α : Type*} {b : Board ι α} {i : ι} {v : α}

def empty : Board ι α := ⟨[], none⟩

/-- The owner `i` reads the value `v`. -/
def take (b : Board ι α) (i : ι) (v : α) : Board ι α := { b with owed := b.owed ++ [(i, v)] }

/-- The owners of the snapshots that are still to be published. -/
def owners (b : Board ι α) : List ι := b.owed.map Prod.fst

/-- The snapshot that was taken last. -/
def newest (b : Board ι α) : Option α := (b.owed.getLast?.map Prod.snd).or b.shown

@[simp]
theorem owners_take : (b.take i v).owners = b.owners ++ [i] := List.map_append

@[simp]
theorem newest_take : (b.take i v).newest = some v := by
  simp [newest, take]

theorem newest_of_owed_nil (h : b.owed = []) : b.newest = b.shown := by
  simp [newest, h]

variable [DecidableEq ι]

/-- The owner `i` publishes its snapshot. -/
def publish (b : Board ι α) (i : ι) : Board ι α :=
  match b.owed.find? fun e => e.1 == i with
  | some e => ⟨b.owed.eraseP fun e => e.1 == i, some e.2⟩
  | none => b

/-- The snapshot of `i` is the newest, and an older one is still owed. -/
def overtakes (b : Board ι α) (i : ι) : Bool :=
  decide (b.owners.getLast? = some i) && decide (2 ≤ b.owed.length)

theorem map_fst_eraseP (l : List (ι × α)) (i : ι) :
    (l.eraseP fun e => e.1 == i).map Prod.fst = (l.map Prod.fst).erase i := by
  induction l with
  | nil => rfl
  | cons e l ih =>
    rw [List.map_cons, List.erase_cons, List.eraseP_cons]
    cases e.1 == i with
    | true => rfl
    | false =>
      rw [← ih]
      rfl

@[simp]
theorem owners_publish : (b.publish i).owners = b.owners.erase i := by
  unfold publish
  split
  · exact map_fst_eraseP b.owed i
  · rename_i hnone
    have hnot : i ∉ b.owners := by
      intro hmem
      obtain ⟨e, he, rfl⟩ := List.mem_map.mp hmem
      exact absurd (List.find?_eq_none.mp hnone e he) (by simp)
    exact (List.erase_of_not_mem hnot).symm

/-- Publishing keeps the newest snapshot, unless it overtakes another. -/
theorem newest_publish (h : b.overtakes i = false) : (b.publish i).newest = b.newest := by
  unfold publish
  split
  · rename_i e hfind
    obtain ⟨hi, before, after, howed, hbefore⟩ := List.find?_eq_some_iff_append.mp hfind
    have herase : b.owed.eraseP (fun e => e.1 == i) = before ++ after := by
      rw [howed, List.eraseP_append_right _ (by simpa using hbefore),
        List.eraseP_cons, hi, cond_true]
    rw [newest, newest, herase, howed]
    cases after with
    | cons x after =>
      rw [List.getLast?_append_of_ne_nil _ (List.cons_ne_nil _ _),
        List.getLast?_append_of_ne_nil _ (List.cons_ne_nil _ _), List.getLast?_cons_cons,
        List.getLast?_cons, Option.map_some, Option.some_or, Option.some_or]
    | nil =>
      -- The newest one is published, so it is the only one.
      have halone : before = [] := by
        simp only [overtakes, owners, howed, List.map_append, List.map_cons, List.map_nil,
          List.getLast?_concat, Bool.and_eq_false_iff, decide_eq_false_iff_not] at h
        simp only [beq_iff_eq] at hi
        rcases h with hlast | hlen
        · exact absurd (congrArg some hi) hlast
        · rw [List.length_append, List.length_singleton] at hlen
          exact List.length_eq_zero_iff.mp (by omega)
      simp [halone]
  · rfl

end Board

end ImgSync.Lib
