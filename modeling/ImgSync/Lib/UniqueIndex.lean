import ImgSync.Lib.Slots

/-!
# A unique index under concurrent transactions

A unique index of a database also covers the rows of transactions that are
still open: an insert waits for an open transaction that has its key.
`UniqueIndex committed pending` is what the index guarantees, where `pending i`
are the values that the transaction `i` has put in and not committed.

A transaction adds a value that nobody has (`add`), drops values
(`sublist`), or moves all of them to the committed ones (`commit`).
-/

namespace ImgSync.Lib

variable {ι α : Type*}

structure UniqueIndex (committed : List α) (pending : ι → List α) : Prop where
  nodup : committed.Nodup
  own : ∀ i, (pending i).Nodup
  new : ∀ i, ∀ x ∈ pending i, x ∉ committed
  apart : ∀ i j, i ≠ j → ∀ x ∈ pending i, x ∉ pending j

namespace UniqueIndex

variable {committed : List α} {pending : ι → List α} [DecidableEq ι] {i : ι} {x : α}

omit [DecidableEq ι] in
theorem empty (h : committed.Nodup) : UniqueIndex committed fun _ : ι => ([] : List α) where
  nodup := h
  own _ := List.nodup_nil
  new _ _ hx := by cases hx
  apart _ _ _ _ hx := by cases hx

/-- Replace what one transaction has put in, by values that nobody else has. -/
theorem replace (h : UniqueIndex committed pending) {l : List α} (hl : l.Nodup)
    (hnew : ∀ x ∈ l, x ∉ committed) (hapart : ∀ j, j ≠ i → ∀ x ∈ l, x ∉ pending j) :
    UniqueIndex committed (Function.update pending i l) where
  nodup := h.nodup
  own := (Function.forall_update_iff pending fun _ l => l.Nodup).mpr ⟨hl, fun j _ => h.own j⟩
  new := (Function.forall_update_iff pending fun _ l => ∀ x ∈ l, x ∉ committed).mpr
    ⟨hnew, fun j _ => h.new j⟩
  apart := pairwise_update (R := fun l l' => ∀ x ∈ l, x ∉ l') (fun _ _ h x hx hx' => h x hx' hx)
    h.apart hapart

theorem sublist (h : UniqueIndex committed pending) {l : List α} (hl : l.Sublist (pending i)) :
    UniqueIndex committed (Function.update pending i l) :=
  h.replace ((h.own i).sublist hl) (fun x hx => h.new i x (hl.subset hx))
    (fun j hj x hx => h.apart i j hj.symm x (hl.subset hx))

theorem add (h : UniqueIndex committed pending) (hx : x ∉ committed)
    (hfree : ∀ j, x ∉ pending j) :
    UniqueIndex committed (Function.update pending i (pending i ++ [x])) := by
  refine h.replace ?_ ?_ ?_
  · exact List.nodup_append.mpr ⟨h.own i, List.nodup_singleton x, fun a ha b hb hab =>
      hfree i (by rwa [← List.mem_singleton.mp hb, ← hab])⟩
  · intro y hy
    rcases List.mem_append.mp hy with hy | hy
    · exact h.new i y hy
    · rwa [List.mem_singleton.mp hy]
  · intro j hj y hy
    rcases List.mem_append.mp hy with hy | hy
    · exact h.apart i j hj.symm y hy
    · rw [List.mem_singleton.mp hy]
      exact hfree j

theorem commit (h : UniqueIndex committed pending) :
    UniqueIndex (committed ++ pending i) (Function.update pending i []) where
  nodup := List.nodup_append.mpr ⟨h.nodup, h.own i, fun a ha b hb hab =>
    h.new i b hb (hab ▸ ha)⟩
  own := (h.sublist (List.nil_sublist _)).own
  new := by
    refine (Function.forall_update_iff pending fun _ l => ∀ x ∈ l, x ∉ committed ++ pending i).mpr
      ⟨fun x hx => absurd hx List.not_mem_nil, fun j hj x hx hmem => ?_⟩
    rcases List.mem_append.mp hmem with hmem | hmem
    · exact h.new j x hx hmem
    · exact h.apart j i hj x hx hmem
  apart := (h.sublist (List.nil_sublist _)).apart

end UniqueIndex

end ImgSync.Lib
