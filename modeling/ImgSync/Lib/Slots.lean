import Mathlib.Tactic

/-!
# Replacing one entry of a list

A list of slots changes one slot at a time: `l.set i b`.  Both the old and
the new list are, up to order, the slot in front of the other slots
`l.eraseIdx i`.  What is invariant under permutation (a count, a selection)
can therefore be compared slot by slot.

The last section has the slots in a function, `Function.update f i b`: what
holds between any two slots, and counts on a finite type.  `countP_le_card`
bounds a count by a set of indices.
-/

namespace ImgSync.Lib

variable {α β : Type*} {l : List α} {i : Nat} {a : α}

theorem perm_slot (h : l[i]? = some a) : l.Perm (a :: l.eraseIdx i) := by
  obtain ⟨hi, rfl⟩ := List.getElem?_eq_some_iff.mp h
  exact (List.getElem_cons_eraseIdx_perm hi).symm

theorem set_perm_slot (h : l[i]? = some a) (b : α) : (l.set i b).Perm (b :: l.eraseIdx i) := by
  obtain ⟨hi, _⟩ := List.getElem?_eq_some_iff.mp h
  exact List.set_perm_cons_eraseIdx hi b

/-- What is in a slot after one slot has changed. -/
theorem getElem?_set_cases {j : Nat} {b x : α} (h : (l.set i b)[j]? = some x) :
    j = i ∧ x = b ∨ j ≠ i ∧ l[j]? = some x := by
  by_cases hj : j = i
  · subst hj
    have hlt : j < l.length := by
      have hlt := (List.getElem?_eq_some_iff.mp h).1
      rwa [List.length_set] at hlt
    rw [List.getElem?_set_self hlt] at h
    exact Or.inl ⟨rfl, (Option.some.inj h).symm⟩
  · rw [List.getElem?_set_ne (Ne.symm hj)] at h
    exact Or.inr ⟨hj, h⟩

/-- What is in a slot after one slot was added. -/
theorem getElem?_concat_cases {j : Nat} {b x : α} (h : (l ++ [b])[j]? = some x) :
    l[j]? = some x ∨ j = l.length ∧ x = b := by
  rcases lt_or_ge j l.length with hlt | hge
  · rw [List.getElem?_append_left hlt] at h
    exact Or.inl h
  · rw [List.getElem?_append_right hge, List.getElem?_singleton] at h
    split at h
    · exact Or.inr ⟨by omega, (Option.some.inj h).symm⟩
    · cases h

/-- A count over the slots, the slot `i` apart. -/
theorem countP_slot (p : α → Bool) (h : l[i]? = some a) :
    l.countP p = (l.eraseIdx i).countP p + (if p a then 1 else 0) := by
  rw [(perm_slot h).countP_eq, List.countP_cons]

theorem countP_set_slot (p : α → Bool) (h : l[i]? = some a) (b : α) :
    (l.set i b).countP p = (l.eraseIdx i).countP p + (if p b then 1 else 0) := by
  rw [(set_perm_slot h b).countP_eq, List.countP_cons]

theorem filterMap_cons_toList (f : α → Option β) (a : α) (l : List α) :
    (a :: l).filterMap f = (f a).toList ++ l.filterMap f := by
  cases ha : f a <;> simp [ha]

/-- A selection of the slots, the slot `i` apart. -/
theorem filterMap_slot (f : α → Option β) (h : l[i]? = some a) :
    (l.filterMap f).Perm ((f a).toList ++ (l.eraseIdx i).filterMap f) := by
  rw [← filterMap_cons_toList]
  exact (perm_slot h).filterMap f

theorem filterMap_set_slot (f : α → Option β) (h : l[i]? = some a) (b : α) :
    ((l.set i b).filterMap f).Perm ((f b).toList ++ (l.eraseIdx i).filterMap f) := by
  rw [← filterMap_cons_toList]
  exact (set_perm_slot h b).filterMap f

/-- A count is at most the size of a set that has the index of every counted
slot. -/
theorem countP_le_card {p : α → Bool} (l : List α) (S : Finset Nat)
    (h : ∀ i a, l[i]? = some a → p a = true → i ∈ S) : l.countP p ≤ S.card := by
  induction l using List.reverseRecOn generalizing S with
  | nil => exact Nat.zero_le _
  | append_singleton l a ih =>
    have hlast : (l ++ [a])[l.length]? = some a := by simp
    have hrest : ∀ i b, l[i]? = some b → p b = true → i ∈ S.erase l.length := by
      intro i b hi hb
      obtain ⟨hlt, _⟩ := List.getElem?_eq_some_iff.mp hi
      refine Finset.mem_erase.mpr ⟨hlt.ne, h i b ?_ hb⟩
      rw [List.getElem?_append_left hlt, hi]
    have hcount := ih (S.erase l.length) hrest
    rw [List.countP_append, List.countP_singleton]
    split
    · rename_i ha
      have hmem : l.length ∈ S := h _ _ hlast ha
      have hcard := Finset.card_erase_of_mem hmem
      have hpos := Finset.card_pos.mpr ⟨_, hmem⟩
      omega
    · exact hcount.trans (Finset.card_le_card (Finset.erase_subset _ _))

section Update

variable {ι : Type*} [DecidableEq ι] {p : α → Bool} {f : ι → α} {j : ι} {b : α}

/-- What holds between any two slots, after one has changed. -/
theorem pairwise_update {R : α → α → Prop} (hsymm : ∀ x y, R x y → R y x)
    (hold : ∀ k l, k ≠ l → R (f k) (f l)) (hnew : ∀ k, k ≠ j → R b (f k)) :
    ∀ k l, k ≠ l → R (Function.update f j b k) (Function.update f j b l) := by
  intro k l hkl
  by_cases hk : k = j
  · subst hk
    rw [Function.update_self, Function.update_of_ne hkl.symm]
    exact hnew l hkl.symm
  · rw [Function.update_of_ne hk]
    by_cases hl : l = j
    · subst hl
      rw [Function.update_self]
      exact hsymm _ _ (hnew k hk)
    · rw [Function.update_of_ne hl]
      exact hold k l hkl

/-- No two slots have the same thing, after one has changed. -/
theorem unique_update {R : α → β → Prop} (hold : ∀ k l x, R (f k) x → R (f l) x → k = l)
    (hnew : ∀ k x, R b x → R (f k) x → k = j) :
    ∀ k l x, R (Function.update f j b k) x → R (Function.update f j b l) x → k = l := by
  have hapart := pairwise_update (f := f) (j := j) (b := b) (R := fun a c => ∀ x, R a x → ¬R c x)
    (fun _ _ hac x hc ha => hac x ha hc) (fun k l hkl x hk hl => hkl (hold k l x hk hl))
    (fun k hk x hb hf => hk (hnew k x hb hf))
  intro k l x hk hl
  by_contra hkl
  exact hapart k l hkl x hk hl

variable [Fintype ι]

theorem card_filter_update_le_succ :
    (Finset.univ.filter fun k => p (Function.update f j b k)).card ≤
      (Finset.univ.filter fun k => p (f k)).card + 1 := by
  refine (Finset.card_le_card ?_).trans (Finset.card_insert_le j _)
  intro k hk
  by_cases hkj : k = j
  · exact hkj ▸ Finset.mem_insert_self _ _
  · rw [Finset.mem_filter, Function.update_of_ne hkj] at hk
    exact Finset.mem_insert_of_mem (Finset.mem_filter.mpr hk)

/-- A count on a finite type, the slot `j` apart. -/
theorem card_filter_slot (p : α → Bool) (f : ι → α) (j : ι) :
    (Finset.univ.filter fun k => p (f k)).card =
      ((Finset.univ.erase j).filter fun k => p (f k)).card + (if p (f j) then 1 else 0) := by
  conv_lhs => rw [← Finset.insert_erase (Finset.mem_univ j), Finset.filter_insert]
  split
  · exact Finset.card_insert_of_notMem (by simp)
  · rfl

/-- A count on a finite type, when one slot changes. -/
theorem card_filter_update (p : α → Bool) (f : ι → α) (j : ι) (b : α) :
    (Finset.univ.filter fun k => p (Function.update f j b k)).card + (if p (f j) then 1 else 0) =
      (Finset.univ.filter fun k => p (f k)).card + (if p b then 1 else 0) := by
  have hrest : ((Finset.univ.erase j).filter fun k => p (Function.update f j b k)) =
      (Finset.univ.erase j).filter fun k => p (f k) := by
    refine Finset.filter_congr fun k hk => ?_
    rw [Function.update_of_ne (Finset.ne_of_mem_erase hk)]
  rw [card_filter_slot p f j, card_filter_slot p (Function.update f j b) j, hrest,
    Function.update_self]
  omega

theorem card_filter_update_le (h : p b = true → p (f j) = true) :
    (Finset.univ.filter fun k => p (Function.update f j b k)).card ≤
      (Finset.univ.filter fun k => p (f k)).card := by
  refine Finset.card_le_card ?_
  intro k hk
  rw [Finset.mem_filter] at hk ⊢
  by_cases hkj : k = j
  · subst hkj
    rw [Function.update_self] at hk
    exact ⟨hk.1, h hk.2⟩
  · rwa [Function.update_of_ne hkj] at hk

end Update

end ImgSync.Lib
