import Mathlib.Tactic

/-!
# Session advisory locks

A lock table says which session holds a key and how often it has taken it.
`tryLock` is re-entrant: a session that holds a key takes it once more.
`unlock` gives one hold back, and the end of a session frees all of its keys.

What the owner of a session relies on is that no other session can take a key
away from it.  `KeepsOthers s t t'` says that a change of the table from `t`
to `t'`, made by the session `s`, leaves every other session its keys.
`holdCount` is the number of holds of one session; nobody else changes it.
-/

namespace ImgSync.Lib

/-- The session and the number of its holds, for every key that is held. -/
abbrev Locks (σ κ : Type*) := κ → Option (σ × Nat)

variable {σ κ : Type*} {t t' u : Locks σ κ} {s s' : σ} {k : κ}

def Holds (t : Locks σ κ) (s : σ) (k : κ) : Prop := ∃ holds, t k = some (s, holds)

/-- A key is held by one session. -/
theorem Holds.unique (h : Holds t s k) (h' : Holds t s' k) : s = s' := by
  obtain ⟨_, hs⟩ := h
  obtain ⟨_, hs'⟩ := h'
  rw [hs] at hs'
  exact (Prod.mk.inj (Option.some.inj hs')).1

/-- What the session `s` does to the table takes no key from another session. -/
def KeepsOthers (s : σ) (t t' : Locks σ κ) : Prop :=
  ∀ s' k, s' ≠ s → Holds t s' k → Holds t' s' k

theorem KeepsOthers.refl (s : σ) (t : Locks σ κ) : KeepsOthers s t t := fun _ _ _ h => h

theorem KeepsOthers.trans (h : KeepsOthers s t t') (h' : KeepsOthers s t' u) :
    KeepsOthers s t u :=
  fun s' k hne hk => h' s' k hne (h s' k hne hk)

section Tables

variable [DecidableEq κ]

/-- A session may write a key that no other session holds. -/
theorem keepsOthers_update {v : Option (σ × Nat)} (h : ∀ s', Holds t s' k → s' = s) :
    KeepsOthers s t (Function.update t k v) := by
  intro s' k' hne hk
  have hk' : k' ≠ k := by
    rintro rfl
    exact hne (h s' hk)
  unfold Holds
  rw [Function.update_of_ne hk']
  exact hk

variable [DecidableEq σ]

/-- One more hold of the key for the session, and whether it got it. -/
def tryLock (t : Locks σ κ) (s : σ) (k : κ) : Locks σ κ × Bool :=
  match t k with
  | none => (Function.update t k (some (s, 1)), true)
  | some (owner, holds) =>
    if owner = s then (Function.update t k (some (s, holds + 1)), true) else (t, false)

/-- One hold less.  Nothing happens when the session does not hold the key. -/
def unlock (t : Locks σ κ) (s : σ) (k : κ) : Locks σ κ :=
  match t k with
  | none => t
  | some (owner, holds) =>
    if owner = s then Function.update t k (if holds ≤ 1 then none else some (s, holds - 1)) else t

theorem holds_of_tryLock (hgot : (tryLock t s k).2 = true) : Holds (tryLock t s k).1 s k := by
  unfold tryLock at hgot ⊢
  split at hgot
  · exact ⟨1, Function.update_self ..⟩
  · rename_i owner holds _
    by_cases howner : owner = s
    · rw [if_pos howner]
      exact ⟨holds + 1, Function.update_self ..⟩
    · rw [if_neg howner] at hgot
      cases hgot

theorem keepsOthers_tryLock (t : Locks σ κ) (s : σ) (k : κ) :
    KeepsOthers s t (tryLock t s k).1 := by
  unfold tryLock
  split
  · rename_i hfree
    apply keepsOthers_update
    rintro s' ⟨_, hs'⟩
    rw [hfree] at hs'
    cases hs'
  · rename_i owner holds hkey
    split
    · rename_i howner
      apply keepsOthers_update
      intro s' hs'
      exact hs'.unique ⟨holds, howner ▸ hkey⟩
    · exact .refl s t

theorem keepsOthers_unlock (t : Locks σ κ) (s : σ) (k : κ) : KeepsOthers s t (unlock t s k) := by
  unfold unlock
  split
  · exact .refl s t
  · rename_i owner holds hkey
    split
    · rename_i howner
      apply keepsOthers_update
      intro s' hs'
      exact hs'.unique ⟨holds, howner ▸ hkey⟩
    · exact .refl s t

end Tables

section Sessions

variable [DecidableEq σ]

/-- The end of a session. -/
def endSession (t : Locks σ κ) (s : σ) : Locks σ κ :=
  fun k => (t k).filter fun entry => entry.1 ≠ s

theorem keepsOthers_endSession (t : Locks σ κ) (s : σ) : KeepsOthers s t (endSession t s) := by
  rintro s' k hne ⟨holds, hk⟩
  refine ⟨holds, ?_⟩
  unfold endSession
  rw [hk, Option.filter_some, if_pos (by simpa using hne)]

end Sessions

section Counts

variable [DecidableEq σ]

/-- The holds of the session in one entry of the table. -/
def entryCount (s : σ) : Option (σ × Nat) → Nat
  | none => 0
  | some (owner, holds) => if owner = s then holds else 0

/-- How often the session holds the key. -/
def holdCount (t : Locks σ κ) (s : σ) (k : κ) : Nat := entryCount s (t k)

theorem entryCount_of_ne (h : s' ≠ s) (holds : Nat) : entryCount s (some (s', holds)) = 0 :=
  if_neg h

theorem holdCount_endSession_self (t : Locks σ κ) (s : σ) (k : κ) :
    holdCount (endSession t s) s k = 0 := by
  unfold holdCount endSession
  cases hk : t k with
  | none => rfl
  | some entry =>
    rw [Option.filter_some]
    split
    · rename_i hne
      exact entryCount_of_ne (by simpa using hne) entry.2
    · rfl

theorem holdCount_endSession_of_ne (hne : s' ≠ s) (t : Locks σ κ) (k : κ) :
    holdCount (endSession t s) s' k = holdCount t s' k := by
  unfold holdCount endSession
  cases hk : t k with
  | none => rfl
  | some entry =>
    rw [Option.filter_some]
    split
    · rfl
    · rename_i howner
      have heq : entry.1 = s := by simpa using howner
      exact (entryCount_of_ne (heq ▸ hne.symm) entry.2).symm

variable [DecidableEq κ]

/-- A change of one entry, as a session sees it that has no hold in it before
or after. -/
theorem holdCount_update {v : Option (σ × Nat)} (hold : entryCount s (t k) = 0)
    (hnew : entryCount s v = 0) (k' : κ) :
    holdCount (Function.update t k v) s k' = holdCount t s k' := by
  unfold holdCount
  by_cases hk : k' = k
  · subst hk
    rw [Function.update_self, hnew, hold]
  · rw [Function.update_of_ne hk]

theorem holdCount_tryLock_of_ne (hne : s' ≠ s) (t : Locks σ κ) (k k' : κ) :
    holdCount (tryLock t s k).1 s' k' = holdCount t s' k' := by
  unfold tryLock
  split
  · rename_i hfree
    exact holdCount_update (by rw [hfree]; rfl) (entryCount_of_ne hne.symm 1) k'
  · rename_i owner holds hkey
    split
    · rename_i howner
      subst howner
      exact holdCount_update (by rw [hkey]; exact entryCount_of_ne hne.symm holds)
        (entryCount_of_ne hne.symm _) k'
    · rfl

theorem holdCount_unlock_of_ne (hne : s' ≠ s) (t : Locks σ κ) (k k' : κ) :
    holdCount (unlock t s k) s' k' = holdCount t s' k' := by
  unfold unlock
  split
  · rfl
  · rename_i owner holds hkey
    split
    · rename_i howner
      subst howner
      refine holdCount_update (by rw [hkey]; exact entryCount_of_ne hne.symm holds) ?_ k'
      split
      · rfl
      · exact entryCount_of_ne hne.symm _
    · rfl

/-- A lock that is not got is held by somebody else, and the table stays. -/
theorem tryLock_not_got (h : (tryLock t s k).2 = false) :
    (tryLock t s k).1 = t ∧ ∃ owner holds, t k = some (owner, holds) ∧ owner ≠ s := by
  unfold tryLock at h ⊢
  split at h
  · cases h
  · rename_i owner holds hkey
    by_cases howner : owner = s
    · rw [if_pos howner] at h
      cases h
    · rw [if_neg howner]
      exact ⟨rfl, owner, holds, hkey, howner⟩

/-- A lock that is got is one more hold of its key. -/
theorem holdCount_tryLock_got (h : (tryLock t s k).2 = true) (k' : κ) :
    holdCount (tryLock t s k).1 s k' = holdCount t s k' + if k' = k then 1 else 0 := by
  unfold tryLock at h ⊢
  unfold holdCount
  split at h
  · rename_i hfree
    by_cases hk : k' = k
    · subst hk
      simp [entryCount, hfree]
    · simp [hk]
  · rename_i owner holds hkey
    by_cases howner : owner = s
    · rw [if_pos howner]
      by_cases hk : k' = k
      · subst hk
        simp [entryCount, hkey, howner]
      · simp [hk]
    · rw [if_neg howner] at h
      cases h

end Counts

end ImgSync.Lib
