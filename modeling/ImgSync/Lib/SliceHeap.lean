import Mathlib.Tactic

/-!
# Slices that share arrays

A slice is a header: an array and a length, or no array at all.  `append` writes
behind the last element while the array has room, and moves to a new array
otherwise.  Removing an element moves the ones behind it down in the same
array.  Both write the array in place, so every other slice of that array sees
the change.

`read` is the list that a slice stands for.  The operations are those of lists
on it (`read_append`, `read_removeAt`), and a slice that is `Apart` from the one
that is written keeps its list (`read_append_of_apart`,
`read_removeAt_of_apart`).
-/

namespace ImgSync.Lib

variable {α : Type*}

/-- The arrays so far.  An array is the list of its cells, as long as its
capacity. -/
structure SliceHeap (α : Type*) where
  cells : Nat → List α
  next : Nat

/-- The header of a slice.  `none` is the nil slice. -/
structure SliceHeader where
  arr : Option Nat
  len : Nat
  deriving DecidableEq

def SliceHeader.nil : SliceHeader := { arr := none, len := 0 }

namespace SliceHeap

/-- The cells of the array of a slice. -/
def array (h : SliceHeap α) (s : SliceHeader) : List α :=
  match s.arr with
  | none => []
  | some a => h.cells a

/-- The elements of a slice. -/
def read (h : SliceHeap α) (s : SliceHeader) : List α := (h.array s).take s.len

/-- The slice lies in an array that exists, and within it. -/
structure Valid (h : SliceHeap α) (s : SliceHeader) : Prop where
  len_le : s.len ≤ (h.array s).length
  arr_lt : ∀ a, s.arr = some a → a < h.next

/-- No array is common to the two slices. -/
def Apart (s d : SliceHeader) : Prop := ∀ a, s.arr = some a → d.arr ≠ some a

/-- The array gets other cells. -/
def store (h : SliceHeap α) (a : Nat) (l : List α) : SliceHeap α :=
  { h with cells := Function.update h.cells a l }

/-- A new array, and the slice of its first `len` cells. -/
def alloc (h : SliceHeap α) (l : List α) (len : Nat) : SliceHeap α × SliceHeader :=
  ({ h.store h.next l with next := h.next + 1 }, { arr := some h.next, len := len })

/-- `append(s, x)`.  `spare` is the free part of a new array. -/
def append (h : SliceHeap α) (s : SliceHeader) (x : α) (spare : List α) :
    SliceHeap α × SliceHeader :=
  match s.arr with
  | some a =>
    if s.len < (h.cells a).length then
      (h.store a ((h.cells a).set s.len x), { arr := some a, len := s.len + 1 })
    else h.alloc (h.read s ++ x :: spare) (s.len + 1)
  | none => h.alloc (h.read s ++ x :: spare) (s.len + 1)

/-- `append(s[:k], s[k+1:]...)`. -/
def removeAt (h : SliceHeap α) (s : SliceHeader) (k : Nat) : SliceHeap α × SliceHeader :=
  match s.arr with
  | some a =>
    (h.store a ((h.read s).eraseIdx k ++ (h.cells a).drop (s.len - 1)),
      { arr := some a, len := s.len - 1 })
  | none => (h, s)

section Lemmas

variable {h : SliceHeap α} {s d : SliceHeader} {x : α}

theorem valid_nil (h : SliceHeap α) : h.Valid .nil where
  len_le := Nat.le_refl 0
  arr_lt := by
    intro a ha
    cases ha

theorem apart_nil (d : SliceHeader) : Apart .nil d := by
  intro a ha
  cases ha

theorem Valid.length_read (hv : h.Valid s) : (h.read s).length = s.len := by
  rw [read, List.length_take]
  exact Nat.min_eq_left hv.len_le

/-- A slice of another array does not see a store. -/
theorem array_store_of_ne {a : Nat} (l : List α) (hne : d.arr ≠ some a) :
    (h.store a l).array d = h.array d := by
  unfold array store
  cases hd : d.arr with
  | none => rfl
  | some b => exact Function.update_of_ne (fun heq => hne (hd.trans (congrArg some heq))) ..

theorem array_store_self (h : SliceHeap α) (a : Nat) (l : List α) (len : Nat) :
    (h.store a l).array { arr := some a, len := len } = l := Function.update_self ..

theorem array_eq_cells {a : Nat} (harr : s.arr = some a) : h.array s = h.cells a := by
  unfold array
  rw [harr]

/-- `append` writes the array of the slice, or a new one. -/
theorem append_cases (h : SliceHeap α) (s : SliceHeader) (x : α) (spare : List α) :
    (∃ a, s.arr = some a ∧ s.len < (h.cells a).length ∧
      h.append s x spare =
        (h.store a ((h.cells a).set s.len x), { arr := some a, len := s.len + 1 })) ∨
    h.append s x spare = h.alloc (h.read s ++ x :: spare) (s.len + 1) := by
  unfold append
  split
  · rename_i a harr
    split
    · rename_i hroom
      exact Or.inl ⟨a, harr, hroom, rfl⟩
    · exact Or.inr rfl
  · exact Or.inr rfl

/-! ## Appending -/

theorem read_append (hs : h.Valid s) (x : α) (spare : List α) :
    (h.append s x spare).1.read (h.append s x spare).2 = h.read s ++ [x] := by
  rcases append_cases h s x spare with ⟨a, harr, hroom, heq⟩ | heq
  · rw [heq]
    unfold read
    rw [array_store_self, List.take_add_one, List.getElem?_set_self hroom,
      List.take_set_of_le (Nat.le_refl _), array_eq_cells harr]
    rfl
  · rw [heq]
    show ((h.store h.next _).array { arr := some h.next, len := s.len + 1 }).take (s.len + 1) = _
    rw [array_store_self, ← hs.length_read, List.take_length_add_append]
    rfl

theorem valid_append (hs : h.Valid s) (x : α) (spare : List α) :
    (h.append s x spare).1.Valid (h.append s x spare).2 := by
  rcases append_cases h s x spare with ⟨a, harr, hroom, heq⟩ | heq
  · rw [heq]
    refine ⟨?_, ?_⟩
    · rw [array_store_self, List.length_set]
      exact hroom
    · intro b hb
      exact hs.arr_lt b (harr.trans hb)
  · rw [heq]
    refine ⟨?_, ?_⟩
    · show s.len + 1 ≤ ((h.store h.next _).array { arr := some h.next, len := s.len + 1 }).length
      rw [array_store_self, List.length_append, hs.length_read, List.length_cons]
      omega
    · intro b hb
      rw [← Option.some.inj hb]
      exact Nat.lt_succ_self _

/-- What a slice sees that is apart from the written one. -/
theorem array_append_of_apart (hd : h.Valid d) (hapart : Apart s d) (x : α) (spare : List α) :
    (h.append s x spare).1.array d = h.array d := by
  rcases append_cases h s x spare with ⟨a, harr, -, heq⟩ | heq
  · rw [heq]
    exact array_store_of_ne _ (hapart a harr)
  · rw [heq]
    exact array_store_of_ne _ fun hnext => Nat.lt_irrefl _ (hd.arr_lt _ hnext)

theorem read_append_of_apart (hd : h.Valid d) (hapart : Apart s d) (x : α) (spare : List α) :
    (h.append s x spare).1.read d = h.read d := by
  unfold read
  rw [array_append_of_apart hd hapart]

theorem Valid.append_of_apart (hd : h.Valid d) (hapart : Apart s d) (x : α) (spare : List α) :
    (h.append s x spare).1.Valid d where
  len_le := by
    rw [array_append_of_apart hd hapart]
    exact hd.len_le
  arr_lt := by
    intro b hb
    have hlt := hd.arr_lt b hb
    rcases append_cases h s x spare with ⟨a, -, -, heq⟩ | heq
    · rw [heq]
      exact hlt
    · rw [heq]
      exact Nat.lt_succ_of_lt hlt

theorem apart_append (hd : h.Valid d) (hapart : Apart s d) (x : α) (spare : List α) :
    Apart (h.append s x spare).2 d := by
  intro b hb hdb
  rcases append_cases h s x spare with ⟨a, harr, -, heq⟩ | heq
  · rw [heq] at hb
    exact hapart b (harr.trans hb) hdb
  · rw [heq] at hb
    rw [← Option.some.inj hb] at hdb
    exact Nat.lt_irrefl _ (hd.arr_lt _ hdb)

/-! ## Removing -/

theorem removeAt_cases (h : SliceHeap α) (s : SliceHeader) (k : Nat) :
    (∃ a, s.arr = some a ∧ h.removeAt s k =
      (h.store a ((h.read s).eraseIdx k ++ (h.cells a).drop (s.len - 1)),
        { arr := some a, len := s.len - 1 })) ∨
    s.arr = none ∧ h.removeAt s k = (h, s) := by
  unfold removeAt
  split
  · rename_i a harr
    exact Or.inl ⟨a, harr, rfl⟩
  · rename_i harr
    exact Or.inr ⟨harr, rfl⟩

theorem read_eq_nil (harr : s.arr = none) : h.read s = [] := by
  unfold read array
  rw [harr]
  exact List.take_nil

theorem read_removeAt (hs : h.Valid s) {k : Nat} (hk : k < s.len) :
    (h.removeAt s k).1.read (h.removeAt s k).2 = (h.read s).eraseIdx k := by
  rcases removeAt_cases h s k with ⟨a, harr, heq⟩ | ⟨harr, heq⟩
  · rw [heq]
    have hlen : ((h.read s).eraseIdx k).length = s.len - 1 := by
      rw [List.length_eraseIdx_of_lt (by rw [hs.length_read]; exact hk), hs.length_read]
    show ((h.store a _).array { arr := some a, len := s.len - 1 }).take (s.len - 1) = _
    rw [array_store_self, ← hlen, List.take_left]
  · rw [heq, read_eq_nil harr]
    rfl

theorem valid_removeAt (hs : h.Valid s) {k : Nat} (hk : k < s.len) :
    (h.removeAt s k).1.Valid (h.removeAt s k).2 := by
  rcases removeAt_cases h s k with ⟨a, harr, heq⟩ | ⟨harr, heq⟩
  · rw [heq]
    refine ⟨?_, ?_⟩
    · rw [array_store_self, List.length_append,
        List.length_eraseIdx_of_lt (by rw [hs.length_read]; exact hk), hs.length_read]
      exact Nat.le_add_right _ _
    · intro b hb
      exact hs.arr_lt b (harr.trans hb)
  · rw [heq]
    exact hs

theorem array_removeAt_of_apart (hapart : Apart s d) (k : Nat) :
    (h.removeAt s k).1.array d = h.array d := by
  rcases removeAt_cases h s k with ⟨a, harr, heq⟩ | ⟨-, heq⟩
  · rw [heq]
    exact array_store_of_ne _ (hapart a harr)
  · rw [heq]

theorem read_removeAt_of_apart (hapart : Apart s d) (k : Nat) :
    (h.removeAt s k).1.read d = h.read d := by
  unfold read
  rw [array_removeAt_of_apart hapart]

theorem Valid.removeAt_of_apart (hd : h.Valid d) (hapart : Apart s d) (k : Nat) :
    (h.removeAt s k).1.Valid d where
  len_le := by
    rw [array_removeAt_of_apart hapart]
    exact hd.len_le
  arr_lt := by
    intro b hb
    rcases removeAt_cases h s k with ⟨a, -, heq⟩ | ⟨-, heq⟩
    · rw [heq]
      exact hd.arr_lt b hb
    · rw [heq]
      exact hd.arr_lt b hb

theorem apart_removeAt (hapart : Apart s d) (k : Nat) : Apart (h.removeAt s k).2 d := by
  rcases removeAt_cases h s k with ⟨a, harr, heq⟩ | ⟨-, heq⟩
  · rw [heq]
    intro b hb
    exact hapart b (harr.trans hb)
  · rw [heq]
    exact hapart

end Lemmas

end SliceHeap

end ImgSync.Lib
