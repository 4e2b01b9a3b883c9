import Mathlib.Tactic

/-!
# Walking along a path

A location is the list of the names that lead to it from the root.  The parts of
a path are walked one after the other: a part stays where it is, goes up, or
goes into a name.  There is nothing above the root.

A walk can leave the place it started from only by going up.  `climb` counts how
often it does that, and `walk_append` says that this is all that the result
depends on: two starting points lead to the same place just when the walk climbs
out of both.
-/

namespace ImgSync.Lib

variable {ν : Type*}

/-- A part of a path. -/
inductive PathPart (ν : Type*) where
  | here
  | up
  | into (name : ν)
  deriving DecidableEq

def enter (d : List ν) : PathPart ν → List ν
  | .here => d
  | .up => d.dropLast
  | .into name => d ++ [name]

/-- The location that the parts lead to from `d`. -/
def walk (d : List ν) (ps : List (PathPart ν)) : List ν := ps.foldl enter d

/-- The part goes up from a location that is still the start. -/
def leaves (d : List ν) : PathPart ν → Bool
  | .up => d.isEmpty
  | _ => false

/-- How often the parts go up from the start, when `d` is below it. -/
def climb : List ν → List (PathPart ν) → Nat
  | _, [] => 0
  | d, p :: ps => (if leaves d p then 1 else 0) + climb (enter d p) ps

theorem take_dropLast (l : List ν) (k : Nat) :
    l.dropLast.take (l.dropLast.length - k) = l.take (l.length - (1 + k)) := by
  rw [List.length_dropLast, List.dropLast_eq_take, List.take_take]
  congr 1
  omega

/-- A part does not touch what is above the start, unless it leaves it. -/
theorem enter_append (base d : List ν) (p : PathPart ν) :
    enter (base ++ d) p = (if leaves d p then base.dropLast else base) ++ enter d p := by
  cases p with
  | here => rfl
  | into name => exact List.append_assoc ..
  | up =>
    cases d with
    | nil => simp [enter, leaves]
    | cons x d =>
      show (base ++ x :: d).dropLast = base ++ (x :: d).dropLast
      exact List.dropLast_append_of_ne_nil (List.cons_ne_nil x d)

theorem walk_append (base d : List ν) (ps : List (PathPart ν)) :
    walk (base ++ d) ps = base.take (base.length - climb d ps) ++ walk d ps := by
  induction ps generalizing base d with
  | nil => simp [walk, climb]
  | cons p ps ih =>
    show walk (enter (base ++ d) p) ps = _ ++ walk (enter d p) ps
    rw [enter_append, ih]
    congr 1
    show _ = base.take (base.length - ((if leaves d p then 1 else 0) + climb (enter d p) ps))
    by_cases h : leaves d p = true
    · rw [if_pos h, if_pos h]
      exact take_dropLast base _
    · rw [if_neg h, if_neg h, Nat.zero_add]

/-- A walk from `base` and the walk from the root end at one place just when it
climbs out of `base`. -/
theorem walk_eq_walk_nil (base : List ν) (ps : List (PathPart ν)) :
    walk base ps = walk [] ps ↔ base.length ≤ climb [] ps := by
  have h := walk_append base [] ps
  rw [List.append_nil] at h
  rw [h, List.append_left_eq_self, List.take_eq_nil_iff]
  constructor
  · rintro (hzero | rfl)
    · omega
    · exact Nat.zero_le _
  · intro hle
    left
    omega

/-- The names of a location come from its start or from the path. -/
theorem mem_walk {d : List ν} {ps : List (PathPart ν)} {x : ν} (h : x ∈ walk d ps) :
    x ∈ d ∨ .into x ∈ ps := by
  induction ps generalizing d with
  | nil => exact Or.inl h
  | cons p ps ih =>
    rcases ih h with hd | hps
    · cases p with
      | here => exact Or.inl hd
      | up => exact Or.inl (List.mem_of_mem_dropLast hd)
      | into name =>
        rcases List.mem_append.mp hd with hd | hname
        · exact Or.inl hd
        · rw [List.mem_singleton.mp hname]
          exact Or.inr List.mem_cons_self
    · exact Or.inr (List.mem_cons_of_mem _ hps)

theorem walk_map_into (d names : List ν) : walk d (names.map .into) = d ++ names := by
  induction names generalizing d with
  | nil => exact (List.append_nil d).symm
  | cons x names ih =>
    show walk (d ++ [x]) (names.map .into) = _
    rw [ih, List.append_assoc]
    rfl

end ImgSync.Lib
