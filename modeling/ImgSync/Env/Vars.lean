import ImgSync.Lib.Decimal

/-!
# Environment variables

`internal/env/env.go`.  An absent, empty or malformed value gives the default.
An `int` of Go has 64 bits here, and its arithmetic wraps around.
-/

namespace ImgSync.Env

open ImgSync.Lib

/-- `os.Getenv`.  An absent variable is empty. -/
abbrev Environ := String → String

/-- The value of a product or sum in 64 bits. -/
def wrap64 (n : Int) : Int := n.bmod 18446744073709551616

/-- The values of an `int`. -/
def Fits (n : Int) : Prop := -9223372036854775808 ≤ n ∧ n ≤ 9223372036854775807

instance (n : Int) : Decidable (Fits n) := inferInstanceAs (Decidable (_ ∧ _))

/-- `strconv.Atoi`. -/
def atoi (s : String) : Option Int :=
  match readInt s.toList with
  | some (n, []) => if Fits n then some n else none
  | _ => none

/-- `env.Int`. -/
def Environ.int (env : Environ) (key : String) (fallback : Int) : Int :=
  if env key = "" then fallback else (atoi (env key)).getD fallback

/-- `env.Bool`.  The letters of "true" have no case variants besides the ASCII
ones. -/
def Environ.bool (env : Environ) (key : String) (fallback : Bool) : Bool :=
  if env key = "" then fallback
  else env key = "1" || (env key).toList.map Char.toLower = ['t', 'r', 'u', 'e']

theorem wrap64_of_fits {n : Int} (h : Fits n) : wrap64 n = n := by
  unfold Fits at h
  rw [wrap64]
  apply Int.bmod_eq_of_le_mul_two
  · omega
  · omega

theorem fits_wrap64 (n : Int) : Fits (wrap64 n) := by
  have hlow : -(18446744073709551616 / 2) ≤ n.bmod 18446744073709551616 := Int.le_bmod (by decide)
  have hhigh : n.bmod 18446744073709551616 < (18446744073709551616 + 1) / 2 :=
    Int.bmod_lt (by decide)
  unfold Fits wrap64
  omega

theorem wrap64_eq_self_iff {n : Int} : wrap64 n = n ↔ Fits n :=
  ⟨fun h => h ▸ fits_wrap64 n, wrap64_of_fits⟩

theorem int_of_atoi {env : Environ} {key : String} {fallback n : Int}
    (h : atoi (env key) = some n) : env.int key fallback = n := by
  have hne : env key ≠ "" := by
    intro hempty
    have hnone : atoi "" = none := rfl
    rw [hempty, hnone] at h
    cases h
  rw [Environ.int, if_neg hne, h, Option.getD_some]

end ImgSync.Env
