import Mathlib.Tactic

/-!
# UTF-8 in byte strings

A decoder looks at the encoding at the head of the text and goes on behind it.
A byte that starts no encoding is skipped alone.  `runeLen` is the length of
the encoding at the head, with the tables of shortest encodings, so that
overlong forms and surrogates are no encodings.

`replaceInvalid` is the usual treatment of such bytes: each one becomes the
replacement character.  The scan carries the number of bytes that are left of
the encoding it is in, so it is structural in the text.
-/

namespace ImgSync.Lib.Utf8

/-- A byte behind the second one of an encoding. -/
def isCont (b : UInt8) : Bool := 0x80 ≤ b && b ≤ 0xBF

/-- The encodings of more than one byte by their first byte: the length, and
the range of the second byte. -/
def lead (b : UInt8) : Option (Nat × UInt8 × UInt8) :=
  if b < 0xC2 then none
  else if b < 0xE0 then some (2, 0x80, 0xBF)
  else if b = 0xE0 then some (3, 0xA0, 0xBF)
  else if b = 0xED then some (3, 0x80, 0x9F)
  else if b < 0xF0 then some (3, 0x80, 0xBF)
  else if b = 0xF0 then some (4, 0x90, 0xBF)
  else if b < 0xF4 then some (4, 0x80, 0xBF)
  else if b = 0xF4 then some (4, 0x80, 0x8F)
  else none

/-- The length of the encoding at the head of the text, 0 if there is none. -/
def runeLen : List UInt8 → Nat
  | [] => 0
  | b :: bs =>
    if b < 0x80 then 1
    else
      match lead b, bs with
      | some (n, lo, hi), c :: cs =>
        let rest := cs.take (n - 2)
        if lo ≤ c && c ≤ hi && rest.length == n - 2 && rest.all isCont then n else 0
      | _, _ => 0

/-- U+FFFD. -/
def replacement : List UInt8 := [0xEF, 0xBF, 0xBD]

/-- The scan of a text, `k` bytes before the end of an encoding. -/
def replaceFrom : Nat → List UInt8 → List UInt8
  | _, [] => []
  | k + 1, b :: bs => b :: replaceFrom k bs
  | 0, b :: bs =>
    match runeLen (b :: bs) with
    | 0 => replacement ++ replaceFrom 0 bs
    | n + 1 => b :: replaceFrom n bs

/-- The text with U+FFFD for every byte that belongs to no encoding. -/
def replaceInvalid (s : List UInt8) : List UInt8 := replaceFrom 0 s

/-- The same scan, for the question whether there is such a byte. -/
def validFrom : Nat → List UInt8 → Bool
  | _, [] => true
  | k + 1, _ :: bs => validFrom k bs
  | 0, b :: bs =>
    match runeLen (b :: bs) with
    | 0 => false
    | n + 1 => validFrom n bs

/-- The text is valid UTF-8. -/
def valid (s : List UInt8) : Bool := validFrom 0 s

theorem length_le_replaceFrom (k : Nat) (s : List UInt8) :
    s.length ≤ (replaceFrom k s).length := by
  induction s generalizing k with
  | nil => exact Nat.zero_le _
  | cons b bs ih =>
    cases k with
    | succ k =>
      simp only [replaceFrom, List.length_cons]
      exact Nat.succ_le_succ (ih k)
    | zero =>
      simp only [replaceFrom]
      split
      · have hrest := ih 0
        simp only [replacement, List.length_append, List.length_cons, List.length_nil]
        omega
      · rename_i n _
        simp only [List.length_cons]
        exact Nat.succ_le_succ (ih n)

/-- Replacing never shortens a text. -/
theorem length_le_replaceInvalid (s : List UInt8) : s.length ≤ (replaceInvalid s).length :=
  length_le_replaceFrom 0 s

theorem replaceFrom_eq_self_iff (k : Nat) (s : List UInt8) :
    replaceFrom k s = s ↔ validFrom k s = true := by
  induction s generalizing k with
  | nil => simp [replaceFrom, validFrom]
  | cons b bs ih =>
    cases k with
    | succ k =>
      simp only [replaceFrom, validFrom, List.cons.injEq, true_and]
      exact ih k
    | zero =>
      simp only [replaceFrom, validFrom]
      split
      · -- One byte has become three, and the rest is no shorter than before.
        have hrest := length_le_replaceFrom 0 bs
        simp only [Bool.false_eq_true, iff_false]
        intro heq
        have hlen := congrArg List.length heq
        simp only [replacement, List.length_append, List.length_cons, List.length_nil] at hlen
        omega
      · rename_i n _
        simp only [List.cons.injEq, true_and]
        exact ih n

/-- Exactly the valid texts are left alone. -/
theorem replaceInvalid_eq_self_iff {s : List UInt8} :
    replaceInvalid s = s ↔ valid s = true :=
  replaceFrom_eq_self_iff 0 s

-- A two-byte encoding, its first byte alone, an overlong form and a surrogate.
example : [valid [0xC3, 0xA9], valid [0xC3], valid [0xE0, 0x80, 0x80], valid [0xED, 0xA0, 0x80]] =
    [true, false, false, false] := by decide

end ImgSync.Lib.Utf8
