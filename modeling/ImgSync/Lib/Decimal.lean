import Mathlib.Tactic

/-!
# Decimal text

Numbers as programs print and read them.  `itoa` and `itoaInt` print;
`readNat` and `readInt` take the longest number at the head of a text and leave
the rest.  A printed number reads back when no digit follows it, and a number at
the end of a text can be told apart when no digit stands before it.
-/

namespace ImgSync.Lib

/-- The digits of a number. -/
def itoa (n : Nat) : List Char := Nat.toDigits 10 n

/-- A number at the head of the text. -/
def readNat (cs : List Char) : Option (Nat × List Char) :=
  if (cs.takeWhile Char.isDigit).isEmpty then none
  else some (Nat.ofDigitChars 10 (cs.takeWhile Char.isDigit) 0, cs.dropWhile Char.isDigit)

/-- No digit stands at the head of the text. -/
def EndsNumber (cs : List Char) : Prop := ∀ c ∈ cs.head?, c.isDigit = false

theorem isDigit_of_mem_itoa {n : Nat} {c : Char} (h : c ∈ itoa n) : c.isDigit = true :=
  Nat.isDigit_of_mem_toDigits (by decide) (by decide) h

theorem itoa_ne_nil (n : Nat) : itoa n ≠ [] := Nat.toDigits_ne_nil

theorem readNat_itoa (n : Nat) {rest : List Char} (hrest : EndsNumber rest) :
    readNat (itoa n ++ rest) = some (n, rest) := by
  have hstop : rest.takeWhile Char.isDigit = [] ∧ rest.dropWhile Char.isDigit = rest := by
    cases rest with
    | nil => exact ⟨rfl, rfl⟩
    | cons c rest =>
      have hc : c.isDigit = false := hrest c rfl
      simp [hc]
  have htake : (itoa n ++ rest).takeWhile Char.isDigit = itoa n := by
    rw [List.takeWhile_append_of_pos fun _ => isDigit_of_mem_itoa, hstop.1, List.append_nil]
  have hdrop : (itoa n ++ rest).dropWhile Char.isDigit = rest := by
    rw [List.dropWhile_append_of_pos fun _ => isDigit_of_mem_itoa, hstop.2]
  have hne : (itoa n).isEmpty = false := List.isEmpty_eq_false_iff.mpr (itoa_ne_nil n)
  rw [readNat, htake, hdrop, hne, itoa, Nat.ofDigitChars_ten_toDigits]
  rfl

/-- A number that ends a text can be told from what is before it. -/
theorem append_itoa_inj {cs ds : List Char} {m n : Nat} (hcs : EndsNumber cs.reverse)
    (hds : EndsNumber ds.reverse) (h : cs ++ itoa m = ds ++ itoa n) : cs = ds ∧ m = n := by
  -- Read from its end, the text begins with exactly the digits of the number.
  have hdigits : ∀ {es : List Char} (k : Nat), EndsNumber es.reverse →
      ((es ++ itoa k).reverse.takeWhile Char.isDigit).reverse = itoa k := by
    intro es k hes
    have hstop : es.reverse.takeWhile Char.isDigit = [] := by
      cases hrev : es.reverse with
      | nil => rfl
      | cons c rest =>
        have hc : c.isDigit = false := hes c (by rw [hrev]; rfl)
        simp [hc]
    have hall : ∀ c ∈ (itoa k).reverse, c.isDigit = true :=
      fun c hc => isDigit_of_mem_itoa (List.mem_reverse.mp hc)
    rw [List.reverse_append, List.takeWhile_append_of_pos hall, hstop, List.append_nil,
      List.reverse_reverse]
  have hsame : itoa m = itoa n := by rw [← hdigits m hcs, h, hdigits n hds]
  have hread : readNat (itoa m ++ []) = readNat (itoa n ++ []) := by rw [hsame]
  have hend : EndsNumber [] := fun _ hc => by cases hc
  rw [readNat_itoa m hend, readNat_itoa n hend] at hread
  rw [hsame] at h
  exact ⟨List.append_cancel_right h, (Prod.mk.inj (Option.some.inj hread)).1⟩

/-- The digits of an integer, with its sign when it is negative. -/
def itoaInt (n : Int) : List Char :=
  if n < 0 then '-' :: itoa n.natAbs else itoa n.natAbs

/-- An integer with an optional sign at the head of the text. -/
def readInt : List Char → Option (Int × List Char)
  | '-' :: cs => (readNat cs).map fun r => (-(r.1 : Int), r.2)
  | '+' :: cs => (readNat cs).map fun r => ((r.1 : Int), r.2)
  | cs => (readNat cs).map fun r => ((r.1 : Int), r.2)

/-- A text that starts with a digit has no sign. -/
theorem readInt_of_digit {cs : List Char} (h : ∃ c ∈ cs.head?, c.isDigit = true) :
    readInt cs = (readNat cs).map fun r => ((r.1 : Int), r.2) := by
  obtain ⟨c, hc, hdigit⟩ := h
  cases cs with
  | nil => cases hc
  | cons d cs =>
    obtain rfl : d = c := Option.some.inj hc
    unfold readInt
    split
    · rename_i heq
      cases heq
      exact absurd hdigit (by decide)
    · rename_i heq
      cases heq
      exact absurd hdigit (by decide)
    · rfl

theorem head_itoa (n : Nat) (rest : List Char) :
    ∃ c ∈ (itoa n ++ rest).head?, c.isDigit = true := by
  obtain ⟨c, cs, hcs⟩ := List.exists_cons_of_ne_nil (itoa_ne_nil n)
  exact ⟨c, by rw [hcs]; rfl, isDigit_of_mem_itoa (by rw [hcs]; exact List.mem_cons_self)⟩

theorem readInt_itoaInt (n : Int) {rest : List Char} (hrest : EndsNumber rest) :
    readInt (itoaInt n ++ rest) = some (n, rest) := by
  unfold itoaInt
  split
  · rename_i hneg
    show (readNat (itoa n.natAbs ++ rest)).map _ = _
    rw [readNat_itoa _ hrest, Option.map_some]
    congr
    omega
  · rename_i hpos
    rw [readInt_of_digit (head_itoa _ rest), readNat_itoa _ hrest, Option.map_some]
    congr
    omega

/-- A printed integer that ends the text. -/
theorem readInt_itoaInt_end (n : Int) : readInt (itoaInt n) = some (n, []) := by
  have h : readInt (itoaInt n ++ []) = some (n, []) := readInt_itoaInt n fun _ hc => by cases hc
  rwa [List.append_nil] at h

theorem itoaInt_ne_nil (n : Int) : itoaInt n ≠ [] := by
  unfold itoaInt
  split
  · exact List.cons_ne_nil _ _
  · exact itoa_ne_nil _

end ImgSync.Lib
