import ImgSync.Queue.Schema

/-!
# Error texts in event details

`sanitizeErrMsg` (`internal/worker/errdetail.go`) removes URL credentials from
an error text and bounds its length.  The pattern is
`([a-zA-Z][a-zA-Z0-9+.-]*://)[^/@\s]+@`.  Neither repeated class contains the
character that has to follow it, so a match is found without backtracking.
-/

namespace ImgSync.Worker

open ImgSync.Queue

/-- `maxDetailLen`. -/
def maxDetailLen : Nat := 1024

/-- `[a-zA-Z]`. -/
def isAlpha (b : UInt8) : Bool := (65 ≤ b && b ≤ 90) || (97 ≤ b && b ≤ 122)

/-- `[a-zA-Z0-9+.-]`. -/
def isSchemeByte (b : UInt8) : Bool :=
  isAlpha b || (48 ≤ b && b ≤ 57) || b == 43 || b == 46 || b == 45

/-- `[^/@\s]`. -/
def isUserinfoByte (b : UInt8) : Bool :=
  !(b == 47 || b == 64 || b == 9 || b == 10 || b == 12 || b == 13 || b == 32)

/-- The match of `credRe` at the start of the text: the group `scheme://`,
and what follows the `@`. -/
def credMatch : GoString → Option (GoString × GoString)
  | [] => none
  | c :: cs =>
    if isAlpha c then
      match cs.dropWhile isSchemeByte with
      | 58 :: 47 :: 47 :: rest =>
        match rest.takeWhile isUserinfoByte, rest.dropWhile isUserinfoByte with
        | _ :: _, 64 :: tail => some (c :: cs.takeWhile isSchemeByte ++ [58, 47, 47], tail)
        | _, _ => none
      | _ => none
    else none

/-- `credRe.ReplaceAllString(s, "$1")`.  Every round consumes a byte, so the
length of the text is fuel enough. -/
def replaceCred : Nat → GoString → GoString
  | 0, s => s
  | _, [] => []
  | fuel + 1, c :: cs =>
    match credMatch (c :: cs) with
    | some (pre, tail) => pre ++ replaceCred fuel tail
    | none => c :: replaceCred fuel cs

/-- `sanitizeErrMsg`. -/
def sanitizeErrMsg (s : GoString) : GoString :=
  (replaceCred s.length s).take maxDetailLen

example : sanitizeErrMsg (goString "dial ftp://bob:pw@host/x failed") =
    goString "dial ftp://host/x failed" := by decide

/-! ## What is kept of a text -/

/-- A match drops the userinfo and its `@`. -/
theorem credMatch_length {s pre tail : GoString} (h : credMatch s = some (pre, tail)) :
    pre.length + tail.length < s.length := by
  unfold credMatch at h
  split at h
  · cases h
  rename_i c cs
  split at h
  · split at h
    · rename_i rest hscheme
      split at h
      · rename_i u us tail' huser htail
        obtain ⟨rfl, rfl⟩ := Prod.mk.inj (Option.some.inj h)
        have hcs :=
          congrArg List.length (List.takeWhile_append_dropWhile (p := isSchemeByte) (l := cs))
        have hrest :=
          congrArg List.length (List.takeWhile_append_dropWhile (p := isUserinfoByte) (l := rest))
        rw [hscheme] at hcs
        rw [huser, htail] at hrest
        simp only [List.length_append, List.length_cons, List.length_nil] at hcs hrest ⊢
        omega
      · cases h
    · cases h
  · cases h

/-- The replacement leaves a text alone or makes it shorter. -/
theorem replaceCred_eq_or_lt (fuel : Nat) (s : GoString) :
    replaceCred fuel s = s ∨ (replaceCred fuel s).length < s.length := by
  induction fuel generalizing s with
  | zero => exact Or.inl rfl
  | succ fuel ih =>
    cases s with
    | nil => exact Or.inl rfl
    | cons c cs =>
      simp only [replaceCred]
      split
      · rename_i pre tail hmatch
        have hlen := credMatch_length hmatch
        have htail : (replaceCred fuel tail).length ≤ tail.length := by
          rcases ih tail with heq | hlt
          · exact le_of_eq (congrArg List.length heq)
          · exact hlt.le
        rw [List.length_append]
        omega
      · rcases ih cs with heq | hlt
        · rw [heq]
          exact Or.inl rfl
        · exact Or.inr (Nat.succ_lt_succ hlt)

theorem length_sanitizeErrMsg_le (s : GoString) : (sanitizeErrMsg s).length ≤ maxDetailLen :=
  List.length_take_le _ _

/-- A text that keeps its length has been left alone. -/
theorem sanitizeErrMsg_eq_of_length_le {s : GoString} (h : s.length ≤ (sanitizeErrMsg s).length) :
    sanitizeErrMsg s = s := by
  have htake : (sanitizeErrMsg s).length ≤ (replaceCred s.length s).length :=
    List.length_take_le' _ _
  rcases replaceCred_eq_or_lt s.length s with heq | hlt
  · have hshort : s.length ≤ maxDetailLen := h.trans (length_sanitizeErrMsg_le s)
    rw [sanitizeErrMsg, heq]
    exact List.take_of_length_le hshort
  · omega

end ImgSync.Worker
