import Mathlib.Data.List.TakeWhile
import ImgSync.Lib.Replace
import ImgSync.Worker.ErrDetail

/-!
# What the scrubbing of an error text leaves

`credRe.ReplaceAllString` is one pass of `replaceAll`.  A pass does not read its
own output again, and the userinfo class of the pattern ends at the first `@`,
so `scheme://a@b@host` becomes `scheme://b@host`.  This is the only way in which
a match is left (`clean_scrub_iff`): in a text without such a userinfo the
credentials are gone, and cutting the text leaves no new match.
-/

namespace ImgSync.Worker

open ImgSync.Lib ImgSync.Queue

/-! ## The pattern -/

/-- `[a-zA-Z][a-zA-Z0-9+.-]*`. -/
def IsScheme (s : GoString) : Prop :=
  ∃ c cs, s = c :: cs ∧ isAlpha c = true ∧ ∀ b ∈ cs, isSchemeByte b = true

/-- `[^/@\s]+`. -/
def IsUserinfo (s : GoString) : Prop := s ≠ [] ∧ ∀ b ∈ s, isUserinfoByte b = true

theorem isSchemeByte_of_isAlpha {b : UInt8} (h : isAlpha b = true) : isSchemeByte b = true := by
  simp [isSchemeByte, h]

theorem IsScheme.all {s : GoString} (h : IsScheme s) : ∀ b ∈ s, isSchemeByte b = true := by
  obtain ⟨c, cs, rfl, hc, hcs⟩ := h
  intro b hb
  rcases List.mem_cons.mp hb with rfl | hb
  · exact isSchemeByte_of_isAlpha hc
  · exact hcs b hb

/-- Every scheme byte may stand in a userinfo. -/
theorem isUserinfoByte_of_isSchemeByte {b : UInt8} (h : isSchemeByte b = true) :
    isUserinfoByte b = true := by
  by_contra hnot
  rw [Bool.not_eq_true, isUserinfoByte, Bool.not_eq_false'] at hnot
  simp only [Bool.or_eq_true, beq_iff_eq] at hnot
  rcases hnot with (((((rfl | rfl) | rfl) | rfl) | rfl) | rfl) | rfl <;> cases h

/-- What a match of `credRe` is. -/
theorem credMatch_eq_some_iff {s pre tail : GoString} :
    credMatch s = some (pre, tail) ↔ ∃ scheme user, IsScheme scheme ∧ IsUserinfo user ∧
      s = scheme ++ 58 :: 47 :: 47 :: (user ++ 64 :: tail) ∧ pre = scheme ++ [58, 47, 47] := by
  constructor
  · intro h
    unfold credMatch at h
    split at h
    · cases h
    rename_i c cs
    split at h
    · rename_i hc
      split at h
      · rename_i rest hscheme
        split at h
        · rename_i u us tail' huser htail
          obtain ⟨rfl, rfl⟩ := Prod.mk.inj (Option.some.inj h)
          refine ⟨c :: cs.takeWhile isSchemeByte, rest.takeWhile isUserinfoByte,
            ⟨c, _, rfl, hc, fun b => List.mem_takeWhile_imp⟩,
            ⟨by simp [huser], fun b => List.mem_takeWhile_imp⟩, ?_, rfl⟩
          rw [← htail, List.takeWhile_append_dropWhile, List.cons_append, ← hscheme,
            List.takeWhile_append_dropWhile]
        · cases h
      · cases h
    · cases h
  · rintro ⟨scheme, user, ⟨c, cs, rfl, hc, hcs⟩, ⟨hne, huser⟩, rfl, rfl⟩
    obtain ⟨u, us, rfl⟩ := List.exists_cons_of_ne_nil hne
    have hscheme : ∀ rest, (cs ++ 58 :: rest).takeWhile isSchemeByte = cs ∧
        (cs ++ 58 :: rest).dropWhile isSchemeByte = 58 :: rest := by
      intro rest
      rw [List.takeWhile_append_of_pos hcs, List.dropWhile_append_of_pos hcs,
        List.takeWhile_cons_of_neg (by decide), List.dropWhile_cons_of_neg (by decide),
        List.append_nil]
      exact ⟨rfl, rfl⟩
    have htake : (u :: us ++ 64 :: tail).takeWhile isUserinfoByte = u :: us := by
      rw [List.takeWhile_append_of_pos huser, List.takeWhile_cons_of_neg (by decide),
        List.append_nil]
    have hdrop : (u :: us ++ 64 :: tail).dropWhile isUserinfoByte = 64 :: tail := by
      rw [List.dropWhile_append_of_pos huser, List.dropWhile_cons_of_neg (by decide)]
    rw [List.cons_append, credMatch, if_pos hc, (hscheme _).1, (hscheme _).2]
    simp only [htake, hdrop]

theorem credMatch_text {scheme user : GoString} (hscheme : IsScheme scheme)
    (huser : IsUserinfo user) (tail : GoString) :
    credMatch (scheme ++ 58 :: 47 :: 47 :: (user ++ 64 :: tail)) =
      some (scheme ++ [58, 47, 47], tail) :=
  credMatch_eq_some_iff.mpr ⟨scheme, user, hscheme, huser, rfl, rfl⟩

/-- A userinfo, its `@` and what follows stand at the head of the text. -/
def UserAt (s : GoString) : Prop := ∃ user tail, IsUserinfo user ∧ s = user ++ 64 :: tail

/-- A match starts with a scheme and needs a userinfo behind it. -/
theorem credMatch_scheme {x rest : GoString} (hx : ∀ b ∈ x, isSchemeByte b = true)
    (h : ¬UserAt rest) : credMatch (x ++ 58 :: 47 :: 47 :: rest) = none := by
  rw [Option.eq_none_iff_forall_ne_some]
  rintro ⟨pre, tail⟩ hsome
  obtain ⟨scheme, user, hscheme, huser, heq, -⟩ := credMatch_eq_some_iff.mp hsome
  obtain ⟨-, -, hrest⟩ := append_cons_inj hx hscheme.all (by decide) (by decide) heq
  simp only [List.cons.injEq, true_and] at hrest
  exact h ⟨user, tail, huser, hrest⟩

theorem credMatch_of_not_alpha {c : UInt8} {cs : GoString} (h : isAlpha c = false) :
    credMatch (c :: cs) = none := by
  rw [credMatch, h]
  rfl

/-- A text before the first `/` and a byte that is in no scheme is no match. -/
theorem credMatch_no_slash {x rest : GoString} (hx : 47 ∉ x) :
    credMatch (x ++ 64 :: rest) = none := by
  rw [Option.eq_none_iff_forall_ne_some]
  rintro ⟨pre, tail⟩ hsome
  obtain ⟨scheme, user, hscheme, -, heq, -⟩ := credMatch_eq_some_iff.mp hsome
  rcases all_or_split isSchemeByte x with hall | ⟨y, a, r, rfl, hy, ha⟩
  · obtain ⟨-, h64, -⟩ := append_cons_inj hall hscheme.all (by decide) (by decide) heq
    cases h64
  · rw [List.append_assoc, List.cons_append] at heq
    obtain ⟨-, -, hrest⟩ := append_cons_inj hy hscheme.all ha (by decide) heq
    cases r with
    | nil => cases hrest
    | cons b r =>
      obtain rfl : b = 47 := (List.cons.inj hrest).1
      exact hx (by simp)

/-! ## The pass -/

/-- `credRe` with the replacement `$1`. -/
def credMatcher : Matcher UInt8 where
  find := credMatch
  shrinks := credMatch_length

/-- `credRe.ReplaceAllString(s, "$1")`. -/
def scrub (s : GoString) : GoString := replaceAll credMatcher s

theorem replaceCred_eq {fuel : Nat} {s : GoString} (h : s.length ≤ fuel) :
    replaceCred fuel s = scrub s := by
  induction fuel generalizing s with
  | zero =>
    obtain rfl : s = [] := List.length_eq_zero_iff.mp (Nat.le_zero.mp h)
    rw [scrub, replaceAll_nil]
    rfl
  | succ fuel ih =>
    cases s with
    | nil =>
      rw [scrub, replaceAll_nil]
      rfl
    | cons c cs =>
      cases hfind : credMatch (c :: cs) with
      | none =>
        have hle : cs.length ≤ fuel := Nat.le_of_succ_le_succ h
        rw [scrub, replaceAll_of_none hfind, ← scrub, ← ih hle]
        simp only [replaceCred, hfind]
      | some r =>
        have hlt := credMatch_length hfind
        rw [scrub, replaceAll_of_some hfind, ← scrub, ← ih (by omega)]
        simp only [replaceCred, hfind]

theorem sanitizeErrMsg_eq (s : GoString) : sanitizeErrMsg s = (scrub s).take maxDetailLen := by
  rw [sanitizeErrMsg, replaceCred_eq le_rfl]

theorem scrub_of_none {c : UInt8} {cs : GoString} (h : credMatch (c :: cs) = none) :
    scrub (c :: cs) = c :: scrub cs :=
  replaceAll_of_none h

theorem scrub_nil : scrub [] = [] := replaceAll_nil

/-- A match loses its userinfo. -/
theorem scrub_match {scheme user tail : GoString} (hscheme : IsScheme scheme)
    (huser : IsUserinfo user) :
    scrub (scheme ++ 58 :: 47 :: 47 :: (user ++ 64 :: tail)) =
      scheme ++ 58 :: 47 :: 47 :: scrub tail := by
  have hpass : scrub (scheme ++ 58 :: 47 :: 47 :: (user ++ 64 :: tail)) =
      scheme ++ [58, 47, 47] ++ scrub tail :=
    replaceAll_of_some (credMatch_text hscheme huser tail)
  rw [hpass, List.append_assoc]
  rfl

/-- A scheme that no userinfo follows stays. -/
theorem scrub_scheme {x rest : GoString} (hx : ∀ b ∈ x, isSchemeByte b = true)
    (h : ¬UserAt rest) :
    scrub (x ++ 58 :: 47 :: 47 :: rest) = x ++ 58 :: 47 :: 47 :: scrub rest := by
  induction x with
  | nil =>
    rw [List.nil_append, scrub_of_none (credMatch_of_not_alpha (by decide)),
      scrub_of_none (credMatch_of_not_alpha (by decide)),
      scrub_of_none (credMatch_of_not_alpha (by decide))]
    rfl
  | cons c x ih =>
    have hnone : credMatch (c :: (x ++ 58 :: 47 :: 47 :: rest)) = none := credMatch_scheme hx h
    rw [List.cons_append, scrub_of_none hnone, ih fun b hb => hx b (List.mem_cons_of_mem c hb)]
    rfl

/-- What comes before an `@` and has no `/` stays. -/
theorem scrub_no_slash {x rest : GoString} (hx : 47 ∉ x) :
    scrub (x ++ 64 :: rest) = x ++ 64 :: scrub rest := by
  induction x with
  | nil => exact scrub_of_none (credMatch_of_not_alpha (by decide))
  | cons c x ih =>
    have hnone : credMatch (c :: (x ++ 64 :: rest)) = none := credMatch_no_slash hx
    rw [List.cons_append, scrub_of_none hnone, ih fun hmem => hx (List.mem_cons_of_mem c hmem)]
    rfl

/-- A text in which no `:` occurs stays. -/
theorem scrub_scheme_bytes {x : GoString} (hx : ∀ b ∈ x, isSchemeByte b = true) :
    scrub x = x := by
  induction x with
  | nil => exact scrub_nil
  | cons c x ih =>
    have hnone : credMatch (c :: x) = none := by
      rw [Option.eq_none_iff_forall_ne_some]
      rintro ⟨pre, tail⟩ hsome
      obtain ⟨scheme, user, -, -, heq, -⟩ := credMatch_eq_some_iff.mp hsome
      have hcolon : isSchemeByte 58 = true := hx 58 (heq ▸ by simp)
      cases hcolon
    rw [scrub_of_none hnone, ih fun b hb => hx b (List.mem_cons_of_mem c hb)]

/-- The class of the userinfo has no `/`, so a userinfo that starts before a
`scheme://` ends before it. -/
theorem userinfo_before {x scheme rest user tail : GoString}
    (hscheme : ∀ b ∈ scheme, isSchemeByte b = true) (huser : ∀ b ∈ user, isUserinfoByte b = true)
    (h : x ++ (scheme ++ 58 :: 47 :: rest) = user ++ 64 :: tail) :
    ∃ tail', x = user ++ 64 :: tail' := by
  rcases all_or_split isUserinfoByte x with hall | ⟨y, a, r, rfl, hy, ha⟩
  · have hboth : ∀ b ∈ x ++ (scheme ++ [58]), isUserinfoByte b = true := by
      intro b hb
      rcases List.mem_append.mp hb with hb | hb
      · exact hall b hb
      rcases List.mem_append.mp hb with hb | hb
      · exact isUserinfoByte_of_isSchemeByte (hscheme b hb)
      · obtain rfl := List.mem_singleton.mp hb
        decide
    have hcross : x ++ (scheme ++ [58]) ++ 47 :: rest = user ++ 64 :: tail := by
      rw [← h]
      simp
    obtain ⟨-, hslash, -⟩ := append_cons_inj hboth huser (by decide) (by decide) hcross
    cases hslash
  · rw [List.append_assoc, List.cons_append] at h
    obtain ⟨rfl, rfl, -⟩ := append_cons_inj hy huser ha (by decide) h
    exact ⟨r, rfl⟩

/-- A `/` before a scheme is not in it. -/
theorem slash_before {x scheme rest s : GoString} (hscheme : IsScheme scheme)
    (h : x ++ (scheme ++ rest) = 47 :: s) : ∃ x', x = 47 :: x' ∧ x' ++ (scheme ++ rest) = s := by
  cases x with
  | nil =>
    obtain ⟨c, cs, rfl, hc, -⟩ := hscheme
    obtain rfl : c = 47 := (List.cons.inj h).1
    cases hc
  | cons b x =>
    obtain ⟨rfl, hrest⟩ := List.cons.inj h
    exact ⟨x, rfl, hrest⟩

/-- A match that starts before a `scheme://` ends before it or extends the
scheme. -/
theorem credMatch_before {x scheme rest pre tail : GoString} (hscheme : IsScheme scheme)
    (hsome : credMatch (x ++ (scheme ++ 58 :: 47 :: 47 :: rest)) = some (pre, tail)) :
    (∃ tail', credMatch x = some (pre, tail')) ∨
      IsScheme (x ++ scheme) ∧ ∃ user, IsUserinfo user ∧ rest = user ++ 64 :: tail := by
  obtain ⟨first, user, hfirst, huser, heq, rfl⟩ := credMatch_eq_some_iff.mp hsome
  rcases all_or_split isSchemeByte x with hall | ⟨y, a, r, rfl, hy, ha⟩
  · -- The scheme of the match runs on into the scheme behind `x`.
    right
    rw [← List.append_assoc] at heq
    have hboth : ∀ b ∈ x ++ scheme, isSchemeByte b = true := by
      intro b hb
      exact (List.mem_append.mp hb).elim (hall b) (hscheme.all b)
    obtain ⟨rfl, -, hrest⟩ := append_cons_inj hboth hfirst.all (by decide) (by decide) heq
    simp only [List.cons.injEq, true_and] at hrest
    exact ⟨hfirst, user, huser, hrest⟩
  · -- The scheme of the match ends in `x`.
    left
    rw [List.append_assoc, List.cons_append] at heq
    obtain ⟨rfl, rfl, hrest⟩ := append_cons_inj hy hfirst.all ha (by decide) heq
    obtain ⟨r₁, rfl, hrest₁⟩ := slash_before hscheme hrest
    obtain ⟨r₂, rfl, hrest₂⟩ := slash_before hscheme hrest₁
    obtain ⟨tail', rfl⟩ := userinfo_before hscheme.all huser.2 hrest₂
    exact ⟨tail', credMatch_text hfirst huser tail'⟩

/-- The pass over a text that ends with `scheme://` and more. -/
theorem scrub_append {x scheme rest : GoString} (hscheme : IsScheme scheme) :
    scrub (x ++ (scheme ++ 58 :: 47 :: 47 :: rest)) =
      scrub x ++ scrub (scheme ++ 58 :: 47 :: 47 :: rest) := by
  induction x using replaceAll_induction credMatcher with
  | nil => rw [scrub_nil, List.nil_append, List.nil_append]
  | skip c cs hnone ih =>
    cases hfind : credMatch (c :: (cs ++ (scheme ++ 58 :: 47 :: 47 :: rest))) with
    | none =>
      rw [List.cons_append, scrub_of_none hfind, ih, scrub_of_none hnone]
      rfl
    | some r =>
      have hbefore : credMatch (c :: cs ++ (scheme ++ 58 :: 47 :: 47 :: rest)) = some (r.1, r.2) :=
        hfind
      rcases credMatch_before hscheme hbefore with ⟨tail', hsome⟩ | ⟨hlong, user, huser, rfl⟩
      · cases hnone.symm.trans hsome
      · have hall : ∀ b ∈ c :: cs, isSchemeByte b = true :=
          fun b hb => hlong.all b (List.mem_append_left _ hb)
        rw [← List.append_assoc, scrub_match hlong huser, scrub_match hscheme huser,
          scrub_scheme_bytes hall, List.append_assoc]
  | found s pre tail hsome ih =>
    obtain ⟨first, user, hfirst, huser, rfl, -⟩ := credMatch_eq_some_iff.mp hsome
    have hassoc : first ++ 58 :: 47 :: 47 :: (user ++ 64 :: tail) ++
        (scheme ++ 58 :: 47 :: 47 :: rest) =
          first ++ 58 :: 47 :: 47 ::
            (user ++ 64 :: (tail ++ (scheme ++ 58 :: 47 :: 47 :: rest))) := by
      simp
    rw [hassoc, scrub_match hfirst huser, ih, scrub_match hfirst huser]
    simp

/-! ## From the output back to the text -/

/-- A userinfo at the head of the output stood at the head of the text. -/
theorem userAt_of_scrub {s : GoString} {user after : GoString}
    (huser : ∀ b ∈ user, isUserinfoByte b = true) (h : scrub s = user ++ 64 :: after) :
    ∃ after', s = user ++ 64 :: after' := by
  induction s using replaceAll_induction credMatcher generalizing user with
  | nil =>
    rw [scrub_nil] at h
    exact absurd h.symm (by simp)
  | skip c cs hnone ih =>
    rw [scrub_of_none hnone] at h
    cases user with
    | nil =>
      obtain ⟨rfl, -⟩ := List.cons.inj h
      exact ⟨cs, rfl⟩
    | cons u us =>
      obtain ⟨rfl, hrest⟩ := List.cons.inj h
      obtain ⟨after', rfl⟩ := ih (fun b hb => huser b (List.mem_cons_of_mem c hb)) hrest
      exact ⟨after', rfl⟩
  | found s pre tail hsome ih =>
    -- The output of a match has a `/` before its first `@`.
    obtain ⟨scheme, user', hscheme, huser', rfl, -⟩ := credMatch_eq_some_iff.mp hsome
    rw [scrub_match hscheme huser', ← List.nil_append (scheme ++ _)] at h
    obtain ⟨tail', hnil⟩ := userinfo_before hscheme.all huser h
    exact absurd hnil.symm (by simp)

/-- A `/` at the head of the output stood at the head of the text. -/
theorem slash_of_scrub {s rest : GoString} (h : scrub s = 47 :: rest) :
    ∃ cs, s = 47 :: cs ∧ scrub cs = rest := by
  cases s with
  | nil =>
    rw [scrub_nil] at h
    cases h
  | cons c cs =>
    cases hfind : credMatch (c :: cs) with
    | none =>
      rw [scrub_of_none hfind] at h
      obtain ⟨rfl, hrest⟩ := List.cons.inj h
      exact ⟨cs, rfl, hrest⟩
    | some r =>
      obtain ⟨scheme, user, hscheme, huser, heq, -⟩ := credMatch_eq_some_iff.mp hfind
      rw [heq, scrub_match hscheme huser] at h
      obtain ⟨d, ds, rfl, hd, -⟩ := hscheme
      obtain ⟨rfl, -⟩ := List.cons.inj h
      cases hd

/-- A match in the output, or the end of one, comes from one in the text. -/
theorem match_of_scrub {s x user after : GoString} (hx : ∀ b ∈ x, isSchemeByte b = true)
    (huser : IsUserinfo user) (h : scrub s = x ++ 58 :: 47 :: 47 :: (user ++ 64 :: after)) :
    ∃ rest, UserAt rest ∧ s = x ++ 58 :: 47 :: 47 :: rest := by
  induction s using replaceAll_induction credMatcher generalizing x with
  | nil =>
    rw [scrub_nil] at h
    exact absurd h.symm (by simp)
  | skip c cs hnone ih =>
    rw [scrub_of_none hnone] at h
    cases x with
    | nil =>
      obtain ⟨rfl, hrest⟩ := List.cons.inj h
      obtain ⟨ds, rfl, hds⟩ := slash_of_scrub hrest
      obtain ⟨es, rfl, hes⟩ := slash_of_scrub hds
      obtain ⟨after', rfl⟩ := userAt_of_scrub huser.2 hes
      exact ⟨_, ⟨user, after', huser, rfl⟩, rfl⟩
    | cons d x =>
      obtain ⟨rfl, hrest⟩ := List.cons.inj h
      obtain ⟨rest, hat, rfl⟩ := ih (fun b hb => hx b (List.mem_cons_of_mem c hb)) hrest
      exact ⟨rest, hat, rfl⟩
  | found s pre tail hsome ih =>
    obtain ⟨scheme, user', hscheme, huser', rfl, -⟩ := credMatch_eq_some_iff.mp hsome
    rw [scrub_match hscheme huser'] at h
    obtain ⟨rfl, -, -⟩ := append_cons_inj hscheme.all hx (by decide) (by decide) h
    exact ⟨_, ⟨user', tail, huser', rfl⟩, rfl⟩

/-! ## When a match is left -/

/-- A match of `credRe` that a second userinfo with its `@` follows. -/
def Nested (s : GoString) : Prop :=
  ∃ before scheme user rest, IsScheme scheme ∧ IsUserinfo user ∧ UserAt rest ∧
    s = before ++ (scheme ++ 58 :: 47 :: 47 :: (user ++ 64 :: rest))

theorem Nested.cons {s : GoString} (h : Nested s) (x : GoString) : Nested (x ++ s) := by
  obtain ⟨before, scheme, user, rest, hscheme, huser, hat, rfl⟩ := h
  exact ⟨x ++ before, scheme, user, rest, hscheme, huser, hat, by rw [List.append_assoc]⟩

/-- No substring of the form `scheme://userinfo@`. -/
def Clean (s : GoString) : Prop := NoMatch credMatcher s

theorem clean_cons {c : UInt8} {cs : GoString} :
    Clean (c :: cs) ↔ credMatch (c :: cs) = none ∧ Clean cs :=
  Iff.rfl

theorem clean_scheme {x rest : GoString} (hx : ∀ b ∈ x, isSchemeByte b = true)
    (h : ¬UserAt rest) (hrest : Clean rest) : Clean (x ++ 58 :: 47 :: 47 :: rest) := by
  induction x with
  | nil =>
    rw [List.nil_append, clean_cons, clean_cons, clean_cons]
    exact ⟨credMatch_of_not_alpha (by decide), credMatch_of_not_alpha (by decide),
      credMatch_of_not_alpha (by decide), hrest⟩
  | cons c x ih =>
    exact ⟨credMatch_scheme hx h, ih fun b hb => hx b (List.mem_cons_of_mem c hb)⟩

theorem clean_scrub {s : GoString} (h : ¬Nested s) : Clean (scrub s) := by
  induction s using replaceAll_induction credMatcher with
  | nil =>
    rw [scrub_nil]
    trivial
  | skip c cs hnone ih =>
    rw [scrub_of_none hnone, clean_cons]
    refine ⟨?_, ih fun hcs => h (hcs.cons [c])⟩
    -- A match that starts here would have been one of the text.
    rw [Option.eq_none_iff_forall_ne_some]
    rintro ⟨pre, tail⟩ hsome
    obtain ⟨scheme, user, ⟨d, ds, rfl, hd, hds⟩, huser, heq, -⟩ :=
      credMatch_eq_some_iff.mp hsome
    obtain ⟨rfl, hcs⟩ := List.cons.inj heq
    obtain ⟨rest, ⟨user', tail', huser', rfl⟩, rfl⟩ := match_of_scrub hds huser hcs
    cases hnone.symm.trans (credMatch_text ⟨c, ds, rfl, hd, hds⟩ huser' tail')
  | found s pre tail hsome ih =>
    obtain ⟨scheme, user, hscheme, huser, rfl, -⟩ := credMatch_eq_some_iff.mp hsome
    rw [scrub_match hscheme huser]
    refine clean_scheme hscheme.all ?_ (ih fun htail => h ?_)
    · rintro ⟨user', after, huser', heq⟩
      obtain ⟨after', rfl⟩ := userAt_of_scrub huser'.2 heq
      exact h ⟨[], scheme, user, _, hscheme, huser, ⟨user', after', huser', rfl⟩, rfl⟩
    · have hcons := htail.cons (scheme ++ 58 :: 47 :: 47 :: (user ++ [64]))
      simpa using hcons

/-- The pass leaves a match exactly if a second `@` ends a userinfo. -/
theorem clean_scrub_iff {s : GoString} : Clean (scrub s) ↔ ¬Nested s := by
  refine ⟨?_, clean_scrub⟩
  rintro hclean ⟨before, scheme, user, _, hscheme, huser, ⟨user', tail, huser', rfl⟩, rfl⟩
  have hslash : 47 ∉ user' := fun hmem => by cases huser'.2 47 hmem
  rw [scrub_append hscheme, scrub_match hscheme huser, scrub_no_slash hslash] at hclean
  have hnone := NoMatch.find_eq hclean (by simp)
  cases hnone.symm.trans (credMatch_text hscheme huser' (scrub tail))

theorem clean_iff {s : GoString} : Clean s ↔ scrub s = s := replaceAll_eq_self_iff.symm

theorem length_scrub_le (s : GoString) : (scrub s).length ≤ s.length := length_replaceAll_le s

/-- Cutting a text makes no match. -/
theorem Clean.take {s : GoString} (h : Clean s) (n : Nat) : Clean (s.take n) := by
  induction s generalizing n with
  | nil =>
    rw [List.take_nil]
    trivial
  | cons c cs ih =>
    cases n with
    | zero => trivial
    | succ n =>
      rw [List.take_succ_cons, clean_cons]
      refine ⟨?_, ih h.2 n⟩
      rw [Option.eq_none_iff_forall_ne_some]
      rintro ⟨pre, tail⟩ hsome
      obtain ⟨scheme, user, hscheme, huser, heq, -⟩ := credMatch_eq_some_iff.mp hsome
      have hwhole : c :: cs = scheme ++ 58 :: 47 :: 47 :: (user ++ 64 :: (tail ++ cs.drop n)) := by
        have hjoin := congrArg (· ++ cs.drop n) heq
        simpa using hjoin
      have hnone := h.1
      rw [hwhole] at hnone
      cases hnone.symm.trans (credMatch_text hscheme huser _)

theorem sanitizeErrMsg_of_length_le {s : GoString} (h : s.length ≤ maxDetailLen) :
    sanitizeErrMsg s = scrub s := by
  rw [sanitizeErrMsg_eq]
  exact List.take_of_length_le ((length_scrub_le s).trans h)

theorem clean_iff_sanitize {s : GoString} (h : s.length ≤ maxDetailLen) :
    Clean s ↔ sanitizeErrMsg s = s := by
  rw [sanitizeErrMsg_of_length_le h, clean_iff]

/-! ## Credentials of a URL -/

/-- The bytes that `url.Parse` accepts in a userinfo: letters, digits and
`-._:~!$&'()*+,;=%@`. -/
def validUserinfo (b : UInt8) : Bool :=
  isAlpha b || (48 ≤ b && b ≤ 57) ||
    [45, 46, 95, 58, 126, 33, 36, 38, 39, 40, 41, 42, 43, 44, 59, 61, 37, 64].contains b

/-- A URL with credentials.  `url.Parse` ends the userinfo at the last `@` of the
authority, and the authority at the first `/`. -/
structure CredUrl where
  scheme : GoString
  userinfo : GoString
  host : GoString
  path : GoString
  scheme_ok : IsScheme scheme
  userinfo_ok : ∀ b ∈ userinfo, validUserinfo b = true
  userinfo_ne : userinfo ≠ []
  host_ok : 47 ∉ host

def CredUrl.text (u : CredUrl) : GoString :=
  u.scheme ++ 58 :: 47 :: 47 :: (u.userinfo ++ 64 :: (u.host ++ u.path))

/-- Apart from the `@` itself the two classes agree on what a userinfo may be. -/
theorem isUserinfoByte_of_valid {b : UInt8} (h : validUserinfo b = true) (hat : b ≠ 64) :
    isUserinfoByte b = true := by
  by_contra hnot
  rw [Bool.not_eq_true, isUserinfoByte, Bool.not_eq_false'] at hnot
  simp only [Bool.or_eq_true, beq_iff_eq] at hnot
  rcases hnot with (((((rfl | rfl) | rfl) | rfl) | rfl) | rfl) | rfl
  · cases h
  · exact hat rfl
  all_goals cases h

theorem CredUrl.no_slash (u : CredUrl) : 47 ∉ u.userinfo :=
  fun hmem => by cases u.userinfo_ok 47 hmem

/-- The host is not touched. -/
theorem host_scrub {host rest : GoString} (h : 47 ∉ host) : host <+: scrub (host ++ rest) := by
  induction host with
  | nil => exact List.nil_prefix
  | cons b host ih =>
    cases hfind : credMatch (b :: (host ++ rest)) with
    | none =>
      rw [List.cons_append, scrub_of_none hfind]
      exact List.cons_prefix_cons.mpr ⟨rfl, ih fun hmem => h (List.mem_cons_of_mem b hmem)⟩
    | some r =>
      -- A match that starts in the host has its first `/` behind it.
      obtain ⟨scheme, user, hscheme, huser, heq, -⟩ := credMatch_eq_some_iff.mp hfind
      rw [List.cons_append, heq, scrub_match hscheme huser]
      have hsplit : b :: host ++ rest = scheme ++ [58] ++ 47 :: 47 :: (user ++ 64 :: r.2) := by
        rw [List.cons_append, heq]
        simp
      rcases List.append_eq_append_iff.mp hsplit with ⟨l, hl, -⟩ | ⟨l, hl, hrest⟩
      · refine ⟨l ++ 47 :: 47 :: scrub r.2, ?_⟩
        rw [← List.append_assoc, ← hl]
        simp
      · cases l with
        | nil => exact ⟨47 :: 47 :: scrub r.2, by rw [hl]; simp⟩
        | cons d l =>
          obtain rfl : 47 = d := (List.cons.inj hrest).1
          exact absurd (hl ▸ by simp) h

/-- Of credentials with an `@` the part behind it stays. -/
theorem scrub_userinfo_at (u : CredUrl) (hat : 64 ∈ u.userinfo) (rest : GoString) :
    ∃ kept, scrub (u.scheme ++ 58 :: 47 :: 47 :: (u.userinfo ++ 64 :: rest)) =
      u.scheme ++ 58 :: 47 :: 47 :: (kept ++ 64 :: scrub rest) := by
  rcases all_or_split isUserinfoByte u.userinfo with hall | ⟨x, a, r, hsplit, hx, ha⟩
  · cases hall 64 hat
  · have hslash := u.no_slash
    have hvalid : validUserinfo a = true := u.userinfo_ok a (by simp [hsplit])
    obtain rfl : a = 64 := by
      by_contra hne
      rw [isUserinfoByte_of_valid hvalid hne] at ha
      cases ha
    rw [hsplit] at hslash
    have hr : 47 ∉ r := fun hmem => hslash (by simp [hmem])
    rw [hsplit, List.append_assoc, List.cons_append]
    cases x with
    | nil =>
      have hnot : ¬UserAt (64 :: (r ++ 64 :: rest)) := by
        rintro ⟨user, tail, ⟨hne, huser⟩, heq⟩
        obtain ⟨b, user, rfl⟩ := List.exists_cons_of_ne_nil hne
        obtain rfl : 64 = b := (List.cons.inj heq).1
        cases huser 64 List.mem_cons_self
      refine ⟨64 :: r, ?_⟩
      rw [List.nil_append, scrub_scheme u.scheme_ok.all hnot, ← List.cons_append,
        scrub_no_slash (by simpa using hr)]
    | cons b x =>
      refine ⟨r, ?_⟩
      rw [scrub_match u.scheme_ok ⟨List.cons_ne_nil b x, hx⟩, scrub_no_slash hr]

/-- The credentials are removed exactly if they have no `@`. -/
theorem scrub_url (before after : GoString) (u : CredUrl) :
    scrub (before ++ (u.text ++ after)) =
      scrub before ++ (u.scheme ++ 58 :: 47 :: 47 :: scrub (u.host ++ u.path ++ after)) ↔
        64 ∉ u.userinfo := by
  have hassoc : u.text ++ after = u.scheme ++ 58 :: 47 :: 47 ::
      (u.userinfo ++ 64 :: (u.host ++ u.path ++ after)) := by
    simp [CredUrl.text]
  rw [hassoc, scrub_append u.scheme_ok, List.append_cancel_left_eq]
  constructor
  · intro heq hmem
    obtain ⟨kept, hkept⟩ := scrub_userinfo_at u hmem (u.host ++ u.path ++ after)
    have hlen := congrArg List.length (hkept.symm.trans heq)
    simp only [List.length_append, List.length_cons] at hlen
    omega
  · intro hat
    have huser : IsUserinfo u.userinfo :=
      ⟨u.userinfo_ne,
        fun b hb => isUserinfoByte_of_valid (u.userinfo_ok b hb) fun h64 => hat (h64 ▸ hb)⟩
    exact scrub_match u.scheme_ok huser

/-- What `sanitizeErrMsg` leaves of a text.  Nothing of the form
`scheme://userinfo@` is left if no such match is followed by more text up to
another `@`, and for the pass before the cut this is the exact condition; the
credentials of a URL are removed, up to its host, exactly if they have no `@`. -/
theorem sanitize_complete (s : GoString) :
    (¬Nested s → Clean (sanitizeErrMsg s)) ∧ (Clean (scrub s) ↔ ¬Nested s) ∧
    (Clean (sanitizeErrMsg s) ↔ sanitizeErrMsg (sanitizeErrMsg s) = sanitizeErrMsg s) ∧
    (∀ before after u, s = before ++ (CredUrl.text u ++ after) →
      (u.host <+: scrub (u.host ++ u.path ++ after) ∧
        (64 ∉ u.userinfo ↔ scrub s = scrub before ++
          (u.scheme ++ 58 :: 47 :: 47 :: scrub (u.host ++ u.path ++ after))))) ∧
    sanitizeErrMsg s = (scrub s).take 1024 ∧ (sanitizeErrMsg s).length ≤ 1024 ∧
    (s.length ≤ 1024 → Clean s → sanitizeErrMsg s = s) := by
  refine ⟨fun h => ?_, clean_scrub_iff, clean_iff_sanitize (length_sanitizeErrMsg_le s), ?_,
    sanitizeErrMsg_eq s, length_sanitizeErrMsg_le s, fun hlen => (clean_iff_sanitize hlen).mp⟩
  · rw [sanitizeErrMsg_eq]
    exact (clean_scrub h).take maxDetailLen
  · rintro before after u rfl
    refine ⟨?_, (scrub_url before after u).symm⟩
    rw [List.append_assoc]
    exact host_scrub u.host_ok

/-- A password with an `@`. -/
theorem sanitize_leaves_password :
    sanitizeErrMsg (goString "ftp://u:p@ss@host/x") = goString "ftp://ss@host/x" ∧
      ¬Clean (sanitizeErrMsg (goString "ftp://u:p@ss@host/x")) ∧
      sanitizeErrMsg (goString "ftp://ss@host/x") = goString "ftp://host/x" := by
  have hleft : sanitizeErrMsg (goString "ftp://u:p@ss@host/x") = goString "ftp://ss@host/x" := by
    decide
  have hagain : sanitizeErrMsg (goString "ftp://ss@host/x") = goString "ftp://host/x" := by decide
  refine ⟨hleft, ?_, hagain⟩
  rw [hleft, clean_iff_sanitize (by decide), hagain]
  decide

end ImgSync.Worker
