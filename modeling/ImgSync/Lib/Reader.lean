import Mathlib.Tactic

/-!
# Readers, writers, and the copy loop

Byte streams in the style of Go's `io` package.  A reader is asked with the
size of a buffer and answers with at most that many bytes, possibly together
with the end of the stream or an error; an empty answer without either is
allowed.  A writer takes a prefix of what it is given.

`copy` is the loop of `io.Copy`.  It may not end, because a reader may answer
with nothing forever, so it has fuel, and `none` is a loop that has not ended
yet.

* `Delivers r n s ds x s'`: asked with buffers of size `n`, the reader answers
  the chunks `ds` and then ends with `x`.
* `Accepts w t ds t'`: the writer takes the chunks `ds` in full.
* `copy_cases` says how a copy ends in these terms, and `copy_returns` that the
  copy of a stream which ends returns with enough fuel.
* `tee` and `multiWriter` put a second writer next to a reader or a writer.
  `delivers_of_tee` and `accepts_of_multiWriter` take the two apart again.
-/

namespace ImgSync.Lib

/-- How a stream ends. -/
inductive Stop (ε : Type*) where
  | eof
  | error (e : ε)

/-- The error that the end of a stream is for its consumer. -/
def Stop.err? {ε : Type*} : Stop ε → Option ε
  | .eof => none
  | .error e => some e

/-- The answer of one read. -/
structure ReadResult (ε : Type*) where
  data : List UInt8
  stop : Option (Stop ε)

/-- A reader does not answer more than fits the buffer. -/
structure Reader (σ ε : Type*) where
  read : σ → Nat → ReadResult ε × σ
  fits : ∀ s n, (read s n).1.data.length ≤ n

/-- A writer answers how many bytes it has taken, and the error if there is
one. -/
structure Writer (τ ε : Type*) where
  write : τ → List UInt8 → (Nat × Option ε) × τ
  fits : ∀ t p, (write t p).1.1 ≤ p.length

variable {σ τ τ' ε : Type*}

/-! ## What a reader delivers and a writer accepts -/

inductive Delivers (r : Reader σ ε) (n : Nat) : σ → List (List UInt8) → Stop ε → σ → Prop where
  | last {s s' : σ} {d : List UInt8} {x : Stop ε} (h : r.read s n = (⟨d, some x⟩, s')) :
      Delivers r n s [d] x s'
  | more {s s' s'' : σ} {d : List UInt8} {ds : List (List UInt8)} {x : Stop ε}
      (h : r.read s n = (⟨d, none⟩, s')) (hrest : Delivers r n s' ds x s'') :
      Delivers r n s (d :: ds) x s''

/-- The answers to reads with buffers of the given sizes, one after the other. -/
def readSeq (r : Reader σ ε) : σ → List Nat → List (ReadResult ε) × σ
  | s, [] => ([], s)
  | s, n :: ns =>
    ((r.read s n).1 :: (readSeq r (r.read s n).2 ns).1, (readSeq r (r.read s n).2 ns).2)

theorem readSeq_append (r : Reader σ ε) (s : σ) (ns ms : List Nat) :
    readSeq r s (ns ++ ms) =
      ((readSeq r s ns).1 ++ (readSeq r (readSeq r s ns).2 ms).1,
        (readSeq r (readSeq r s ns).2 ms).2) := by
  induction ns generalizing s with
  | nil => rfl
  | cons n ns ih => simp only [List.cons_append, readSeq, ih]

theorem readSeq_concat (r : Reader σ ε) (s : σ) (ns : List Nat) (n : Nat) :
    readSeq r s (ns ++ [n]) =
      ((readSeq r s ns).1 ++ [(r.read (readSeq r s ns).2 n).1],
        (r.read (readSeq r s ns).2 n).2) := readSeq_append r s ns [n]

/-- Empty chunks are not written. -/
inductive Accepts (w : Writer τ ε) : τ → List (List UInt8) → τ → Prop where
  | nil (t : τ) : Accepts w t [] t
  | skip {t t' : τ} {ds : List (List UInt8)} (h : Accepts w t ds t') : Accepts w t ([] :: ds) t'
  | write {t t' t'' : τ} {d : List UInt8} {ds : List (List UInt8)} (hd : d ≠ [])
      (h : w.write t d = ((d.length, none), t')) (hrest : Accepts w t' ds t'') :
      Accepts w t (d :: ds) t''

/-! ## The copy loop -/

/-- What `io.Copy` answers, with the states that it leaves. -/
structure Copied (σ τ ε : Type*) where
  reader : σ
  writer : τ
  written : Nat
  err : Option ε

/-- `io.Copy` with a buffer of `n` bytes.  `short` is `io.ErrShortWrite`. -/
def copy (r : Reader σ ε) (w : Writer τ ε) (short : ε) (n : Nat) :
    Nat → σ → τ → Nat → Option (Copied σ τ ε)
  | 0, _, _, _ => none
  | fuel + 1, s, t, written =>
    let (res, s') := r.read s n
    let next (t' : τ) (written' : Nat) : Option (Copied σ τ ε) :=
      res.stop.elim (copy r w short n fuel s' t' written')
        fun x => some ⟨s', t', written', x.err?⟩
    if res.data = [] then next t written
    else
      let ((taken, err), t') := w.write t res.data
      match err with
      | some e => some ⟨s', t', written + taken, some e⟩
      | none =>
        if taken = res.data.length then next t' (written + taken)
        else some ⟨s', t', written + taken, some short⟩

/-- The write of the chunk `d` stops the copy with the error `e`. -/
structure Breaks (w : Writer τ ε) (short : ε) (t : τ) (d : List UInt8) (e : ε) (t' : τ) : Prop where
  nonempty : d ≠ []
  state : (w.write t d).2 = t'
  err : (w.write t d).1.2 = some e ∨
    (w.write t d).1.2 = none ∧ (w.write t d).1.1 ≠ d.length ∧ e = short

/-- How a copy ends: the reader has ended and the writer has taken all of it,
or a write has failed. -/
theorem copy_cases (r : Reader σ ε) (w : Writer τ ε) (short : ε) (n fuel : Nat) {s : σ} {t : τ}
    {k : Nat} {c : Copied σ τ ε} (h : copy r w short n fuel s t k = some c) :
    (∃ ds x, Delivers r n s ds x c.reader ∧ Accepts w t ds c.writer ∧
      c.written = k + ds.flatten.length ∧ c.err = x.err?) ∨
    ∃ ds d t' e, Accepts w t ds t' ∧ Breaks w short t' d e c.writer ∧ c.err = some e := by
  induction fuel generalizing s t k with
  | zero => cases h
  | succ fuel ih =>
    obtain ⟨⟨d, stop⟩, s', hread⟩ : ∃ res s', r.read s n = (res, s') := ⟨_, _, rfl⟩
    simp only [copy, hread] at h
    -- What is left of the loop, once the chunk is written.
    have hnext : ∀ t' k', stop.elim (copy r w short n fuel s' t' k')
        (fun x => some ⟨s', t', k', x.err?⟩) = some c → k' = k + d.length →
        (∀ ds t'', Accepts w t' ds t'' → Accepts w t (d :: ds) t'') →
        (∃ ds x, Delivers r n s ds x c.reader ∧ Accepts w t ds c.writer ∧
          c.written = k + ds.flatten.length ∧ c.err = x.err?) ∨
        ∃ ds d t' e, Accepts w t ds t' ∧ Breaks w short t' d e c.writer ∧ c.err = some e := by
      intro t' k' hk hlen haccept
      cases stop with
      | some x =>
        obtain rfl := Option.some.inj hk
        refine Or.inl ⟨[d], x, .last hread, haccept [] t' (.nil t'), ?_, rfl⟩
        simpa using hlen
      | none =>
        rcases ih hk with ⟨ds, x, hd, ha, hw, he⟩ | ⟨ds, d', t'', e, ha, hb, he⟩
        · refine Or.inl ⟨d :: ds, x, .more hread hd, haccept ds _ ha, ?_, he⟩
          rw [hw, hlen, List.flatten_cons, List.length_append, Nat.add_assoc]
        · exact Or.inr ⟨d :: ds, d', t'', e, haccept ds _ ha, hb, he⟩
    split at h
    · rename_i hd
      subst hd
      exact hnext t k h rfl fun ds t'' ha => .skip ha
    · rename_i hd
      split at h
      · rename_i e he
        obtain rfl := Option.some.inj h
        exact Or.inr ⟨[], d, t, e, .nil t, ⟨hd, rfl, Or.inl he⟩, rfl⟩
      · rename_i he
        split at h
        · rename_i htaken
          refine hnext _ _ h (by rw [htaken]) fun ds t'' ha => .write hd ?_ ha
          exact Prod.ext (Prod.ext htaken he) rfl
        · rename_i htaken
          obtain rfl := Option.some.inj h
          exact Or.inr ⟨[], d, t, short, .nil t, ⟨hd, rfl, Or.inr ⟨he, htaken, rfl⟩⟩, rfl⟩

/-- The reader ends within `m` reads. -/
def Ends (r : Reader σ ε) (n : Nat) : Nat → σ → Prop
  | 0, _ => False
  | m + 1, s => (r.read s n).1.stop ≠ none ∨ Ends r n m (r.read s n).2

theorem Delivers.ends {r : Reader σ ε} {n : Nat} {s s' : σ} {ds : List (List UInt8)} {x : Stop ε}
    (h : Delivers r n s ds x s') : Ends r n ds.length s := by
  induction h with
  | last h =>
    left
    rw [h]
    simp
  | more h hrest ih =>
    right
    rw [h]
    exact ih

/-- The copy of a reader that ends returns, whatever the writer does. -/
theorem copy_returns (r : Reader σ ε) (w : Writer τ ε) (short : ε) {n m : Nat} {s : σ}
    (h : Ends r n m s) (t : τ) (k : Nat) {fuel : Nat} (hfuel : m ≤ fuel) :
    (copy r w short n fuel s t k).isSome = true := by
  induction m generalizing s t k fuel with
  | zero => exact h.elim
  | succ m ih =>
    obtain ⟨fuel, rfl⟩ : ∃ j, fuel = j + 1 := ⟨fuel - 1, by omega⟩
    have hnext : ∀ t' k', ((r.read s n).1.stop.elim (copy r w short n fuel (r.read s n).2 t' k')
        fun x => some ⟨(r.read s n).2, t', k', x.err?⟩).isSome = true := by
      intro t' k'
      cases hstop : (r.read s n).1.stop with
      | some x => rfl
      | none =>
        rcases h with hend | hend
        · exact absurd hstop hend
        · exact ih hend t' k' (by omega)
    simp only [copy]
    split
    · exact hnext t k
    · split
      · rfl
      · split
        · exact hnext _ _
        · rfl

/-! ## A second writer -/

/-- A writer that collects what it is given, such as a hash. -/
def appendWriter (ε : Type*) : Writer (List UInt8) ε where
  write := fun t p => ((p.length, none), t ++ p)
  fits := fun _ _ => le_rfl

/-- `io.TeeReader`. -/
def tee (r : Reader σ ε) (w : Writer τ ε) : Reader (σ × τ) ε where
  read := fun (s, t) n =>
    let (res, s') := r.read s n
    if res.data = [] then (res, s', t)
    else
      let ((taken, err), t') := w.write t res.data
      match err with
      | some e => (⟨res.data.take taken, some (.error e)⟩, s', t')
      | none => (res, s', t')
  fits := by
    rintro ⟨s, t⟩ n
    have hfits := r.fits s n
    dsimp only
    split
    · exact hfits
    · split
      · exact (List.length_take_le' _ _).trans hfits
      · exact hfits

/-- `io.MultiWriter` of two writers. -/
def multiWriter (short : ε) (w : Writer τ ε) (w' : Writer τ' ε) : Writer (τ × τ') ε where
  write := fun (t, t') p =>
    let ((taken, err), u) := w.write t p
    match err with
    | some e => ((taken, some e), u, t')
    | none =>
      if taken = p.length then
        let ((taken', err'), u') := w'.write t' p
        match err' with
        | some e => ((taken', some e), u, u')
        | none =>
          if taken' = p.length then ((p.length, none), u, u') else ((taken', some short), u, u')
      else ((taken, some short), u, t')
  fits := by
    rintro ⟨t, t'⟩ p
    have hfits := w.fits t p
    have hfits' := w'.fits t' p
    dsimp only
    repeat' split
    all_goals first | exact hfits | exact hfits' | exact le_rfl

theorem Ends.tee {r : Reader σ ε} (w : Writer τ ε) {n m : Nat} {s : σ} (h : Ends r n m s) (t : τ) :
    Ends (tee r w) n m (s, t) := by
  induction m generalizing s t with
  | zero => exact h
  | succ m ih =>
    unfold Ends at h ⊢
    simp only [Lib.tee]
    split
    · exact h.imp id fun hend => ih hend t
    · split
      · left
        simp
      · exact h.imp id fun hend => ih hend _

/-- The writer takes every chunk. -/
def Writer.Total (w : Writer τ ε) : Prop := ∀ t p, (w.write t p).1 = (p.length, none)

theorem appendWriter_total (ε : Type*) : (appendWriter ε).Total := fun _ _ => rfl

theorem accepts_appendWriter {t t' : List UInt8} {ds : List (List UInt8)}
    (h : Accepts (appendWriter ε) t ds t') : t' = t ++ ds.flatten := by
  induction h with
  | nil t => simp
  | skip h ih => simpa using ih
  | write hd h hrest ih =>
    obtain ⟨_, rfl⟩ := Prod.mk.inj h
    rw [ih, List.flatten_cons, List.append_assoc]

/-- A tee next to a writer that takes everything passes the stream on. -/
theorem delivers_of_tee {r : Reader σ ε} {w : Writer τ ε} (hw : w.Total) {n : Nat} {s s' : σ × τ}
    {ds : List (List UInt8)} {x : Stop ε} (h : Delivers (tee r w) n s ds x s') :
    Delivers r n s.1 ds x s'.1 ∧ Accepts w s.2 ds s'.2 := by
  have hread : ∀ (s : σ × τ) res s', (tee r w).read s n = (res, s') →
      r.read s.1 n = (res, s'.1) ∧
        ∀ ds t', Accepts w s'.2 ds t' → Accepts w s.2 (res.data :: ds) t' := by
    intro s res s' h
    have htotal := hw s.2 (r.read s.1 n).1.data
    simp only [tee] at h
    split at h
    · rename_i hd
      obtain ⟨rfl, rfl⟩ := Prod.mk.inj h
      refine ⟨rfl, fun ds t' ha => ?_⟩
      rw [hd]
      exact .skip ha
    · rename_i hd
      split at h
      · rename_i e he
        cases (congrArg Prod.snd htotal).symm.trans he
      · obtain ⟨rfl, rfl⟩ := Prod.mk.inj h
        exact ⟨rfl, fun ds t' ha => .write hd (Prod.ext htotal rfl) ha⟩
  induction h with
  | last h =>
    obtain ⟨hr, ha⟩ := hread _ _ _ h
    exact ⟨.last hr, ha [] _ (.nil _)⟩
  | more h hrest ih =>
    obtain ⟨hr, ha⟩ := hread _ _ _ h
    exact ⟨.more hr ih.1, ha _ _ ih.2⟩

/-- The pair takes a chunk in full only if both writers do. -/
theorem multiWriter_write {short : ε} {w : Writer τ ε} {w' : Writer τ' ε} {t t' : τ × τ'}
    {p : List UInt8} (h : (multiWriter short w w').write t p = ((p.length, none), t')) :
    w.write t.1 p = ((p.length, none), t'.1) ∧ w'.write t.2 p = ((p.length, none), t'.2) := by
  obtain ⟨⟨⟨taken, err⟩, u⟩, hw⟩ : ∃ res, w.write t.1 p = res := ⟨_, rfl⟩
  obtain ⟨⟨⟨taken', err'⟩, u'⟩, hw'⟩ : ∃ res, w'.write t.2 p = res := ⟨_, rfl⟩
  simp only [multiWriter, hw, hw'] at h
  cases err with
  | some e => cases congrArg (fun x => x.1.2) h
  | none =>
    simp only at h
    split at h
    · rename_i htaken
      cases err' with
      | some e => cases congrArg (fun x => x.1.2) h
      | none =>
        simp only at h
        split at h
        · rename_i htaken'
          obtain ⟨_, rfl⟩ := Prod.mk.inj h
          exact ⟨by rw [hw, htaken], by rw [hw', htaken']⟩
        · cases congrArg (fun x => x.1.2) h
    · cases congrArg (fun x => x.1.2) h

/-- The pair breaks in the first writer if the second one takes everything. -/
theorem breaks_of_multiWriter {short : ε} {w : Writer τ ε} {w' : Writer τ' ε} (hw' : w'.Total)
    {t t' : τ × τ'} {d : List UInt8} {e : ε}
    (h : Breaks (multiWriter short w w') short t d e t') : Breaks w short t.1 d e t'.1 := by
  obtain ⟨hne, rfl, herr⟩ := h
  have htotal := hw' t.2 d
  obtain ⟨⟨⟨taken, err⟩, u⟩, hw⟩ : ∃ res, w.write t.1 d = res := ⟨_, rfl⟩
  obtain ⟨⟨⟨taken', err'⟩, u'⟩, hwr⟩ : ∃ res, w'.write t.2 d = res := ⟨_, rfl⟩
  rw [hwr] at htotal
  obtain ⟨rfl, rfl⟩ := Prod.mk.inj htotal
  simp only [multiWriter, hw, hwr] at herr ⊢
  cases err with
  | some e' =>
    refine ⟨hne, by rw [hw], Or.inl ?_⟩
    rcases herr with herr | ⟨herr, _⟩
    · rw [hw, ← herr]
    · cases herr
  | none =>
    simp only at herr ⊢
    split at herr
    · rename_i htaken
      rcases herr with herr | ⟨_, hlen, _⟩
      · cases herr
      · exact absurd rfl hlen
    · rename_i htaken
      rw [if_neg htaken]
      refine ⟨hne, by rw [hw], Or.inr ⟨by rw [hw], by rw [hw]; exact htaken, ?_⟩⟩
      rcases herr with herr | ⟨herr, _⟩
      · exact (Option.some.inj herr).symm
      · cases herr

theorem accepts_of_multiWriter {short : ε} {w : Writer τ ε} {w' : Writer τ' ε} {t t' : τ × τ'}
    {ds : List (List UInt8)} (h : Accepts (multiWriter short w w') t ds t') :
    Accepts w t.1 ds t'.1 ∧ Accepts w' t.2 ds t'.2 := by
  induction h with
  | nil t => exact ⟨.nil _, .nil _⟩
  | skip h ih => exact ⟨.skip ih.1, .skip ih.2⟩
  | write hd h hrest ih =>
    obtain ⟨hw, hw'⟩ := multiWriter_write h
    exact ⟨.write hd hw ih.1, .write hd hw' ih.2⟩

end ImgSync.Lib
