import ImgSync.Lib.Reader

/-!
# A reader that honours its context

`NewCtxReader` (`internal/transfer/ctxreader.go`) runs every read of the
underlying reader in a goroutine, and stops waiting for it when the context is
cancelled.  An abandoned read still takes its bytes from the stream, and its
result stays in the channel `pending`.

`CtxAt` says what the context does during one call.  A cancelled context stays
cancelled.
-/

namespace ImgSync.Transfer

open ImgSync.Lib

/-- The context during one call of `Read`: it is not cancelled, it is
cancelled when the call begins, or it is cancelled while the underlying read
runs.  In the last case the result may be there as well, and `select` may
choose it. -/
inductive CtxAt where
  | live
  | cancelled
  | during (delivered : Bool)
  deriving DecidableEq, Repr

/-- The state of a `ctxReader`.  `calls` is the number of calls so far. -/
structure CtxState (σ ε : Type) where
  inner : σ
  calls : Nat
  cancelled : Bool
  pending : Option (ReadResult ε)

variable {σ ε : Type}

/-- The read that the call waits for: the abandoned one, or a new one. -/
def awaited (r : Reader σ ε) (s : CtxState σ ε) (n : Nat) : ReadResult ε × σ :=
  match s.pending with
  | some res => (res, s.inner)
  | none => r.read s.inner n

/-- `NewCtxReader`. -/
def ctxReader (ctx : Nat → CtxAt) (ctxErr : ε) (r : Reader σ ε) : Reader (CtxState σ ε) ε where
  read := fun s n =>
    if s.cancelled = true ∨ ctx s.calls = .cancelled then
      (⟨[], some (.error ctxErr)⟩, { s with calls := s.calls + 1, cancelled := true })
    else
      let (res, inner) := awaited r s n
      if ctx s.calls = .during false then
        (⟨[], some (.error ctxErr)⟩,
          { inner := inner, calls := s.calls + 1, cancelled := true, pending := some res })
      else
        (⟨res.data.take n, res.stop⟩,
          { inner := inner, calls := s.calls + 1
            cancelled := decide (ctx s.calls = .during true), pending := none })
  fits := by
    intro s n
    dsimp only
    split
    · exact Nat.zero_le n
    · split
      · exact Nat.zero_le n
      · exact List.length_take_le _ _

def CtxState.initial (s : σ) : CtxState σ ε := ⟨s, 0, false, none⟩

section Eof

variable {ctx : Nat → CtxAt} {ctxErr : ε} {r : Reader σ ε} {n : Nat}

/-- A call that does not answer with the error of the context passes on a new
read of the underlying reader. -/
theorem ctxReader_read {s s' : CtxState σ ε} {res : ReadResult ε} (hp : s.pending = none)
    (h : (ctxReader ctx ctxErr r).read s n = (res, s')) :
    res.stop = some (.error ctxErr) ∨
      s.cancelled = false ∧ s'.pending = none ∧ r.read s.inner n = (res, s'.inner) := by
  simp only [ctxReader, awaited, hp] at h
  split at h
  · obtain ⟨rfl, _⟩ := Prod.mk.inj h
    exact Or.inl rfl
  · rename_i hlive
    split at h
    · obtain ⟨rfl, _⟩ := Prod.mk.inj h
      exact Or.inl rfl
    · obtain ⟨rfl, rfl⟩ := Prod.mk.inj h
      have hfits := r.fits s.inner n
      refine Or.inr ⟨Bool.eq_false_of_not_eq_true fun hc => hlive (Or.inl hc), rfl, ?_⟩
      show r.read s.inner n = (⟨(r.read s.inner n).1.data.take n, _⟩, _)
      rw [List.take_of_length_le hfits]

/-- A stream that ends with the end of file is the stream of the underlying
reader. -/
theorem delivers_of_ctxReader {s s' : CtxState σ ε} {ds : List (List UInt8)} {x : Stop ε}
    (h : Delivers (ctxReader ctx ctxErr r) n s ds x s') (hp : s.pending = none) (hx : x = .eof) :
    Delivers r n s.inner ds .eof s'.inner := by
  induction h with
  | last h =>
    subst hx
    rcases ctxReader_read hp h with hstop | ⟨_, _, hr⟩
    · cases hstop
    · exact .last hr
  | more h hrest ih =>
    rcases ctxReader_read hp h with hstop | ⟨_, hp', hr⟩
    · cases hstop
    · exact .more hr (ih hp' hx)

/-- The context reader ends no later than the underlying reader. -/
theorem ends_ctxReader {m : Nat} {s : CtxState σ ε} (h : Ends r n m s.inner)
    (hp : s.pending = none) : Ends (ctxReader ctx ctxErr r) n m s := by
  induction m generalizing s with
  | zero => exact h
  | succ m ih =>
    unfold Ends at h ⊢
    simp only [ctxReader, awaited, hp]
    split
    · left
      simp
    · split
      · left
        simp
      · exact h.imp id fun hend => ih hend rfl

end Eof

end ImgSync.Transfer
