import ImgSync.Lib.Files
import ImgSync.Lib.Run
import ImgSync.Queue.Schema

/-!
# Concurrent FTP uploads to one destination

`Transport.Send` of `internal/transports/ftp/transport.go` stores the body
under `dst + ".imgsync.tmp"`, renames it to `dst`, and deletes the temporary
file when one of the two fails.  The temporary name depends on `dst` only, so
two `Send` calls to one destination use one temporary file.

`Uploads` is the file system of the server and any number of `Send` calls to
one destination.  Every FTP command of a call is a step of its own.  An
`ok = false` stands for an error reply, a broken connection or a body that
fails, and `crash` for a worker that dies.

The two ghost fields record what the result is about: `publisher` is the call
that renamed last, and `clobbered` is set when a call truncates or deletes the
temporary file that another call is still writing.
-/

namespace ImgSync.Ftp

open ImgSync.Lib ImgSync.Queue

/-- `strings.TrimPrefix(p, "/")`. -/
def trimSlash : GoString → GoString
  | 47 :: rest => rest
  | p => p

/-- `tmpPath`. -/
def tmpPath (finalPath : GoString) : GoString := finalPath ++ goString ".imgsync.tmp"

/-- Where a call of `Send` is. -/
inductive SendPhase where
  | start
  /-- Between the reply to STOR and the end of the data. -/
  | storing (ino off : Nat)
  | stored
  /-- RNFR is accepted. -/
  | renaming
  /-- STOR or the rename failed; the deletion is next. -/
  | failed
  | succeeded
  | errored
  deriving DecidableEq

/-- The call is between its STOR and its last command. -/
def SendPhase.active : SendPhase → Bool
  | .storing _ _ | .stored | .renaming | .failed => true
  | _ => false

/-- The call is writing to the inode. -/
def SendPhase.writes (ino : Option Nat) : SendPhase → Bool
  | .storing i _ => ino == some i
  | _ => false

structure Uploads (n : Nat) where
  files : Files GoString
  sends : Fin n → SendPhase
  publisher : Option (Fin n)
  clobbered : Bool

inductive SendStep (n : Nat) where
  | stor (i : Fin n) (ok : Bool)
  /-- The server writes up to `k` more bytes of the body. -/
  | chunk (i : Fin n) (k : Nat)
  | storEnd (i : Fin n) (ok : Bool)
  | rnfr (i : Fin n) (ok : Bool)
  /-- `effect`: the server renames; `reply`: the call learns of it. -/
  | rnto (i : Fin n) (effect reply : Bool)
  | dele (i : Fin n) (effect : Bool)
  | crash (i : Fin n)

section Model

variable {n : Nat} (finalPath : GoString) (body : Fin n → List UInt8)

/-- Another call is writing the file that the temporary name refers to. -/
def Uploads.othersWrite (s : Uploads n) (i : Fin n) : Bool :=
  decide (∃ j, j ≠ i ∧ (s.sends j).writes (s.files.names (trimSlash (tmpPath finalPath))) = true)

def Uploads.setSend (s : Uploads n) (i : Fin n) (ph : SendPhase) : Uploads n :=
  { s with sends := Function.update s.sends i ph }

def sendStep (s : Uploads n) : SendStep n → Uploads n
  | .stor i ok =>
    match s.sends i with
    | .start =>
      if ok then
        let (files, ino) := s.files.openTrunc (trimSlash (tmpPath finalPath))
        { s with
          files := files
          sends := Function.update s.sends i (.storing ino 0)
          clobbered := s.clobbered || s.othersWrite finalPath i }
      else s.setSend i .failed
    | _ => s
  | .chunk i k =>
    match s.sends i with
    | .storing ino off =>
      let len := min k ((body i).length - off)
      { s with
        files := s.files.write ino off (((body i).drop off).take len)
        sends := Function.update s.sends i (.storing ino (off + len)) }
    | _ => s
  | .storEnd i ok =>
    match s.sends i with
    | .storing _ off =>
      -- The reply 226 comes after the end of the body.
      if ok && off == (body i).length then s.setSend i .stored else s.setSend i .failed
    | _ => s
  | .rnfr i ok =>
    match s.sends i with
    | .stored =>
      if ok && (s.files.names (trimSlash (tmpPath finalPath))).isSome then s.setSend i .renaming
      else s.setSend i .failed
    | _ => s
  | .rnto i effect reply =>
    match s.sends i with
    | .renaming =>
      match if effect then s.files.rename (trimSlash (tmpPath finalPath)) (trimSlash finalPath)
        else none with
      | some files =>
        { s with
          files := files
          sends := Function.update s.sends i (if reply then .succeeded else .failed)
          publisher := some i }
      | none => s.setSend i .failed
    | _ => s
  | .dele i effect =>
    match s.sends i with
    | .failed =>
      if effect then
        { s with
          files := s.files.unlink (trimSlash (tmpPath finalPath))
          sends := Function.update s.sends i .errored
          clobbered := s.clobbered || s.othersWrite finalPath i }
      else s.setSend i .errored
    | _ => s
  | .crash i => if (s.sends i).active then s.setSend i .errored else s

/-- No call has started.  The destination and a temporary file of an earlier
attempt may exist. -/
def Uploads.init (files : Files GoString) : Uploads n where
  files := files
  sends := fun _ => .start
  publisher := none
  clobbered := false

/-- The state that a run reaches. -/
def uploads (files : Files GoString) (as : List (SendStep n)) : Uploads n :=
  as.foldl (sendStep finalPath body) (Uploads.init files)

/-- As long as nobody renames over it, the destination of a successful call
holds exactly its body, and no call has disturbed the temporary file of a
writer. -/
def Uploads.Atomic (s : Uploads n) : Prop :=
  (∀ i, s.publisher = some i → s.sends i = .succeeded →
    s.files.content (trimSlash finalPath) = some (body i)) ∧
  s.clobbered = false

/-- A call issues its STOR only while no other call to the destination is
between its STOR and its last command. -/
def Exclusive (s : Uploads n) : SendStep n → Prop
  | .stor i _ => s.sends i = .start → ∀ j, (s.sends j).active = false
  | _ => True

end Model

/-! ## One call at a time -/

/-- The temporary file is not the destination. -/
theorem trimSlash_tmpPath_ne (p : GoString) : trimSlash p ≠ trimSlash (tmpPath p) := by
  have hsuffix : 0 < (goString ".imgsync.tmp").length := by decide
  intro heq
  have hlen := congrArg List.length heq
  unfold tmpPath at hlen
  cases p with
  | nil =>
    have hpos : 0 < (trimSlash (goString ".imgsync.tmp")).length := by decide
    rw [List.nil_append] at hlen
    change 0 = _ at hlen
    omega
  | cons c rest =>
    unfold trimSlash at hlen
    split at hlen <;> simp_all

/-- What the temporary file holds for a call that is between its STOR and its
rename. -/
def OwnsTmp (files : Files GoString) (tmp : GoString) (b : List UInt8) : SendPhase → Prop
  | .storing ino off => files.names tmp = some ino ∧ off ≤ b.length ∧ files.data ino = b.take off
  | .stored | .renaming => files.content tmp = some b
  | _ => True

theorem ownsTmp_of_inactive {files : Files GoString} {tmp : GoString} {b : List UInt8}
    {ph : SendPhase} (h : ph.active = false) : OwnsTmp files tmp b ph := by
  cases ph <;> trivial

section Invariant

variable {n : Nat} {finalPath : GoString} {body : Fin n → List UInt8} {s : Uploads n}

/-- What holds as long as the calls exclude each other. -/
structure UploadInv (finalPath : GoString) (body : Fin n → List UInt8) (s : Uploads n) : Prop where
  wf : s.files.Wf
  alone : ∀ i j, (s.sends i).active = true → (s.sends j).active = true → i = j
  own : ∀ i, OwnsTmp s.files (trimSlash (tmpPath finalPath)) (body i) (s.sends i)
  atomic : s.Atomic finalPath body

theorem uploadInv_init {files : Files GoString} (hwf : files.Wf) :
    UploadInv finalPath body (Uploads.init files) where
  wf := hwf
  alone := by
    intro i j hi
    cases hi
  own := fun _ => trivial
  atomic := by
    refine ⟨?_, rfl⟩
    intro i hi
    cases hi

/-- The call that an active one excludes is not active. -/
theorem UploadInv.inactive (h : UploadInv finalPath body s) {i j : Fin n}
    (hi : (s.sends i).active = true) (hne : j ≠ i) : (s.sends j).active = false := by
  cases hj : (s.sends j).active with
  | false => rfl
  | true => exact absurd (h.alone j i hj hi) hne

/-- A step of the call `i` while no other call is active: only its own phase
and the two results need an argument. -/
theorem uploadInv_of_alone {s' : Uploads n} {i : Fin n}
    {ph : SendPhase} (hidle : ∀ j, j ≠ i → (s.sends j).active = false)
    (hsends : s'.sends = Function.update s.sends i ph) (hwf : s'.files.Wf)
    (hown : OwnsTmp s'.files (trimSlash (tmpPath finalPath)) (body i) ph)
    (hpub : ∀ j, s'.publisher = some j → s'.sends j = .succeeded →
      s'.files.content (trimSlash finalPath) = some (body j))
    (hclean : s'.clobbered = false) : UploadInv finalPath body s' := by
  have hself : s'.sends i = ph := by rw [hsends, Function.update_self]
  have hother : ∀ j, j ≠ i → (s'.sends j).active = false := by
    intro j hne
    rw [hsends, Function.update_of_ne hne]
    exact hidle j hne
  refine ⟨hwf, ?_, ?_, hpub, hclean⟩
  · intro j k hj hk
    have hji : j = i := by
      by_contra hne
      rw [hother j hne] at hj
      cases hj
    have hki : k = i := by
      by_contra hne
      rw [hother k hne] at hk
      cases hk
    rw [hji, hki]
  · intro j
    by_cases hne : j = i
    · subst hne
      rw [hself]
      exact hown
    · exact ownsTmp_of_inactive (hother j hne)

/-- The destination keeps its content and its publisher, so the earlier
result stands. -/
theorem UploadInv.published (h : UploadInv finalPath body s) {s' : Uploads n} {i : Fin n}
    {ph : SendPhase} (hne : ph ≠ .succeeded)
    (hsends : s'.sends = Function.update s.sends i ph) (hpub : s'.publisher = s.publisher)
    (hcontent : s'.files.content (trimSlash finalPath) = s.files.content (trimSlash finalPath)) :
    ∀ j, s'.publisher = some j → s'.sends j = .succeeded →
      s'.files.content (trimSlash finalPath) = some (body j) := by
  intro j hj hsucc
  rw [hsends] at hsucc
  by_cases hji : j = i
  · subst hji
    rw [Function.update_self] at hsucc
    exact absurd hsucc hne
  · rw [Function.update_of_ne hji] at hsucc
    rw [hcontent]
    exact h.atomic.1 j (hpub ▸ hj) hsucc

/-- A step that only moves an active call to another phase. -/
theorem UploadInv.phase (h : UploadInv finalPath body s) {i : Fin n} {ph : SendPhase}
    (hidle : ∀ j, j ≠ i → (s.sends j).active = false) (hne : ph ≠ .succeeded)
    (hown : OwnsTmp s.files (trimSlash (tmpPath finalPath)) (body i) ph) :
    UploadInv finalPath body (s.setSend i ph) :=
  uploadInv_of_alone hidle rfl h.wf hown (h.published hne rfl rfl rfl) h.atomic.2

theorem othersWrite_eq_false {i : Fin n}
    (hidle : ∀ j, j ≠ i → (s.sends j).active = false) : s.othersWrite finalPath i = false := by
  unfold Uploads.othersWrite
  rw [decide_eq_false_iff_not]
  intro ⟨j, hne, hw⟩
  have hj := hidle j hne
  cases hph : s.sends j <;> simp [hph, SendPhase.writes, SendPhase.active] at hw hj

theorem UploadInv.stor (h : UploadInv finalPath body s) {i : Fin n}
    (hidle : ∀ j, (s.sends j).active = false) :
    UploadInv finalPath body
      { s with
        files := (s.files.openTrunc (trimSlash (tmpPath finalPath))).1
        sends := Function.update s.sends i
          (.storing (s.files.openTrunc (trimSlash (tmpPath finalPath))).2 0)
        clobbered := s.clobbered || s.othersWrite finalPath i } := by
  obtain ⟨hname, hdata⟩ := Files.openTrunc_spec s.files (trimSlash (tmpPath finalPath))
  refine uploadInv_of_alone (fun j _ => hidle j) rfl (h.wf.openTrunc _) ?_ ?_ ?_
  · exact ⟨hname, Nat.zero_le _, by rw [hdata, List.take_zero]⟩
  · refine h.published (by simp) rfl rfl ?_
    exact Files.content_openTrunc_of_ne h.wf (trimSlash_tmpPath_ne finalPath)
  · rw [othersWrite_eq_false fun j _ => hidle j, h.atomic.2]
    rfl

theorem UploadInv.chunk (h : UploadInv finalPath body s) {i : Fin n} {ino off : Nat}
    (hph : s.sends i = .storing ino off) (k : Nat) :
    UploadInv finalPath body
      { s with
        files := s.files.write ino off (((body i).drop off).take (min k ((body i).length - off)))
        sends :=
          Function.update s.sends i (.storing ino (off + min k ((body i).length - off))) } := by
  have hactive : (s.sends i).active = true := by rw [hph]; rfl
  have hown := h.own i
  rw [hph] at hown
  obtain ⟨hname, hoff, hdata⟩ := hown
  have hne : s.files.names (trimSlash finalPath) ≠ some ino := by
    intro heq
    exact trimSlash_tmpPath_ne finalPath (h.wf.unique _ _ ino heq hname)
  refine uploadInv_of_alone (fun j hj => h.inactive hactive hj) rfl (h.wf.write _ _ _) ?_ ?_
    h.atomic.2
  · refine ⟨hname, by omega, ?_⟩
    show Function.update s.files.data ino _ ino = _
    rw [Function.update_self, hdata]
    exact writeAt_take hoff _
  · exact h.published (by simp) rfl rfl (Files.content_write_of_ne hne _ _)

theorem UploadInv.rnto (h : UploadInv finalPath body s) {i : Fin n} {files : Files GoString}
    (hph : s.sends i = .renaming)
    (hren : s.files.rename (trimSlash (tmpPath finalPath)) (trimSlash finalPath) = some files)
    (reply : Bool) :
    UploadInv finalPath body
      { s with
        files := files
        sends := Function.update s.sends i (if reply then .succeeded else .failed)
        publisher := some i } := by
  have hactive : (s.sends i).active = true := by rw [hph]; rfl
  have hown := h.own i
  rw [hph] at hown
  refine uploadInv_of_alone (fun j hj => h.inactive hactive hj) rfl (h.wf.rename hren) ?_ ?_
    h.atomic.2
  · cases reply <;> trivial
  · intro j hj _
    obtain rfl := Option.some.inj hj
    rw [Files.content_rename hren]
    exact hown

theorem UploadInv.dele (h : UploadInv finalPath body s) {i : Fin n}
    (hph : s.sends i = .failed) :
    UploadInv finalPath body
      { s with
        files := s.files.unlink (trimSlash (tmpPath finalPath))
        sends := Function.update s.sends i .errored
        clobbered := s.clobbered || s.othersWrite finalPath i } := by
  have hactive : (s.sends i).active = true := by rw [hph]; rfl
  refine uploadInv_of_alone (fun j hj => h.inactive hactive hj) rfl (h.wf.unlink _) trivial ?_ ?_
  · exact h.published (by simp) rfl rfl
      (Files.content_unlink_of_ne (trimSlash_tmpPath_ne finalPath))
  · rw [othersWrite_eq_false fun j hj => h.inactive hactive hj, h.atomic.2]
    rfl

/-- An active call moves to a phase that publishes nothing. -/
theorem UploadInv.move (h : UploadInv finalPath body s) {i : Fin n} {ph : SendPhase}
    (hactive : (s.sends i).active = true) (hne : ph ≠ .succeeded)
    (hown : OwnsTmp s.files (trimSlash (tmpPath finalPath)) (body i) ph) :
    UploadInv finalPath body (s.setSend i ph) :=
  h.phase (fun _ hj => h.inactive hactive hj) hne hown

/-- After a complete STOR the temporary file has the whole body. -/
theorem UploadInv.storEnd (h : UploadInv finalPath body s) (i : Fin n) (ok : Bool) :
    UploadInv finalPath body (sendStep finalPath body s (.storEnd i ok)) := by
  simp only [sendStep]
  split
  · rename_i ino off hph
    have hactive : (s.sends i).active = true := by rw [hph]; rfl
    have hown := h.own i
    rw [hph] at hown
    split
    · rename_i hend
      refine h.move hactive (by simp) ?_
      have hoff : off = (body i).length := by simpa using (Bool.and_eq_true_iff.mp hend).2
      show s.files.content _ = some (body i)
      rw [Files.content_eq hown.1, hown.2.2, hoff, List.take_length]
    · exact h.move hactive (by simp) trivial
  · exact h

theorem UploadInv.rnfr (h : UploadInv finalPath body s) (i : Fin n) (ok : Bool) :
    UploadInv finalPath body (sendStep finalPath body s (.rnfr i ok)) := by
  simp only [sendStep]
  split
  · rename_i hph
    have hactive : (s.sends i).active = true := by rw [hph]; rfl
    have hown := h.own i
    rw [hph] at hown
    split
    · exact h.move hactive (by simp) hown
    · exact h.move hactive (by simp) trivial
  · exact h

/-- A step of an exclusive run keeps the invariant. -/
theorem UploadInv.step (h : UploadInv finalPath body s) (a : SendStep n) (hex : Exclusive s a) :
    UploadInv finalPath body (sendStep finalPath body s a) := by
  cases a with
  | stor i ok =>
    simp only [sendStep]
    split
    · rename_i hph
      have hidle := hex hph
      split
      · exact h.stor hidle
      · exact h.phase (fun j _ => hidle j) (by simp) trivial
    · exact h
  | chunk i k =>
    simp only [sendStep]
    split
    · rename_i ino off hph
      exact h.chunk hph k
    · exact h
  | storEnd i ok => exact h.storEnd i ok
  | rnfr i ok => exact h.rnfr i ok
  | rnto i effect reply =>
    simp only [sendStep]
    split
    · rename_i hph
      have hactive : (s.sends i).active = true := by rw [hph]; rfl
      split
      · rename_i files hren
        cases effect with
        | false => cases hren
        | true => exact h.rnto hph hren reply
      · exact h.move hactive (by simp) trivial
    · exact h
  | dele i effect =>
    simp only [sendStep]
    split
    · rename_i hph
      have hactive : (s.sends i).active = true := by rw [hph]; rfl
      split
      · exact h.dele hph
      · exact h.move hactive (by simp) trivial
    · exact h
  | crash i =>
    simp only [sendStep]
    split
    · rename_i hactive
      exact h.move hactive (by simp) trivial
    · exact h

end Invariant

/-- Uploads to one destination are atomic in every run in which a call issues
its STOR only while no other call is between its STOR and its last
command. -/
theorem ftp_publish_atomic {n : Nat} (finalPath : GoString) (body : Fin n → List UInt8)
    (files : Files GoString) (hwf : files.Wf) (as : List (SendStep n))
    (hex : AllSteps (sendStep finalPath body) Exclusive (Uploads.init files) as) :
    (uploads finalPath body files as).Atomic finalPath body := by
  have hinv : UploadInv finalPath body (uploads finalPath body files as) :=
    foldl_all (UploadInv finalPath body) (fun _ a h ha => h.step a ha) (uploadInv_init hwf) hex
  exact hinv.atomic

/-- An empty server. -/
def emptyFiles : Files GoString where
  names := fun _ => none
  data := fun _ => []
  next := 0

/-- Two calls that store one after the other. -/
theorem ftp_publish_atomic_in_turn :
    (uploads (goString "/a") ![[1, 2], [3]] emptyFiles
      [.stor 0 true, .chunk 0 2, .storEnd 0 true, .rnfr 0 true, .rnto 0 true true,
       .stor 1 true, .chunk 1 1, .storEnd 1 true, .rnfr 1 true, .rnto 1 true true]).Atomic
      (goString "/a") ![[1, 2], [3]] := by
  refine ftp_publish_atomic _ _ _ ⟨?_, ?_⟩ _ ?_
  · intro n i h
    cases h
  · intro n m i h
    cases h
  · simp only [AllSteps, Exclusive, true_and, and_true]
    decide

/-- Two calls at the same time.  The second truncates the file that the first
is writing, publishes it, and the first writes its second byte behind the
body of the second. -/
theorem ftp_publish_interleaved :
    let s := uploads (goString "/a") ![[1, 2], [3]] emptyFiles
      [.stor 0 true, .chunk 0 1, .stor 1 true, .chunk 1 1, .storEnd 1 true, .rnfr 1 true,
       .rnto 1 true true, .chunk 0 1]
    s.publisher = some 1 ∧ s.sends 1 = .succeeded ∧
      s.files.content (trimSlash (goString "/a")) = some [3, 2] ∧ s.clobbered = true ∧
      ¬ s.Atomic (goString "/a") ![[1, 2], [3]] := by
  refine ⟨by decide, by decide, by decide, by decide, ?_⟩
  intro h
  have hclean := h.2
  revert hclean
  decide

end ImgSync.Ftp
