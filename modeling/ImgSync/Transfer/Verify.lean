import ImgSync.Transfer.Send

/-!
# Size verification comes after publication

`ProcessJob` compares the size that the source reported with what `Send` has
written, but `Send` has renamed the file by then.  `SendSpec` is what a `Send`
of either transport does to the destination, and `body_verified_iff` says when
the verification is in time: when the rename does not happen, or when the body
has the reported size.
-/

namespace ImgSync.Transfer

open ImgSync.Lib ImgSync.Queue ImgSync.Worker ImgSync.Ftp

/-- What a `Send` does to the destination.  `pub` says whether its rename
takes effect. -/
structure SendSpec (f : Files GoString) (dst : GoString) (body : Stream) (pub : Bool)
    (r : Sent) : Prop where
  published : pub = true → ∃ ino, r.ino = some ino ∧ r.files.names dst = some ino ∧
    r.files.content dst = some body.bytes
  kept : pub = false → r.files.content dst = f.content dst ∧
    ∀ ino, r.ino = some ino → r.files.names dst ≠ some ino
  written : ∀ w shaHex, r.result = .ok (w, shaHex) → pub = true ∧ w = body.bytes.length

section Spec

variable {sha : List UInt8 → GoString} {f f' : Files GoString} {dst tmp : GoString} {ino : Nat}
  {body : Stream} {b : List UInt8} {e : GoError}

/-- A `Send` that fails before it has opened a file. -/
theorem sendSpec_unopened (h : f'.content dst = f.content dst) :
    SendSpec f dst body false { files := f', result := .error e, ino := none } where
  published := by
    intro hp
    cases hp
  kept := by
    refine fun _ => ⟨h, ?_⟩
    intro ino hi
    cases hi
  written := by
    intro w shaHex hr
    cases hr

/-- A `Send` that fails after it has written its temporary file, and removes
it or not. -/
theorem sendSpec_failed (h : Files.Stored f f' tmp ino b) (hne : dst ≠ tmp) (removed : Bool) :
    SendSpec f dst body false
      { files := if removed then f'.unlink tmp else f', result := .error e, ino := some ino } where
  published := by
    intro hp
    cases hp
  kept := by
    have hnot : f.names dst ≠ some ino := by
      intro heq
      exact hne (h.wf.unique dst tmp ino ((h.names dst hne).trans heq) h.name)
    obtain ⟨hcontent, hnames⟩ := h.unlink hne
    intro _
    cases removed with
    | true =>
      refine ⟨hcontent, fun i hi heq => hnot ?_⟩
      obtain rfl := Option.some.inj hi
      exact hnames.symm.trans heq
    | false =>
      refine ⟨h.frame dst hne, fun i hi heq => hnot ?_⟩
      obtain rfl := Option.some.inj hi
      exact (h.names dst hne).symm.trans heq
  written := by
    intro w shaHex hr
    cases hr

/-- A `Send` that renames its temporary file.  It may not learn of it, and
then deletes the temporary name. -/
theorem sendSpec_renamed {f'' : Files GoString} {result : Except GoError (Int × GoString)}
    (h : Files.Stored f f' tmp ino body.bytes) (hren : f'.rename tmp dst = some f'')
    (hne : dst ≠ tmp) (deleted : Bool)
    (hresult : ∀ w shaHex, result = .ok (w, shaHex) → w = body.bytes.length) :
    SendSpec f dst body true
      { files := if deleted then f''.unlink tmp else f'', result := result, ino := some ino } where
  published := by
    obtain ⟨g, hg, hname, hcontent⟩ := h.rename dst
    obtain rfl : f'' = g := Option.some.inj (hren.symm.trans hg)
    intro _
    refine ⟨ino, rfl, ?_, ?_⟩
    · cases deleted with
      | true => exact (Function.update_of_ne hne _ _).trans hname
      | false => exact hname
    · cases deleted with
      | true => exact (Files.content_unlink_of_ne hne).trans hcontent
      | false => exact hcontent
  kept := by
    intro hp
    cases hp
  written := fun w shaHex hr => ⟨rfl, hresult w shaHex hr⟩

theorem localSend_spec (env : LocalEnv) (hwf : f.Wf) (htmp : env.createTemp ≠ .ok dst) :
    SendSpec f dst body (env.publishes body) (localSend sha env f dst body) := by
  unfold localSend LocalEnv.publishes
  cases hcancel : env.cancelled with
  | some e => exact sendSpec_unopened rfl
  | none =>
    cases hcreate : env.createTemp with
    | error e => exact sendSpec_unopened rfl
    | ok tmp =>
      have hne : dst ≠ tmp := fun heq => htmp (by rw [hcreate, heq])
      have hstored := Files.store_spec hwf tmp (body.copied env.write).1
      cases hcopy : (body.copied env.write).2 with
      | some e => exact sendSpec_failed hstored hne env.removed
      | none =>
        rw [Stream.copied_eq hcopy] at hstored ⊢
        cases hsync : env.sync with
        | some e => exact sendSpec_failed hstored hne env.removed
        | none =>
          cases hclose : env.close with
          | some e => exact sendSpec_failed hstored hne env.removed
          | none =>
            cases hrename : env.rename with
            | some e => exact sendSpec_failed hstored hne env.removed
            | none =>
              obtain ⟨f'', hren, _, _⟩ := hstored.rename dst
              simp only [hren]
              refine sendSpec_renamed hstored hren hne false ?_
              intro w shaHex hr
              exact (congrArg Prod.fst (Except.ok.inj hr)).symm

theorem ftpSend_spec (env : FtpEnv) (hwf : f.Wf) :
    SendSpec f env.dst body (env.publishes body) (ftpSend sha env f body) := by
  unfold ftpSend FtpEnv.publishes FtpEnv.dst
  cases hparse : env.parse with
  | error e => exact sendSpec_unopened rfl
  | ok finalPath =>
    have hne := trimSlash_tmpPath_ne finalPath
    cases hacquire : env.acquire with
    | some e => exact sendSpec_unopened rfl
    | none =>
      cases hrefused : env.refused with
      | some e =>
        -- The deletion hits the temporary file of an earlier attempt.
        refine sendSpec_unopened ?_
        split
        · exact Files.content_unlink_of_ne hne
        · rfl
      | none =>
        have hstored := Files.store_spec hwf (trimSlash (tmpPath finalPath))
          (body.copied env.write).1
        cases hstor : env.storErr body with
        | some e => exact sendSpec_failed hstored hne env.deleted
        | none =>
          have hcopy : (body.copied env.write).2 = none := by
            unfold FtpEnv.storErr at hstor
            split at hstor
            · cases hstor
            · assumption
          rw [Stream.copied_eq hcopy] at hstored ⊢
          obtain ⟨f'', hren, _, _⟩ := hstored.rename (trimSlash finalPath)
          cases hrename : env.rename with
          | failed e => exact sendSpec_failed hstored hne env.deleted
          | lost e =>
            simp only [hren]
            refine sendSpec_renamed hstored hren hne env.deleted ?_
            intro w shaHex hr
            cases hr
          | ok =>
            simp only [hren]
            refine sendSpec_renamed hstored hren hne false ?_
            intro w shaHex hr
            exact (congrArg Prod.fst (Except.ok.inj hr)).symm

theorem send_spec (tr : TransportRun) (hwf : f.Wf) (htmp : tr.TmpApart) :
    SendSpec f tr.dst body (tr.publishes body) (tr.send sha f body) := by
  cases tr with
  | localfs env dst => exact localSend_spec env hwf htmp
  | ftp env => exact ftpSend_spec env hwf

end Spec

/-! ## The verdict of `ProcessJob` -/

/-- The `stage` entry of a detail. -/
def stageOf : Detail → Option DetailValue
  | .fields kv => kv.lookup "stage"
  | .payload _ => none

/-- The statement marks the job dead, with this stage in its detail. -/
def deadAt (stage : String) : Statement → Bool
  | .terminal _ .dead _ detail => stageOf detail == some (.str (goString stage))
  | _ => false

/-- The statement that ends the job. -/
def verdict (job : Job) (srcSize : Int) (r : Sent) (read : Int) (closed : Option GoError)
    (durationMs backoffMs : Int) : Statement :=
  processJob job
    { opened := .ok srcSize, sent := r.result, read := read, closed := closed
      durationMs := durationMs, backoffMs := backoffMs }

/-- A job whose error carries another stage is not dead at `stage`. -/
theorem deadAt_classifyAndWrite {job : Job} {err : GoError} {detail : Detail} {backoffMs : Int}
    {stage : String} (h : (stageOf detail == some (.str (goString stage))) = false) :
    deadAt stage (classifyAndWrite job err detail backoffMs) = false := by
  rcases classifyAndWrite_cases job err detail backoffMs with ⟨_, heq⟩ | ⟨_, heq⟩ | ⟨_, _, heq⟩
  · rw [heq]
    rfl
  · rw [heq]
    exact h
  · rw [heq]
    rfl

/-- A job is dead at `verify` only after a `Send` that wrote another size. -/
theorem not_deadAt_verify {job : Job} {srcSize read durationMs backoffMs : Int} {r : Sent}
    {closed : Option GoError} (hsize : 0 ≤ srcSize)
    (hwritten : ∀ w shaHex, r.result = .ok (w, shaHex) → w = srcSize) :
    deadAt "verify" (verdict job srcSize r read closed durationMs backoffMs) = false := by
  unfold verdict processJob
  cases hr : r.result with
  | error e => exact deadAt_classifyAndWrite rfl
  | ok w =>
    obtain ⟨w, shaHex⟩ := w
    obtain rfl := hwritten w shaHex hr
    show deadAt "verify" (verifyAndClose job w w shaHex _) = false
    unfold verifyAndClose
    rw [if_neg (by simp), if_neg (by omega)]
    cases closed with
    | some e => exact deadAt_classifyAndWrite rfl
    | none => rfl

/-- A body that fails the size verification is not published.  If the
destination shows what the job has written, that has the reported size, and a
job that ends dead at `verify` leaves the destination as it was. -/
def SizeVerified (sha : List UInt8 → GoString) (job : Job) (tr : TransportRun)
    (f : Files GoString) (body : Stream) (srcSize read : Int) (closed : Option GoError)
    (durationMs backoffMs : Int) : Prop :=
  let r := tr.send sha f body
  (∀ ino, r.ino = some ino → r.files.names tr.dst = some ino →
    ∃ b, r.files.content tr.dst = some b ∧ (b.length : Int) = srcSize) ∧
  (deadAt "verify" (verdict job srcSize r read closed durationMs backoffMs) = true →
    r.files.content tr.dst = f.content tr.dst)

/-- The verification is in time exactly when the rename does not take effect
or the body has the size that the source reported. -/
theorem body_verified_iff (sha : List UInt8 → GoString) (job : Job) (tr : TransportRun)
    (f : Files GoString) (body : Stream) (srcSize read : Int) (closed : Option GoError)
    (durationMs backoffMs : Int) (hwf : f.Wf) (htmp : tr.TmpApart) (hsize : 0 ≤ srcSize) :
    SizeVerified sha job tr f body srcSize read closed durationMs backoffMs ↔
      (tr.publishes body = true → (body.bytes.length : Int) = srcSize) := by
  have hspec : SendSpec f tr.dst body (tr.publishes body) (tr.send sha f body) :=
    send_spec tr hwf htmp
  constructor
  · intro hver hpub
    obtain ⟨ino, hino, hname, hcontent⟩ := hspec.published hpub
    obtain ⟨b, hb, hlen⟩ := hver.1 ino hino hname
    obtain rfl : body.bytes = b := Option.some.inj (hcontent.symm.trans hb)
    exact hlen
  · intro hcond
    refine ⟨?_, ?_⟩
    · intro ino hino hname
      cases hpub : tr.publishes body with
      | false => exact absurd hname ((hspec.kept hpub).2 ino hino)
      | true =>
        obtain ⟨_, _, _, hcontent⟩ := hspec.published hpub
        exact ⟨body.bytes, hcontent, hcond hpub⟩
    · intro hdead
      cases hpub : tr.publishes body with
      | false => exact (hspec.kept hpub).1
      | true =>
        have hnot := @not_deadAt_verify job srcSize read durationMs backoffMs
          (tr.send sha f body) closed hsize fun w shaHex hr =>
            (hspec.written w shaHex hr).2.trans (hcond hpub)
        rw [hnot] at hdead
        cases hdead

/-! ## A source that shrinks after its size was taken -/

/-- A disk on which nothing fails. -/
def plainLocal : LocalEnv where
  cancelled := none
  createTemp := .ok (goString "/d/.imgsync-1.tmp")
  write := none
  sync := none
  close := none
  rename := none
  removed := true

/-- The destination exists and holds one byte. -/
def oneFile : Files GoString where
  names := fun p => if p = goString "/d/out" then some 0 else none
  data := fun _ => [9]
  next := 1

theorem oneFile_wf : oneFile.Wf := by
  have hname : ∀ p i, oneFile.names p = some i → p = goString "/d/out" ∧ i = 0 := by
    intro p i h
    unfold oneFile at h
    simp only at h
    split at h
    · rename_i hp
      exact ⟨hp, (Option.some.inj h).symm⟩
    · cases h
  refine ⟨?_, ?_⟩
  · intro p i h
    rw [(hname p i h).2]
    exact Nat.one_pos
  · intro p p' i h h'
    rw [(hname p i h).1, (hname p' i h').1]

def sampleJob : Job := NewJob.row
  { traceId := "t-1", src := "/s/in", dst := "/d/out", srcProtocol := "localfs"
    dstProtocol := "localfs", payload := "", maxAttempts := 5 } 0 1

/-- A body of the reported size passes. -/
theorem body_verified_three_bytes :
    SizeVerified id sampleJob (.localfs plainLocal (goString "/d/out")) oneFile
      ⟨[[1, 2], [3]], none⟩ 3 3 none 0 0 := by
  have htmp : (TransportRun.localfs plainLocal (goString "/d/out")).TmpApart := by
    intro h
    exact absurd (Except.ok.inj h) (by decide)
  exact (body_verified_iff id sampleJob _ oneFile ⟨[[1, 2], [3]], none⟩ 3 3 none 0 0 oneFile_wf
    htmp (by decide)).mpr (by decide)

/-- The source reported five bytes and delivers three.  The job is dead at
`verify`, and the destination shows the three bytes. -/
theorem short_body_published :
    let tr := TransportRun.localfs plainLocal (goString "/d/out")
    let r := tr.send id oneFile ⟨[[1, 2], [3]], none⟩
    deadAt "verify" (verdict sampleJob 5 r 3 none 0 0) = true ∧
      oneFile.content tr.dst = some [9] ∧ r.files.content tr.dst = some [1, 2, 3] ∧
      ¬ SizeVerified id sampleJob tr oneFile ⟨[[1, 2], [3]], none⟩ 5 3 none 0 0 := by
  refine ⟨by decide, by decide, by decide, ?_⟩
  intro h
  have hkept := h.2 (by decide)
  revert hkept
  decide

end ImgSync.Transfer
