import ImgSync.Transfer.Copy

/-!
# What a succeeded job has transferred

`ProcessJob` on an opened source, with either transport.  The source is an
arbitrary reader: any chunking, any error, any size that it reported.  The
event of a succeeded job describes the bytes that the destination holds, and
these are what the source delivered up to its end.

The destination belongs to this transfer alone, and the FTP server stores the
bytes that the data connection took.
-/

namespace ImgSync.Transfer

open ImgSync.Lib ImgSync.Queue ImgSync.Worker ImgSync.Ftp

/-! ## A `Send` that succeeds -/

/-- What a `Send` answers and leaves behind when it succeeds. -/
structure Delivered (sha : List UInt8 → GoString) (dst : GoString) (body : Stream) (r : Sent)
    (answer : Int × GoString) : Prop where
  content : r.files.content dst = some body.bytes
  written : answer.1 = body.bytes.length
  sha256 : answer.2 = sha body.bytes

section Sends

variable {sha : List UInt8 → GoString} {f : Files GoString} {dst : GoString} {body : Stream}
  {answer : Int × GoString}

theorem content_store_rename {tmp : GoString} {cs : List (List UInt8)} {f'' : Files GoString}
    (h : (f.store tmp cs).1.rename tmp dst = some f'') : f''.content dst = some cs.flatten := by
  rw [Files.content_rename h, Files.content_store]

theorem localSend_ok {env : LocalEnv} (h : (localSend sha env f dst body).result = .ok answer) :
    Delivered sha dst body (localSend sha env f dst body) answer := by
  unfold localSend at h ⊢
  cases hcancel : env.cancelled with
  | some e =>
    rw [hcancel] at h
    cases h
  | none =>
    cases hcreate : env.createTemp with
    | error e =>
      rw [hcancel, hcreate] at h
      cases h
    | ok tmp =>
      simp only [hcancel, hcreate] at h ⊢
      split at h
      all_goals cases h
      rename_i f'' hcopy _ _ _ hren
      rw [Stream.copied_eq hcopy] at hren
      exact ⟨content_store_rename hren, rfl, rfl⟩

theorem ftpSend_ok {env : FtpEnv} (h : (ftpSend sha env f body).result = .ok answer) :
    Delivered sha env.dst body (ftpSend sha env f body) answer := by
  unfold ftpSend FtpEnv.dst at *
  cases hparse : env.parse with
  | error e =>
    rw [hparse] at h
    cases h
  | ok finalPath =>
    cases hacquire : env.acquire with
    | some e =>
      rw [hparse, hacquire] at h
      cases h
    | none =>
      cases hrefused : env.refused with
      | some e =>
        rw [hparse, hacquire, hrefused] at h
        cases h
      | none =>
        simp only [hparse, hacquire, hrefused] at h ⊢
        split at h
        all_goals cases h
        rename_i f'' hstor _ hren
        have hcopy : (body.copied env.write).2 = none := by
          unfold FtpEnv.storErr at hstor
          split at hstor
          · cases hstor
          · assumption
        rw [Stream.copied_eq hcopy] at hren
        exact ⟨content_store_rename hren, rfl, rfl⟩

end Sends

/-! ## A job on an opened source -/

/-- The transport of a job, with the calls that it makes outside the copy. -/
inductive TransferRun where
  | localfs (c : LocalCalls) (dst : GoString)
  | ftp (c : FtpCalls)

def TransferRun.dst : TransferRun → GoString
  | .localfs _ dst => dst
  | .ftp c => (c.env none).dst

/-- `Transport.Send`.  `none` is a copy that has not ended. -/
def TransferRun.send {σ : Type} (sha : List UInt8 → GoString) (env : CopyEnv) (fuel : Nat)
    (f : Files GoString) (r : Reader σ GoError) (s : σ) : TransferRun → Option (Transferred σ)
  | .localfs c dst => localTransfer sha c env fuel f dst r s
  | .ftp c => ftpTransfer sha c env fuel f r s

/-- An opened source: its reader, the size that `Open` reported, and what
`Close` answers. -/
structure OpenSource (σ : Type) where
  reader : Reader σ GoError
  start : σ
  size : Int
  close : σ → Option GoError

/-- The statement with which `ProcessJob` ends the job after a `Send`. -/
def OpenSource.statement {σ : Type} (src : OpenSource σ) (job : Job) (out : Transferred σ)
    (durationMs backoffMs : Int) : Statement :=
  verdict job src.size out.sent out.read (src.close out.body) durationMs backoffMs

/-- The `reason` entry of a detail. -/
def reasonOf : Detail → Option DetailValue
  | .fields kv => kv.lookup "reason"
  | .payload _ => none

section Jobs

variable {σ : Type} {sha : List UInt8 → GoString} {env : CopyEnv} {fuel : Nat} {f : Files GoString}
  {src : OpenSource σ} {tr : TransferRun} {out : Transferred σ} {job : Job}
  {durationMs backoffMs : Int}

/-- The `Send` of a body that ends returns, whatever fails on the way. -/
theorem send_returns {ds : List (List UInt8)} {x : Stop GoError} {s' : σ}
    (h : Delivers src.reader copyBuffer src.start ds x s') (hfuel : ds.length ≤ fuel) :
    (tr.send sha env fuel f src.reader src.start).isSome = true := by
  cases tr with
  | localfs c dst =>
    simp only [TransferRun.send, localTransfer]
    split
    · rfl
    · split
      · rfl
      · rw [Option.isSome_map]
        exact localCopy_returns h.ends hfuel
  | ftp c =>
    simp only [TransferRun.send, ftpTransfer]
    split
    · rfl
    · split
      · rfl
      · split
        · rfl
        · rw [Option.isSome_map]
          exact ftpCopy_returns h.ends hfuel

/-- A transfer that succeeds: the destination holds what the body delivered,
and the answer describes it. -/
theorem send_ok (h : tr.send sha env fuel f src.reader src.start = some out)
    {answer : Int × GoString} (hok : out.sent.result = .ok answer) :
    ∃ ds, Delivers src.reader copyBuffer src.start ds .eof out.body ∧
      out.sent.files.content tr.dst = some ds.flatten ∧
      answer = ((ds.flatten.length : Int), sha ds.flatten) ∧ out.read = ds.flatten.length := by
  obtain ⟨body, hcompleted, hdelivered⟩ : ∃ body, Completed src.reader src.start body out ∧
      Delivered sha tr.dst body out.sent answer := by
    cases tr with
    | localfs c dst =>
      obtain ⟨body, fault, hsent, hdone⟩ := localTransfer_refines h
      refine ⟨body, hdone answer hok, ?_⟩
      rw [hsent] at hok ⊢
      exact localSend_ok hok
    | ftp c =>
      obtain ⟨body, fault, hsent, hdone⟩ := ftpTransfer_refines h
      refine ⟨body, hdone answer hok, ?_⟩
      rw [hsent] at hok ⊢
      exact ftpSend_ok hok
  obtain ⟨ds, hds, hbytes⟩ := hcompleted.delivers
  have hread := hcompleted.read
  obtain ⟨hcontent, hwritten, hsha⟩ := hdelivered
  rw [hbytes] at hread hcontent hwritten hsha
  exact ⟨ds, hds, hcontent, Prod.ext hwritten hsha, hread⟩

/-- The success statement: the `Send` has succeeded, the sizes agree, and the
source is closed. -/
theorem statement_success
    (h : (src.statement job out durationMs backoffMs).event = .success) :
    ∃ written shaHex, out.sent.result = .ok (written, shaHex) ∧
      (0 ≤ src.size → written = src.size) ∧ src.close out.body = none ∧
      (src.statement job out durationMs backoffMs).detail =
        successDetail written shaHex durationMs := by
  unfold OpenSource.statement verdict processJob at *
  cases hr : out.sent.result with
  | error e =>
    simp only [hr] at h
    exact absurd h event_classifyAndWrite
  | ok answer =>
    obtain ⟨written, shaHex⟩ := answer
    simp only [hr] at h ⊢
    refine ⟨written, shaHex, rfl, ?_⟩
    unfold verifyAndClose at *
    split at h
    · exact absurd h event_classifyAndWrite
    · rename_i hsize
      split at h
      · exact absurd h event_classifyAndWrite
      · rename_i hread
        cases hclose : src.close out.body with
        | some e =>
          simp only [hclose] at h
          exact absurd h event_classifyAndWrite
        | none =>
          refine ⟨?_, rfl, ?_⟩
          · intro hle
            by_contra hne
            exact hsize ⟨hle, hne⟩
          · rw [if_neg hsize, if_neg hread]
            rfl

/-- The counts agree after a `Send`, so the second size check never fails. -/
theorem statement_reason (h : tr.send sha env fuel f src.reader src.start = some out) :
    reasonOf (src.statement job out durationMs backoffMs).detail ≠
      some (.str (goString "size_mismatch_unknown_src")) := by
  unfold OpenSource.statement verdict processJob
  cases hr : out.sent.result with
  | error e =>
    simp only
    rw [detail_classifyAndWrite]
    intro hreason
    cases hreason
  | ok answer =>
    obtain ⟨ds, _, _, rfl, hread⟩ := send_ok h hr
    simp only [verifyAndClose]
    split
    · rw [detail_classifyAndWrite]
      show some (DetailValue.str (goString "size_mismatch")) ≠ _
      decide
    · split
      · rename_i hunknown
        exact absurd (congrArg Nat.cast hread) hunknown.2
      · split
        · rw [detail_classifyAndWrite]
          intro hreason
          cases hreason
        · intro hreason
          cases hreason

end Jobs

/-- Integrity of a succeeded job.  Every success event that the outcome write
of the job inserts gives the size and the hash of what the source delivered up
to its end; the destination holds these bytes, they are as many as the source
reported if it reported a size, and the source was closed without an error.  A
`Send` that succeeds answers the number of bytes that were read from the body,
so the job never fails the check of an unknown size. -/
theorem success_integrity {σ : Type} (sha : List UInt8 → GoString) (job : Job) (tr : TransferRun)
    (env : CopyEnv) (fuel : Nat) (f : Files GoString) (src : OpenSource σ)
    (durationMs backoffMs : Int) (out : Transferred σ)
    (hsend : tr.send sha env fuel f src.reader src.start = some out) :
    (∀ (t : Tables) now lockedBy,
      ∀ e ∈ ((src.statement job out durationMs backoffMs).exec t now lockedBy).1.events,
      e ∉ t.events → e.status = .success →
      ∃ ds, Delivers src.reader copyBuffer src.start ds .eof out.body ∧
        out.sent.files.content tr.dst = some ds.flatten ∧
        e.detail = successDetail ds.flatten.length (sha ds.flatten) durationMs ∧
        (0 ≤ src.size → (ds.flatten.length : Int) = src.size) ∧ src.close out.body = none) ∧
    (∀ written shaHex, out.sent.result = .ok (written, shaHex) → written = out.read) ∧
    reasonOf (src.statement job out durationMs backoffMs).detail ≠
      some (.str (goString "size_mismatch_unknown_src")) := by
  refine ⟨?_, ?_, statement_reason hsend⟩
  · intro t now lockedBy e he hnew hsuccess
    rcases Statement.mem_events he with hold | ⟨_, hstatus, hdetail⟩
    · exact absurd hold hnew
    · obtain ⟨written, shaHex, hok, hsize, hclose, hevent⟩ :=
        statement_success (hstatus.symm.trans hsuccess)
      obtain ⟨ds, hds, hcontent, hanswer, _⟩ := send_ok hsend hok
      obtain ⟨rfl, rfl⟩ := Prod.mk.inj hanswer
      exact ⟨ds, hds, hcontent, hdetail.trans hevent, hsize, hclose⟩
  · intro written shaHex hok
    obtain ⟨ds, _, _, hanswer, hread⟩ := send_ok hsend hok
    rw [hread]
    exact congrArg Prod.fst hanswer

/-- A source that delivers its chunks one by one, and then the end of file. -/
def chunkSource (chunks : List (List UInt8)) (size : Int) : OpenSource (List (List UInt8)) where
  reader :=
    { read := fun s n =>
        match s with
        | [] => (⟨[], some .eof⟩, [])
        | c :: cs => (⟨c.take n, none⟩, cs)
      fits := by
        intro s n
        cases s with
        | nil => exact Nat.zero_le n
        | cons c cs => exact List.length_take_le n c }
  start := chunks
  size := size
  close := fun _ => none

def plainCalls : LocalCalls where
  cancelled := none
  createTemp := .ok (goString "/d/.imgsync-1.tmp")
  sync := none
  close := none
  rename := none
  removed := true

def plainCopy : CopyEnv where
  faults := fun _ => none
  ctx := fun _ => .live
  ctxErr := ⟨[], false, false⟩

/-- Three bytes from a source of unknown size, in two chunks with an empty one
between them. -/
theorem success_integrity_three_bytes :
    ∃ out, (TransferRun.localfs plainCalls (goString "/d/out")).send id plainCopy 4 oneFile
        (chunkSource [[1, 2], [], [3]] (-1)).reader [[1, 2], [], [3]] = some out ∧
      out.sent.result = .ok (3, [1, 2, 3]) ∧ (3 : Int) = out.read := by
  have hsome : ((TransferRun.localfs plainCalls (goString "/d/out")).send id plainCopy 4 oneFile
      (chunkSource [[1, 2], [], [3]] (-1)).reader [[1, 2], [], [3]]).isSome = true := by decide
  obtain ⟨out, hout⟩ := Option.isSome_iff_exists.mp hsome
  have hok : out.sent.result = .ok (3, [1, 2, 3]) := by
    have hresult : ((TransferRun.localfs plainCalls (goString "/d/out")).send id plainCopy 4 oneFile
        (chunkSource [[1, 2], [], [3]] (-1)).reader [[1, 2], [], [3]]).map
        (fun out => out.sent.result) = some (.ok (3, [1, 2, 3])) := rfl
    rw [hout] at hresult
    exact Option.some.inj hresult
  exact ⟨out, hout, hok, (success_integrity id sampleJob _ plainCopy 4 oneFile
    (chunkSource [[1, 2], [], [3]] (-1)) 0 0 out hout).2.1 3 [1, 2, 3] hok⟩

end ImgSync.Transfer
