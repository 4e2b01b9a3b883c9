import ImgSync.Transfer.CtxReader
import ImgSync.Transfer.Verify

/-!
# The copy layers of a transfer

`Transfer.Send` takes a body as the list of its chunks.  Here the body is an
arbitrary reader, and the layers that the source puts on top of it are spelled
out: the byte counter of `ProcessJob`, the context reader, and `io.Copy` into
a file next to a hash (LocalFS) or from a tee with a counting hash into the
data connection (FTP).

There are three groups.

* The layers, and `localTransfer` and `ftpTransfer`, which are the two `Send`
  methods on a reader.
* `copy_stream`: whatever the layers do, the file gets what `Stream.copied`
  says for some stream; after a clean copy this is the stream of the reader.
* `localTransfer_refines` and `ftpTransfer_refines`: a transfer is a `Send` of
  that stream.
-/

namespace ImgSync.Transfer

open ImgSync.Lib ImgSync.Queue ImgSync.Worker ImgSync.Ftp

/-! ## The layers -/

section Layers

variable {σ ε : Type}

/-- `counter` of `internal/worker/process.go`. -/
def counter (r : Reader σ ε) : Reader (σ × Nat) ε where
  read := fun (s, read) n =>
    let (res, s') := r.read s n
    (res, s', read + res.data.length)
  fits := fun (s, _) n => r.fits s n

/-- `countingHashWriter` of the FTP transport: what is hashed so far, and the
count. -/
def countingHashWriter (ε : Type) : Lib.Writer (List UInt8 × Nat) ε where
  write := fun (h, n) p => ((p.length, none), h ++ p, n + p.length)
  fits := fun _ _ => le_rfl

/-- An open file. -/
structure OpenFile where
  files : Files GoString
  ino : Nat
  off : Nat
  calls : Nat

/-- Writing to an open file.  `faults k = some (j, e)` makes the write number
`k` stop after `j` bytes with the error `e`. -/
def fileWriter (faults : Nat → Option (Nat × ε)) : Lib.Writer OpenFile ε where
  write := fun t p =>
    match faults t.calls with
    | none =>
      ((p.length, none),
        { t with
          files := t.files.write t.ino t.off p, off := t.off + p.length, calls := t.calls + 1 })
    | some (j, e) =>
      (((p.take j).length, some e),
        { t with
          files := t.files.write t.ino t.off (p.take j), off := t.off + (p.take j).length
          calls := t.calls + 1 })
  fits := by
    intro t p
    split
    · exact le_rfl
    · exact List.length_take_le' _ _

end Layers

/-- `io.ErrShortWrite`. -/
def errShortWrite : GoError := ⟨goString "short write", false, false⟩

/-- The buffer size of `io.Copy`. -/
def copyBuffer : Nat := 32768

/-- What happens during the copy: the faults of the file or of the data
connection, and what the context does. -/
structure CopyEnv where
  faults : Nat → Option (Nat × GoError)
  ctx : Nat → CtxAt
  ctxErr : GoError

/-- The answer of a transfer, with the body as it leaves it: the state of its
reader, and the number of bytes that the counter of `ProcessJob` has seen. -/
structure Transferred (σ : Type) where
  sent : Sent
  body : σ
  read : Nat

/-! ## LocalFS -/

/-- The calls of the LocalFS `Send` outside the copy. -/
structure LocalCalls where
  cancelled : Option GoError
  createTemp : Except (GoError × Bool) GoString
  sync : Option GoError
  close : Option GoError
  rename : Option GoError
  removed : Bool

def LocalCalls.env (c : LocalCalls) (write : Option (Nat × Nat × GoError)) : LocalEnv :=
  { c with write := write }

section Local

variable {σ : Type}

/-- `io.Copy(io.MultiWriter(tmp, hasher), NewCtxReader(ctx, cw))`. -/
def localCopy (env : CopyEnv) (fuel : Nat) (r : Reader σ GoError) (s : σ) (file : OpenFile) :
    Option (Copied (CtxState (σ × Nat) GoError) (OpenFile × List UInt8) GoError) :=
  copy (ctxReader env.ctx env.ctxErr (counter r))
    (multiWriter errShortWrite (fileWriter env.faults) (appendWriter GoError)) errShortWrite
    copyBuffer fuel (.initial (s, 0)) (file, []) 0

/-- `Transport.Send` of the LocalFS transport. -/
def localTransfer (sha : List UInt8 → GoString) (c : LocalCalls) (env : CopyEnv) (fuel : Nat)
    (f : Files GoString) (dst : GoString) (r : Reader σ GoError) (s : σ) :
    Option (Transferred σ) :=
  match c.cancelled with
  | some e => some ⟨{ files := f, result := .error e, ino := none }, s, 0⟩
  | none =>
    match c.createTemp with
    | .error (e, notExist) =>
      let err := e.wrap "localfs: create tmp: "
      some ⟨{ files := f, result := .error (if notExist then permanent err else err), ino := none },
        s, 0⟩
    | .ok tmp =>
      let (f₀, ino) := f.openTrunc tmp
      (localCopy env fuel r s ⟨f₀, ino, 0, 0⟩).map fun out =>
        let f' := out.writer.1.files
        let fail (pre : String) (e : GoError) : Sent :=
          { files := if c.removed then f'.unlink tmp else f', result := .error (e.wrap pre)
            ino := some ino }
        let sent : Sent :=
          match out.err, c.sync, c.close, c.rename, f'.rename tmp dst with
          | some e, _, _, _, _ => fail "localfs: copy: " e
          | none, some e, _, _, _ => fail "localfs: fsync: " e
          | none, none, some e, _, _ => fail "localfs: close tmp: " e
          | none, none, none, some e, _ => fail "localfs: rename: " e
          | none, none, none, none, none =>
            fail "localfs: rename: " ⟨goString "no such file or directory", false, false⟩
          | none, none, none, none, some f'' =>
            { files := f'', result := .ok (out.written, sha out.writer.2), ino := some ino }
        ⟨sent, out.reader.inner.1, out.reader.inner.2⟩

end Local

/-! ## FTP -/

/-- The calls of the FTP `Send` outside the copy. -/
structure FtpCalls where
  parse : Except GoError GoString
  acquire : Option GoError
  refused : Option FtpError
  ended : Option FtpError
  rename : RenameOutcome
  deleted : Bool

def FtpCalls.env (c : FtpCalls) (write : Option (Nat × Nat × GoError)) : FtpEnv :=
  { c with write := write }

section Ftp

variable {σ : Type}

/-- `io.Copy(conn, io.TeeReader(NewCtxReader(ctx, cw), countingHashWriter))`.
The server stores what the data connection takes. -/
def ftpCopy (env : CopyEnv) (fuel : Nat) (r : Reader σ GoError) (s : σ) (file : OpenFile) :
    Option (Copied (CtxState (σ × Nat) GoError × List UInt8 × Nat) OpenFile GoError) :=
  copy (tee (ctxReader env.ctx env.ctxErr (counter r)) (countingHashWriter GoError))
    (fileWriter env.faults) errShortWrite copyBuffer fuel (.initial (s, 0), [], 0) file 0

/-- `Transport.Send` of the FTP transport. -/
def ftpTransfer (sha : List UInt8 → GoString) (c : FtpCalls) (env : CopyEnv) (fuel : Nat)
    (f : Files GoString) (r : Reader σ GoError) (s : σ) : Option (Transferred σ) :=
  match c.parse with
  | .error e => some ⟨{ files := f, result := .error e, ino := none }, s, 0⟩
  | .ok finalPath =>
    match c.acquire with
    | some e =>
      some ⟨{ files := f, result := .error (e.wrap "ftp transport: acquire: "), ino := none }, s, 0⟩
    | none =>
      let tmp := trimSlash (tmpPath finalPath)
      let delete (f : Files GoString) := if c.deleted then f.unlink tmp else f
      match c.refused with
      | some e =>
        some ⟨{ files := delete f, result := .error (storFailed finalPath e), ino := none }, s, 0⟩
      | none =>
        let (f₀, ino) := f.openTrunc tmp
        (ftpCopy env fuel r s ⟨f₀, ino, 0, 0⟩).map fun out =>
          let f' := out.writer.files
          -- An error of the copy comes before the reply of the server.
          let storErr : Option FtpError :=
            match out.err with
            | some e => some { err := e, code := none }
            | none => c.ended
          let sent : Sent :=
            match storErr, c.rename, f'.rename tmp (trimSlash finalPath) with
            | some e, _, _ =>
              { files := delete f', result := .error (storFailed finalPath e), ino := some ino }
            | none, .failed e, _ =>
              { files := delete f', result := .error (renameFailed finalPath e), ino := some ino }
            | none, .lost e, some f'' =>
              { files := delete f'', result := .error (renameFailed finalPath e), ino := some ino }
            | none, .lost e, none =>
              { files := delete f', result := .error (renameFailed finalPath e), ino := some ino }
            | none, .ok, some f'' =>
              { files := f'', result := .ok (out.reader.2.2, sha out.reader.2.1), ino := some ino }
            | none, .ok, none =>
              { files := delete f'
                result := .error (renameFailed finalPath
                  ⟨⟨goString "550 file unavailable", false, false⟩, some 550⟩)
                ino := some ino }
          ⟨sent, out.reader.1.inner.1, out.reader.1.inner.2⟩

end Ftp

/-! ## What the layers leave behind -/

section Behind

variable {σ ε : Type} {r : Reader σ ε} {faults : Nat → Option (Nat × ε)} {n : Nat}
  {ds : List (List UInt8)}

theorem delivers_of_counter {x : Stop ε} {s s' : σ × Nat} (h : Delivers (counter r) n s ds x s') :
    Delivers r n s.1 ds x s'.1 ∧ s'.2 = s.2 + ds.flatten.length := by
  have hread : ∀ (s : σ × Nat) res s', (counter r).read s n = (res, s') →
      r.read s.1 n = (res, s'.1) ∧ s'.2 = s.2 + res.data.length := by
    intro s res s' h
    obtain ⟨rfl, rfl⟩ := Prod.mk.inj h
    exact ⟨rfl, rfl⟩
  induction h with
  | last h =>
    obtain ⟨hr, hs⟩ := hread _ _ _ h
    exact ⟨.last hr, by simpa using hs⟩
  | more h hrest ih =>
    obtain ⟨hr, hs⟩ := hread _ _ _ h
    refine ⟨.more hr ih.1, ?_⟩
    rw [ih.2, hs, List.flatten_cons, List.length_append, Nat.add_assoc]

theorem ends_counter {m : Nat} {s : σ} (h : Ends r n m s) (read : Nat) :
    Ends (counter r) n m (s, read) := by
  induction m generalizing s read with
  | zero => exact h
  | succ m ih => exact h.imp id fun hend => ih hend _

theorem accepts_countingHashWriter {t t' : List UInt8 × Nat}
    (h : Accepts (countingHashWriter ε) t ds t') :
    t'.1 = t.1 ++ ds.flatten ∧ t'.2 = t.2 + ds.flatten.length := by
  induction h with
  | nil t => simp
  | skip h ih => simpa using ih
  | write hd h hrest ih =>
    obtain ⟨_, rfl⟩ := Prod.mk.inj h
    rw [ih.1, ih.2, List.flatten_cons, List.append_assoc, List.length_append, Nat.add_assoc]
    exact ⟨rfl, rfl⟩

theorem copyTo_concat (f : Files GoString) (i off : Nat) (cs : List (List UInt8)) (c : List UInt8) :
    f.copyTo i off (cs ++ [c]) = (f.copyTo i off cs).write i (off + cs.flatten.length) c := by
  induction cs generalizing f off with
  | nil => simp [Files.copyTo]
  | cons x cs ih =>
    simp only [List.cons_append, Files.copyTo, List.flatten_cons, List.length_append]
    rw [ih, Nat.add_assoc]

/-- The chunks that are written are the ones that are not empty. -/
theorem accepts_fileWriter {t t' : OpenFile} (h : Accepts (fileWriter faults) t ds t') :
    t'.files = t.files.copyTo t.ino t.off (ds.filter (· ≠ [])) ∧ t'.ino = t.ino ∧
      t'.off = t.off + ds.flatten.length := by
  induction h with
  | nil t => exact ⟨rfl, rfl, rfl⟩
  | skip h ih => simpa using ih
  | @write t u t'' d ds hd h hrest ih =>
    have hu : u = { t with
        files := t.files.write t.ino t.off d, off := t.off + d.length, calls := t.calls + 1 } := by
      simp only [fileWriter] at h
      split at h
      · exact (Prod.mk.inj h).2.symm
      · cases congrArg (fun x => x.1.2) h
    subst hu
    obtain ⟨hfiles, hino, hoff⟩ := ih
    refine ⟨?_, hino, ?_⟩
    · rw [hfiles, List.filter_cons_of_pos (by simpa using hd)]
      rfl
    · rw [hoff, List.flatten_cons, List.length_append, Nat.add_assoc]

theorem breaks_fileWriter {short : ε} {t t' : OpenFile} {d : List UInt8} {e : ε}
    (h : Breaks (fileWriter faults) short t d e t') :
    ∃ j, t'.files = t.files.write t.ino t.off (d.take j) := by
  obtain ⟨_, rfl, herr⟩ := h
  simp only [fileWriter] at herr ⊢
  split
  · rename_i hnone
    rw [hnone] at herr
    rcases herr with herr | ⟨_, hlen, _⟩
    · cases herr
    · exact absurd rfl hlen
  · rename_i j e' hsome
    exact ⟨j, rfl⟩

end Behind

/-- A copy into a file: some stream, with some fault, has been copied. -/
structure FileCopy (file file' : OpenFile) (err : Option GoError) (body : Stream)
    (fault : Option (Nat × Nat × GoError)) : Prop where
  files : file'.files = file.files.copyTo file.ino file.off (body.copied fault).1
  err : err = (body.copied fault).2

section Streams

variable {σ : Type} {env : CopyEnv} {fuel : Nat} {r : Reader σ GoError} {s : σ}
  {file file' : OpenFile} {ds : List (List UInt8)} {faults : Nat → Option (Nat × GoError)}

theorem fileCopy_of_accepts (h : Accepts (fileWriter faults) file ds file') (x : Stop GoError) :
    FileCopy file file' x.err? ⟨ds.filter (· ≠ []), x.err?⟩ none :=
  ⟨(accepts_fileWriter h).1, rfl⟩

theorem fileCopy_of_breaks {mid : OpenFile} (h : Accepts (fileWriter faults) file ds mid)
    {d : List UInt8} {e : GoError} (hb : Breaks (fileWriter faults) errShortWrite mid d e file') :
    ∃ body fault, FileCopy file file' (some e) body fault := by
  obtain ⟨hfiles, hino, hoff⟩ := accepts_fileWriter h
  obtain ⟨j, hj⟩ := breaks_fileWriter hb
  have hcopied : (Stream.copied ⟨ds.filter (· ≠ []) ++ [d], none⟩
      (some ((ds.filter (· ≠ [])).length, j, e))) =
      (ds.filter (· ≠ []) ++ [d.take j], some e) := by
    simp [Stream.copied]
  refine ⟨⟨ds.filter (· ≠ []) ++ [d], none⟩, some ((ds.filter (· ≠ [])).length, j, e), ?_, ?_⟩
  · rw [hcopied, hj, hfiles, hino, hoff]
    show _ = file.files.copyTo file.ino file.off (ds.filter (· ≠ []) ++ [d.take j])
    rw [copyTo_concat, List.flatten_filter_ne_nil]
  · rw [hcopied]

/-- After a clean copy: the body has been read to its end, and the counters
and the hash have seen all of it. -/
structure Clean (r : Reader σ GoError) (s s' : σ) (body : Stream) (read written : Nat)
    (hashed : List UInt8) : Prop where
  delivers : ∃ ds, Delivers r copyBuffer s ds .eof s' ∧ body.bytes = ds.flatten
  read : read = body.bytes.length
  written : written = body.bytes.length
  hashed : hashed = body.bytes

theorem clean_of_delivers {s' : CtxState (σ × Nat) GoError}
    (hd : Delivers (ctxReader env.ctx env.ctxErr (counter r)) copyBuffer (.initial (s, 0)) ds .eof
      s') (err : Option GoError) :
    Clean r s s'.inner.1 ⟨ds.filter (· ≠ []), err⟩ s'.inner.2 ds.flatten.length ds.flatten := by
  obtain ⟨hdel, hread⟩ := delivers_of_counter (delivers_of_ctxReader hd rfl rfl)
  have hbytes : (⟨ds.filter (· ≠ []), err⟩ : Stream).bytes = ds.flatten :=
    List.flatten_filter_ne_nil
  refine ⟨⟨ds, hdel, hbytes⟩, ?_, by rw [hbytes], hbytes.symm⟩
  rw [hbytes, hread]
  exact Nat.zero_add _

theorem localCopy_stream {out} (h : localCopy env fuel r s file = some out) :
    ∃ body fault, FileCopy file out.writer.1 out.err body fault ∧
      (out.err = none → Clean r s out.reader.inner.1 body out.reader.inner.2 out.written
        out.writer.2) := by
  rcases copy_cases _ _ _ _ _ h with ⟨ds, x, hd, ha, hw, he⟩ | ⟨ds, d, mid, e, ha, hb, he⟩
  · obtain ⟨hfile, hhash⟩ := accepts_of_multiWriter ha
    refine ⟨_, none, he ▸ fileCopy_of_accepts hfile x, fun hnone => ?_⟩
    cases x with
    | error e =>
      rw [he] at hnone
      cases hnone
    | eof =>
      rw [hw, accepts_appendWriter hhash, Nat.zero_add]
      exact clean_of_delivers hd _
  · obtain ⟨hfile, _⟩ := accepts_of_multiWriter ha
    obtain ⟨body, fault, hcopy⟩ :=
      fileCopy_of_breaks hfile (breaks_of_multiWriter (appendWriter_total _) hb)
    refine ⟨body, fault, he ▸ hcopy, fun hnone => ?_⟩
    rw [he] at hnone
    cases hnone

theorem ftpCopy_stream {out} (h : ftpCopy env fuel r s file = some out) :
    ∃ body fault, FileCopy file out.writer out.err body fault ∧
      (out.err = none → Clean r s out.reader.1.inner.1 body out.reader.1.inner.2 out.reader.2.2
        out.reader.2.1) := by
  rcases copy_cases _ _ _ _ _ h with ⟨ds, x, hd, ha, hw, he⟩ | ⟨ds, d, mid, e, ha, hb, he⟩
  · obtain ⟨hd, hhash⟩ := delivers_of_tee (fun _ _ => rfl) hd
    refine ⟨_, none, he ▸ fileCopy_of_accepts ha x, fun hnone => ?_⟩
    cases x with
    | error e =>
      rw [he] at hnone
      cases hnone
    | eof =>
      obtain ⟨hhashed, hcount⟩ := accepts_countingHashWriter hhash
      rw [hhashed, hcount]
      show Clean r s _ _ _ (0 + ds.flatten.length) ds.flatten
      rw [Nat.zero_add]
      exact clean_of_delivers hd _
  · obtain ⟨body, fault, hcopy⟩ := fileCopy_of_breaks ha hb
    refine ⟨body, fault, he ▸ hcopy, fun hnone => ?_⟩
    rw [he] at hnone
    cases hnone

/-- The copy of a body that ends returns, whatever fails on the way. -/
theorem localCopy_returns {m : Nat} (h : Ends r copyBuffer m s) (hfuel : m ≤ fuel) :
    (localCopy env fuel r s file).isSome = true :=
  copy_returns _ _ _ (ends_ctxReader (ends_counter h 0) rfl) _ _ hfuel

theorem ftpCopy_returns {m : Nat} (h : Ends r copyBuffer m s) (hfuel : m ≤ fuel) :
    (ftpCopy env fuel r s file).isSome = true :=
  copy_returns _ _ _ ((ends_ctxReader (ends_counter h 0) rfl).tee _ _) _ _ hfuel

/-! ## A transfer is a `Send` -/

/-- What a transfer that succeeds has done with its body. -/
structure Completed (r : Reader σ GoError) (s : σ) (body : Stream) (out : Transferred σ) :
    Prop where
  delivers : ∃ ds, Delivers r copyBuffer s ds .eof out.body ∧ body.bytes = ds.flatten
  read : out.read = body.bytes.length

theorem localTransfer_refines {sha : List UInt8 → GoString} {c : LocalCalls} {f : Files GoString}
    {dst : GoString} {out : Transferred σ}
    (h : localTransfer sha c env fuel f dst r s = some out) :
    ∃ body fault, out.sent = localSend sha (c.env fault) f dst body ∧
      ∀ answer, out.sent.result = .ok answer → Completed r s body out := by
  unfold localTransfer at h
  cases hcancel : c.cancelled with
  | some e =>
    rw [hcancel] at h
    obtain rfl := Option.some.inj h
    refine ⟨⟨[], none⟩, none, ?_, fun answer hok => by cases hok⟩
    simp only [localSend, LocalCalls.env, hcancel]
  | none =>
    cases hcreate : c.createTemp with
    | error e =>
      rw [hcancel, hcreate] at h
      obtain rfl := Option.some.inj h
      refine ⟨⟨[], none⟩, none, ?_, fun answer hok => by cases hok⟩
      simp only [localSend, LocalCalls.env, hcancel, hcreate]
    | ok tmp =>
      rw [hcancel, hcreate] at h
      obtain ⟨cp, hcopy, rfl⟩ := Option.map_eq_some_iff.mp h
      obtain ⟨body, fault, ⟨hfiles, herr⟩, hclean⟩ := localCopy_stream hcopy
      have hstore : (f.store tmp (body.copied fault).1).1 = cp.writer.1.files := hfiles.symm
      refine ⟨body, fault, ?_, ?_⟩
      · simp only [localSend, LocalCalls.env, hcancel, hcreate, hstore, ← herr]
        cases hcp : cp.err with
        | some e => rfl
        | none =>
          rw [(hclean hcp).written, (hclean hcp).hashed]
          rfl
      · intro answer hok
        cases hcp : cp.err with
        | some e =>
          simp only [hcp] at hok
          cases hok
        | none => exact ⟨(hclean hcp).delivers, (hclean hcp).read⟩

theorem ftpTransfer_refines {sha : List UInt8 → GoString} {c : FtpCalls} {f : Files GoString}
    {out : Transferred σ} (h : ftpTransfer sha c env fuel f r s = some out) :
    ∃ body fault, out.sent = ftpSend sha (c.env fault) f body ∧
      ∀ answer, out.sent.result = .ok answer → Completed r s body out := by
  unfold ftpTransfer at h
  cases hparse : c.parse with
  | error e =>
    rw [hparse] at h
    obtain rfl := Option.some.inj h
    refine ⟨⟨[], none⟩, none, ?_, fun answer hok => by cases hok⟩
    simp only [ftpSend, FtpCalls.env, hparse]
  | ok finalPath =>
    cases hacquire : c.acquire with
    | some e =>
      rw [hparse, hacquire] at h
      obtain rfl := Option.some.inj h
      refine ⟨⟨[], none⟩, none, ?_, fun answer hok => by cases hok⟩
      simp only [ftpSend, FtpCalls.env, hparse, hacquire]
    | none =>
      cases hrefused : c.refused with
      | some e =>
        rw [hparse, hacquire, hrefused] at h
        obtain rfl := Option.some.inj h
        refine ⟨⟨[], none⟩, none, ?_, fun answer hok => by cases hok⟩
        simp only [ftpSend, FtpCalls.env, hparse, hacquire, hrefused]
      | none =>
        rw [hparse, hacquire, hrefused] at h
        obtain ⟨cp, hcopy, rfl⟩ := Option.map_eq_some_iff.mp h
        obtain ⟨body, fault, ⟨hfiles, herr⟩, hclean⟩ := ftpCopy_stream hcopy
        have hstore : (f.store (trimSlash (tmpPath finalPath)) (body.copied fault).1).1 =
            cp.writer.files := hfiles.symm
        refine ⟨body, fault, ?_, ?_⟩
        · simp only [ftpSend, FtpCalls.env, hparse, hacquire, hrefused, hstore, FtpEnv.storErr,
            ← herr]
          cases hcp : cp.err with
          | some e => rfl
          | none =>
          rw [(hclean hcp).written, (hclean hcp).hashed]
          rfl
        · intro answer hok
          cases hcp : cp.err with
          | some e =>
            simp only [hcp] at hok
            cases hok
          | none => exact ⟨(hclean hcp).delivers, (hclean hcp).read⟩

end Streams

end ImgSync.Transfer
