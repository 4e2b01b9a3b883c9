import ImgSync.Ftp.Publish
import ImgSync.Worker.Process

/-!
# The two transports on one transfer

`Transport.Send` of `internal/transports/localfs` and of
`internal/transports/ftp`, on a file system that nobody else changes
meanwhile.  Both copy the body into a temporary file, rename it to the
destination, and ignore the expected size.

The environments `LocalEnv` and `FtpEnv` say which calls of the operating
system or of the server fail.  A cancelled context shows up as an error of
the body, because both transports read through `NewCtxReader`.
-/

namespace ImgSync.Transfer

open ImgSync.Lib ImgSync.Queue ImgSync.Worker ImgSync.Ftp

/-- A body: the results of its reads, then the end of file or an error. -/
structure Stream where
  chunks : List (List UInt8)
  err : Option GoError

def Stream.bytes (b : Stream) : List UInt8 := b.chunks.flatten

/-- The copy loop of a transfer.  `fault = (k, j, e)` makes the write of chunk
`k` stop after `j` bytes with the error `e`.  The answer is what was written,
and the error. -/
def Stream.copied (b : Stream) (fault : Option (Nat × Nat × GoError)) :
    List (List UInt8) × Option GoError :=
  match fault with
  | some (k, j, e) =>
    if k < b.chunks.length then (b.chunks.take k ++ [(b.chunks.getD k []).take j], some e)
    else (b.chunks, b.err)
  | none => (b.chunks, b.err)

/-- A copy without an error has written the whole body. -/
theorem Stream.copied_eq {b : Stream} {fault : Option (Nat × Nat × GoError)}
    (h : (b.copied fault).2 = none) : (b.copied fault).1 = b.chunks := by
  unfold Stream.copied at h ⊢
  split
  · split
    · rename_i hk
      simp [hk] at h
    · rfl
  · rfl

/-- `fmt.Errorf("%w: %w", e, transfer.ErrPermanent)`. -/
def permanent (e : GoError) : GoError :=
  { e with text := e.text ++ goString ": permanent: do not retry, mark dead", isPermanent := true }

/-- What a `Send` leaves behind: the file system, its answer, and the inode
that it has written to. -/
structure Sent where
  files : Files GoString
  result : Except GoError (Int × GoString)
  ino : Option Nat

/-! ## LocalFS -/

/-- `createTemp` is the new name that `os.CreateTemp` has picked, or its error
and whether that is `os.ErrNotExist`. -/
structure LocalEnv where
  cancelled : Option GoError
  createTemp : Except (GoError × Bool) GoString
  write : Option (Nat × Nat × GoError)
  sync : Option GoError
  close : Option GoError
  rename : Option GoError
  removed : Bool

/-- `Transport.Send` of the LocalFS transport. -/
def localSend (sha : List UInt8 → GoString) (env : LocalEnv) (f : Files GoString)
    (dst : GoString) (body : Stream) : Sent :=
  match env.cancelled with
  | some e => { files := f, result := .error e, ino := none }
  | none =>
    match env.createTemp with
    | .error (e, notExist) =>
      let err := e.wrap "localfs: create tmp: "
      { files := f, result := .error (if notExist then permanent err else err), ino := none }
    | .ok tmp =>
      let f' := (f.store tmp (body.copied env.write).1).1
      let ino := (f.store tmp (body.copied env.write).1).2
      -- Every failure from here on removes the temporary file.
      let fail (pre : String) (e : GoError) : Sent :=
        { files := if env.removed then f'.unlink tmp else f', result := .error (e.wrap pre)
          ino := some ino }
      match (body.copied env.write).2, env.sync, env.close, env.rename, f'.rename tmp dst with
      | some e, _, _, _, _ => fail "localfs: copy: " e
      | none, some e, _, _, _ => fail "localfs: fsync: " e
      | none, none, some e, _, _ => fail "localfs: close tmp: " e
      | none, none, none, some e, _ => fail "localfs: rename: " e
      | none, none, none, none, none =>
        fail "localfs: rename: " ⟨goString "no such file or directory", false, false⟩
      | none, none, none, none, some f'' =>
        { files := f'', result := .ok (body.bytes.length, sha body.bytes), ino := some ino }

/-- Nothing fails up to and including the rename. -/
def LocalEnv.publishes (env : LocalEnv) (body : Stream) : Bool :=
  env.cancelled.isNone && env.createTemp.isOk && (body.copied env.write).2.isNone &&
    env.sync.isNone && env.close.isNone && env.rename.isNone

/-! ## FTP -/

/-- An error of the FTP library, with the reply code if the server sent
one. -/
structure FtpError where
  err : GoError
  code : Option Nat

/-- `classify`. -/
def classify (e : FtpError) : GoError :=
  match e.code with
  | some 550 | some 552 | some 553 => permanent e.err
  | _ => e.err

/-- How the rename ends.  `lost` renames, but the call gets an error. -/
inductive RenameOutcome where
  | ok
  | lost (e : FtpError)
  | failed (e : FtpError)

/-- `parse` is the path of the parsed destination, or the error for a
destination that is no FTP URL.  `refused` is an error reply to STOR before
any data, and `ended` one after the data. -/
structure FtpEnv where
  parse : Except GoError GoString
  acquire : Option GoError
  refused : Option FtpError
  write : Option (Nat × Nat × GoError)
  ended : Option FtpError
  rename : RenameOutcome
  deleted : Bool

/-- The error that `conn.Stor` returns. -/
def FtpEnv.storErr (env : FtpEnv) (body : Stream) : Option FtpError :=
  match (body.copied env.write).2 with
  | some e => some { err := e, code := none }
  | none => env.ended

/-- `fmt.Errorf("ftp transport: stor %s: %w", tmpPath, classify(err))`. -/
def storFailed (finalPath : GoString) (e : FtpError) : GoError :=
  { classify e with
    text := goString "ftp transport: stor " ++ tmpPath finalPath ++ goString ": " ++
      (classify e).text }

/-- `fmt.Errorf("ftp transport: rename %s -> %s: %w", ...)`. -/
def renameFailed (finalPath : GoString) (e : FtpError) : GoError :=
  { classify e with
    text := goString "ftp transport: rename " ++ tmpPath finalPath ++ goString " -> " ++
      finalPath ++ goString ": " ++ (classify e).text }

/-- `Transport.Send` of the FTP transport. -/
def ftpSend (sha : List UInt8 → GoString) (env : FtpEnv) (f : Files GoString)
    (body : Stream) : Sent :=
  match env.parse with
  | .error e => { files := f, result := .error e, ino := none }
  | .ok finalPath =>
    match env.acquire with
    | some e => { files := f, result := .error (e.wrap "ftp transport: acquire: "), ino := none }
    | none =>
      let tmp := trimSlash (tmpPath finalPath)
      let delete (f : Files GoString) := if env.deleted then f.unlink tmp else f
      match env.refused with
      | some e => { files := delete f, result := .error (storFailed finalPath e), ino := none }
      | none =>
        let f' := (f.store tmp (body.copied env.write).1).1
        let ino := (f.store tmp (body.copied env.write).1).2
        match env.storErr body, env.rename, f'.rename tmp (trimSlash finalPath) with
        | some e, _, _ =>
          { files := delete f', result := .error (storFailed finalPath e), ino := some ino }
        | none, .failed e, _ =>
          { files := delete f', result := .error (renameFailed finalPath e), ino := some ino }
        | none, .lost e, some f'' =>
          { files := delete f'', result := .error (renameFailed finalPath e), ino := some ino }
        | none, .lost e, none =>
          { files := delete f', result := .error (renameFailed finalPath e), ino := some ino }
        | none, .ok, some f'' =>
          { files := f'', result := .ok (body.bytes.length, sha body.bytes), ino := some ino }
        | none, .ok, none =>
          { files := delete f'
            result := .error (renameFailed finalPath
              ⟨⟨goString "550 file unavailable", false, false⟩, some 550⟩)
            ino := some ino }

/-- Nothing fails before the rename, and the server renames. -/
def FtpEnv.publishes (env : FtpEnv) (body : Stream) : Bool :=
  env.parse.isOk && env.acquire.isNone && env.refused.isNone && (env.storErr body).isNone &&
    match env.rename with
    | .failed _ => false
    | _ => true

/-- The destination as a name of the server's file system. -/
def FtpEnv.dst (env : FtpEnv) : GoString :=
  match env.parse with
  | .ok finalPath => trimSlash finalPath
  | .error _ => []

/-! ## Either transport -/

/-- A transport with its environment. -/
inductive TransportRun where
  | localfs (env : LocalEnv) (dst : GoString)
  | ftp (env : FtpEnv)

def TransportRun.send (sha : List UInt8 → GoString) (f : Files GoString) (body : Stream) :
    TransportRun → Sent
  | .localfs env dst => localSend sha env f dst body
  | .ftp env => ftpSend sha env f body

/-- The destination as a name of the file system. -/
def TransportRun.dst : TransportRun → GoString
  | .localfs _ dst => dst
  | .ftp env => env.dst

/-- The name that `os.CreateTemp` picks is not the destination. -/
def TransportRun.TmpApart : TransportRun → Prop
  | .localfs env dst => env.createTemp ≠ .ok dst
  | .ftp _ => True

/-- The transfer gets as far as the rename, and the rename takes effect. -/
def TransportRun.publishes (body : Stream) : TransportRun → Bool
  | .localfs env _ => env.publishes body
  | .ftp env => env.publishes body

end ImgSync.Transfer
