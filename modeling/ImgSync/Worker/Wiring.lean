import ImgSync.Ftp.Paths
import ImgSync.Transfer.Send
import ImgSync.Worker.Loop
import ImgSync.Worker.Skip

/-!
# The sources and transports of the worker command

`newWorkerCmd` (`cmd/imgsync/worker.go`) gives the runner the sources and transports
for two protocols, the FTP transport behind the per-host cap.  Here are their
`Open` and `Send` with every error that they return, so that a run of the
runner is one of the command when its calls answer as these do.

Only this repository wraps `ErrSkippable` and `ErrPermanent`: the errors of the
operating system, of the servers and of the drivers are `plain`.

* A source is missing when `os.Stat` says so, or when the server answers RETR with
  550 and no hint of a denied permission.  Nothing else is skippable.
* A permanent error is one that the repository has marked, and its text ends with
  the text of `ErrPermanent`.

`verdicts_explained` draws the conclusion for every run: the skipped jobs are those
whose source was missing, and a job that is dead with attempts left had an unknown
protocol, a marked error, or a size mismatch.
-/

namespace ImgSync.Worker.Wiring

open ImgSync.Lib ImgSync.Queue ImgSync.Ftp ImgSync.Transfer

/-! ## Errors -/

/-- An error from outside the repository. -/
def sysErr (text : GoString) : GoError := ⟨text, false, false⟩

/-- What `%w` appends for `transfer.ErrPermanent`. -/
def permanentMark : GoString := goString ": permanent: do not retry, mark dead"

/-- `fmt.Errorf("<text>: %w", transfer.ErrPermanent)`. -/
def permanentErr (text : GoString) : GoError := ⟨text ++ permanentMark, false, true⟩

/-- `fmt.Errorf("<text>: %w", transfer.ErrSkippable)`. -/
def skippableErr (text : GoString) : GoError :=
  ⟨text ++ goString ": skippable: job intentionally not transferred, audit only", true, false⟩

/-- The error wraps neither sentinel. -/
def plain (e : GoError) : Bool := !e.isSkippable && !e.isPermanent

/-- Functions of Go's library on strings: `%q` and `strings.ToLower`. -/
structure GoText where
  quote : GoString → GoString
  toLower : GoString → GoString

/-! ## The factories -/

inductive Protocol where
  | localfs
  | ftp
  deriving DecidableEq

/-- `worker.ErrUnknownProtocol`. -/
def unknownProtocol : GoError := sysErr (goString "unknown protocol")

/-- The switch of both factories. -/
def protocolOf (proto : String) : Except GoError Protocol :=
  if proto = "localfs" then .ok .localfs
  else if proto = "ftp" then .ok .ftp
  else .error unknownProtocol

def sourceFor (proto : String) : Except GoError Protocol := protocolOf proto
def transportFor (proto : String) : Except GoError Protocol := protocolOf proto

/-! ## Sources -/

/-- What `Source.Open` of the LocalFS source meets: the error of the context, `os.Stat` (its
error and whether that is `os.ErrNotExist`, or whether there is a directory and the
size), and the error of `os.Open`. -/
structure LocalSource where
  cancelled : Option GoString
  stat : Except (GoString × Bool) (Bool × Int)
  opened : Option GoString

/-- `Source.Open` of `internal/sources/localfs`. -/
def localOpen (src : GoString) (env : LocalSource) : Except GoError Int :=
  match env.cancelled with
  | some e => .error (sysErr e)
  | none =>
    match env.stat with
    | .error (e, notExist) =>
      if notExist then .error (skippableErr (goString "localfs: stat " ++ src))
      else .error (sysErr (goString "localfs: stat " ++ src ++ goString ": " ++ e))
    | .ok (isDir, size) =>
      if isDir then
        .error (permanentErr (goString "localfs: " ++ src ++ goString " is a directory"))
      else
        match env.opened with
        | some e => .error (sysErr (goString "localfs: open " ++ src ++ goString ": " ++ e))
        | none => .ok size

/-- An error of a command: its text, and the code and the message if it is a reply of the
server. -/
structure CommandError where
  text : GoString
  reply : Option (Nat × GoString)

/-- `isNotFound`. -/
def isNotFound (go : GoText) (e : CommandError) : Bool :=
  match e.reply with
  | none => false
  | some (code, msg) =>
    if code ≠ 550 then false
    else
      !decide (goString "permission" <:+: go.toLower msg) &&
        !decide (goString "access denied" <:+: go.toLower msg)

/-- What `Source.Open` of the FTP source meets: `url.Parse`, the pool, SIZE and RETR. -/
structure FtpSource where
  url : Option Url
  acquire : Option GoString
  size : Option Int
  retr : Option CommandError

/-- `Source.Open` of `internal/sources/ftp`. -/
def ftpOpen (go : GoText) (src : GoString) (env : FtpSource) : Except GoError Int :=
  match env.url with
  | none => .error (permanentErr (goString "ftp source: parse " ++ go.quote src))
  | some u =>
    if u.scheme ≠ goString "ftp" then
      .error (permanentErr
        (goString "ftp source: scheme " ++ go.quote u.scheme ++ goString " not supported"))
    else if u.host = [] then
      .error (permanentErr (goString "ftp source: empty host in " ++ go.quote src))
    else if u.path = [] then
      .error (permanentErr (goString "ftp source: empty path in " ++ go.quote src))
    else
      match env.acquire with
      | some e => .error (sysErr (goString "ftp source: acquire conn: " ++ e))
      | none =>
        match env.retr with
        | some e =>
          if isNotFound go e then .error (skippableErr (goString "ftp source: retr " ++ u.path))
          else .error (sysErr (goString "ftp source: retr " ++ u.path ++ goString ": " ++ e.text))
        | none => .ok (env.size.getD (-1))

/-! ## Transports -/

/-- The errors in front of the inner `Send`: of the pool, of a probe, and of the context. -/
inductive CapError where
  | acquire (e : GoString)
  | tryLock (e : GoString)
  | cancelled (e : GoString)

/-- `CapTransport.Send`, with the host of the destination and the answer of the inner
`Send`.  The command leaves `Config.Host` empty. -/
def capSend {α : Type} (host : GoString) (err : Option CapError) (inner : Except GoError α) :
    Except GoError α :=
  if host = [] then .error (sysErr (goString "hostcap: cannot derive host from dst"))
  else
    match err with
    | some (.acquire e) => .error (sysErr (goString "hostcap: acquire dedicated conn: " ++ e))
    | some (.tryLock e) => .error (sysErr (goString "hostcap: try lock: " ++ e))
    | some (.cancelled e) => .error (sysErr e)
    | none => inner

/-- The check of the destination in `Transport.Send` of `internal/transports/ftp`. -/
def ftpParse (go : GoText) (dst : GoString) (url : Option Url) : Except GoError GoString :=
  if transportAccepts url then .ok (url.elim [] Url.path)
  else .error (sysErr (goString "ftp transport: invalid dst " ++ go.quote dst))

def streamPlain (b : Stream) : Bool := b.err.all plain

/-- The errors that the LocalFS transport meets come from outside. -/
def localPlain (env : LocalEnv) : Bool :=
  env.cancelled.all plain &&
    (match env.createTemp with | .error (e, _) => plain e | .ok _ => true) &&
    env.write.all (fun f => plain f.2.2) && env.sync.all plain && env.close.all plain &&
    env.rename.all plain

def renamePlain : RenameOutcome → Bool
  | .ok => true
  | .lost e | .failed e => plain e.err

/-- The errors that the FTP transport meets behind its check come from outside. -/
def ftpPlain (env : FtpEnv) : Bool :=
  env.acquire.all plain && env.refused.all (fun e => plain e.err) &&
    env.write.all (fun f => plain f.2.2) && env.ended.all (fun e => plain e.err) &&
    renamePlain env.rename

/-! ## One job -/

/-- What one `processOne` meets.  The check of the destination replaces the `parse` of
`ftpEnv`. -/
structure Site where
  localSource : LocalSource
  ftpSource : FtpSource
  body : Stream
  files : Files GoString
  localEnv : LocalEnv
  dstUrl : Option Url
  capError : Option CapError
  ftpEnv : FtpEnv
  read : Int
  closed : Option GoString
  durationMs : Int
  backoffMs : Int
  outside : streamPlain body = true ∧ localPlain localEnv = true ∧ ftpPlain ftpEnv = true

variable (go : GoText) (sha : List UInt8 → GoString)

/-- `Source.Open` of the job's source. -/
def Site.opened (site : Site) (job : Job) : Protocol → Except GoError Int
  | .localfs => localOpen (goString job.src) site.localSource
  | .ftp => ftpOpen go (goString job.src) site.ftpSource

/-- `Transport.Send` of the job's transport. -/
def Site.sent (site : Site) (job : Job) : Protocol → Except GoError (Int × GoString)
  | .localfs => (localSend sha site.localEnv site.files (goString job.dst) site.body).result
  | .ftp =>
    let env := { site.ftpEnv with parse := ftpParse go (goString job.dst) site.dstUrl }
    capSend (site.dstUrl.elim [] Url.host) site.capError
      (ftpSend sha env site.files site.body).result

/-- The answers of all calls of `processOne`. -/
def Site.run (site : Site) (job : Job) : JobRun :=
  match sourceFor job.srcProtocol, transportFor job.dstProtocol with
  | .error e, _ => ⟨some e, none, noCalls⟩
  | .ok _, .error e => ⟨none, some e, noCalls⟩
  | .ok source, .ok transport =>
    ⟨none, none,
      { opened := site.opened go job source
        sent := site.sent go sha job transport
        read := site.read
        closed := site.closed.map sysErr
        durationMs := site.durationMs
        backoffMs := site.backoffMs }⟩

/-! ## Which errors are marked -/

/-- The text ends with the text of `ErrPermanent`. -/
def Marked (e : GoError) : Prop := permanentMark <:+ e.text

/-- An error of a transport: it never skips the job, and it is permanent only if it says
so. -/
structure Tame (e : GoError) : Prop where
  kept : e.isSkippable = false
  marked : e.isPermanent = true → Marked e

section Errors

variable {e : GoError}

theorem plain_iff : plain e = true ↔ e.isSkippable = false ∧ e.isPermanent = false := by
  simp only [plain, Bool.and_eq_true, Bool.not_eq_true']

theorem tame_of_plain (h : plain e = true) : Tame e := by
  obtain ⟨hskip, hperm⟩ := plain_iff.mp h
  exact ⟨hskip, fun hp => by rw [hperm] at hp; cases hp⟩

/-- A longer text in front. -/
theorem Tame.front (h : Tame e) (pre : GoString) : Tame { e with text := pre ++ e.text } :=
  ⟨h.kept, fun hp => (h.marked hp).trans (List.suffix_append pre e.text)⟩

theorem Tame.wrap (h : Tame e) (pre : String) : Tame (e.wrap pre) := h.front (goString pre)

theorem tame_permanent (h : e.isSkippable = false) : Tame (permanent e) :=
  ⟨h, fun _ => List.suffix_append e.text permanentMark⟩

theorem tame_classify {fe : FtpError} (h : plain fe.err = true) : Tame (classify fe) := by
  rw [classify]
  split
  · exact tame_permanent (plain_iff.mp h).1
  · exact tame_permanent (plain_iff.mp h).1
  · exact tame_permanent (plain_iff.mp h).1
  · exact tame_of_plain h

theorem tame_storFailed {fe : FtpError} (h : plain fe.err = true) (path : GoString) :
    Tame (storFailed path fe) := (tame_classify h).front _

theorem tame_renameFailed {fe : FtpError} (h : plain fe.err = true) (path : GoString) :
    Tame (renameFailed path fe) := (tame_classify h).front _

theorem plain_copied {b : Stream} {fault : Option (Nat × Nat × GoError)}
    (hb : streamPlain b = true) (hfault : fault.all (fun f => plain f.2.2) = true)
    (h : (b.copied fault).2 = some e) : plain e = true := by
  have hread : b.err = some e → plain e = true := by
    intro herr
    rw [streamPlain, herr] at hb
    exact hb
  unfold Stream.copied at h
  split at h
  · split at h
    · obtain rfl := Option.some.inj h
      exact hfault
    · exact hread h
  · exact hread h

theorem tame_localSend {sha : List UInt8 → GoString} {env : LocalEnv} {f : Files GoString}
    {dst : GoString} {b : Stream} (hb : streamPlain b = true) (henv : localPlain env = true)
    (h : (localSend sha env f dst b).result = .error e) : Tame e := by
  simp only [localPlain, Bool.and_eq_true] at henv
  obtain ⟨⟨⟨⟨⟨hcancel, hcreate⟩, hwrite⟩, hsync⟩, hclose⟩, hrename⟩ := henv
  have hall : ∀ {o : Option GoError} {x : GoError}, o.all plain = true → o = some x →
      plain x = true := by
    rintro o x hall rfl
    exact hall
  unfold localSend at h
  cases hc : env.cancelled with
  | some x =>
    rw [hc] at h
    cases h
    exact tame_of_plain (hall hcancel hc)
  | none =>
    cases ht : env.createTemp with
    | error x =>
      obtain ⟨x, notExist⟩ := x
      rw [hc, ht] at h
      rw [ht] at hcreate
      cases h
      split
      · exact tame_permanent (plain_iff.mp hcreate).1
      · exact (tame_of_plain hcreate).wrap _
    | ok tmp =>
      simp only [hc, ht] at h
      split at h
      · cases h
        exact (tame_of_plain (plain_copied hb hwrite ‹_›)).wrap _
      · cases h
        exact (tame_of_plain (hall hsync ‹_›)).wrap _
      · cases h
        exact (tame_of_plain (hall hclose ‹_›)).wrap _
      · cases h
        exact (tame_of_plain (hall hrename ‹_›)).wrap _
      · cases h
        exact (tame_of_plain rfl).wrap _
      · cases h

theorem tame_ftpSend {sha : List UInt8 → GoString} {env : FtpEnv} {f : Files GoString}
    {b : Stream} (hb : streamPlain b = true) (henv : ftpPlain env = true)
    (hparse : ∀ x, env.parse = .error x → plain x = true)
    (h : (ftpSend sha env f b).result = .error e) : Tame e := by
  simp only [ftpPlain, Bool.and_eq_true] at henv
  obtain ⟨⟨⟨⟨hacquire, hrefused⟩, hwrite⟩, hended⟩, hrename⟩ := henv
  have hstor : ∀ x, env.storErr b = some x → plain x.err = true := by
    intro x hx
    rw [FtpEnv.storErr] at hx
    split at hx
    · rename_i y hy
      obtain rfl := Option.some.inj hx
      exact plain_copied hb hwrite hy
    · rw [hx] at hended
      exact hended
  unfold ftpSend at h
  cases hp : env.parse with
  | error x =>
    rw [hp] at h
    cases h
    exact tame_of_plain (hparse _ hp)
  | ok finalPath =>
    cases ha : env.acquire with
    | some x =>
      rw [hp, ha] at h
      rw [ha] at hacquire
      cases h
      exact (tame_of_plain hacquire).wrap _
    | none =>
      cases hr : env.refused with
      | some x =>
        rw [hp, ha, hr] at h
        rw [hr] at hrefused
        cases h
        exact tame_storFailed hrefused finalPath
      | none =>
        simp only [hp, ha, hr] at h
        split at h
        · cases h
          exact tame_storFailed (hstor _ ‹_›) finalPath
        · rename_i x hx
          rw [hx] at hrename
          cases h
          exact tame_renameFailed hrename finalPath
        · rename_i x hx _
          rw [hx] at hrename
          cases h
          exact tame_renameFailed hrename finalPath
        · rename_i x hx _
          rw [hx] at hrename
          cases h
          exact tame_renameFailed hrename finalPath
        · cases h
        · cases h
          exact tame_renameFailed rfl finalPath

end Errors

/-- The error of a missing source. -/
inductive Missing : GoError → Prop where
  | localfs (src : GoString) : Missing (skippableErr (goString "localfs: stat " ++ src))
  | ftp (path : GoString) : Missing (skippableErr (goString "ftp source: retr " ++ path))

/-- An error of a source: it skips the job only if the source is missing, and it is
permanent only if it says so. -/
structure SourceError (e : GoError) : Prop where
  missing : e.isSkippable = true → Missing e
  marked : e.isPermanent = true → Marked e

section Sources

variable {e : GoError}

theorem sourceError_sysErr (text : GoString) : SourceError (sysErr text) :=
  ⟨fun h => (by cases h), fun h => (by cases h)⟩

theorem Missing.sourceError (h : Missing e) : SourceError e :=
  ⟨fun _ => h, fun hp => by cases h <;> cases hp⟩

theorem sourceError_permanentErr (text : GoString) : SourceError (permanentErr text) :=
  ⟨fun h => (by cases h), fun _ => List.suffix_append text permanentMark⟩

theorem localOpen_error {src : GoString} {env : LocalSource} (h : localOpen src env = .error e) :
    SourceError e := by
  rw [localOpen] at h
  repeat' split at h
  all_goals cases h
  · exact sourceError_sysErr _
  · exact (Missing.localfs src).sourceError
  · exact sourceError_sysErr _
  · exact sourceError_permanentErr _
  · exact sourceError_sysErr _

theorem ftpOpen_error {go : GoText} {src : GoString} {env : FtpSource}
    (h : ftpOpen go src env = .error e) : SourceError e := by
  rw [ftpOpen] at h
  repeat' split at h
  all_goals cases h
  · exact sourceError_permanentErr _
  · exact sourceError_permanentErr _
  · exact sourceError_permanentErr _
  · exact sourceError_permanentErr _
  · exact sourceError_sysErr _
  · exact (Missing.ftp _).sourceError
  · exact sourceError_sysErr _

theorem capSend_error {α : Type} {host : GoString} {err : Option CapError}
    {inner : Except GoError α} (hinner : ∀ x, inner = .error x → Tame x)
    (h : capSend host err inner = .error e) : Tame e := by
  unfold capSend at h
  split at h
  · cases h
    exact tame_of_plain rfl
  · split at h
    · cases h
      exact tame_of_plain rfl
    · cases h
      exact tame_of_plain rfl
    · cases h
      exact tame_of_plain rfl
    · exact hinner e h

end Sources

/-! ## Which statement ends the job -/

/-- What `processOne` gets from the sources and transports of the command. -/
structure TameRun (run : JobRun) : Prop where
  sourceFor : ∀ e, run.sourceFor = some e → e = unknownProtocol
  transportFor : ∀ e, run.transportFor = some e → e = unknownProtocol
  opened : ∀ e, run.calls.opened = .error e → SourceError e
  sent : ∀ e, run.calls.sent = .error e → Tame e
  closed : ∀ e, run.calls.closed = some e → plain e = true

theorem protocolOf_error {proto : String} {e : GoError} (h : protocolOf proto = .error e) :
    e = unknownProtocol := by
  rw [protocolOf] at h
  repeat' split at h
  all_goals cases h
  rfl

theorem tameRun_refused {src tr : Option GoError} (hsrc : ∀ e, src = some e → e = unknownProtocol)
    (htr : ∀ e, tr = some e → e = unknownProtocol) : TameRun ⟨src, tr, noCalls⟩ where
  sourceFor := hsrc
  transportFor := htr
  opened := fun e h => by cases h
  sent := fun e h => by cases h
  closed := fun e h => by cases h

theorem Site.tame (go : GoText) (sha : List UInt8 → GoString) (site : Site) (job : Job) :
    TameRun (site.run go sha job) := by
  obtain ⟨hbody, hlocal, hftp⟩ := site.outside
  cases hsrc : sourceFor job.srcProtocol with
  | error e =>
    simp only [Site.run, hsrc]
    exact tameRun_refused (fun x hx => Option.some.inj hx ▸ protocolOf_error hsrc)
      (fun x hx => by cases hx)
  | ok source =>
    cases htr : transportFor job.dstProtocol with
    | error e =>
      simp only [Site.run, hsrc, htr]
      exact tameRun_refused (fun x hx => by cases hx)
        (fun x hx => Option.some.inj hx ▸ protocolOf_error htr)
    | ok transport =>
      simp only [Site.run, hsrc, htr]
      refine ⟨fun x hx => (by cases hx), fun x hx => (by cases hx), ?_, ?_, ?_⟩
      · intro x hx
        cases source with
        | localfs => exact localOpen_error hx
        | ftp => exact ftpOpen_error hx
      · intro x hx
        cases transport with
        | localfs => exact tame_localSend hbody hlocal hx
        | ftp =>
          have hparse : ∀ y, ftpParse go (goString job.dst) site.dstUrl = .error y →
              plain y = true := by
            intro y hy
            rw [ftpParse] at hy
            split at hy <;> cases hy
            rfl
          have henv : ftpPlain { site.ftpEnv with
              parse := ftpParse go (goString job.dst) site.dstUrl } = true := hftp
          exact capSend_error (fun y hy => tame_ftpSend hbody henv hparse hy) hx
      · intro x hx
        obtain ⟨text, -, rfl⟩ := Option.map_eq_some_iff.mp hx
        rfl

/-- Why a job dies with attempts left. -/
inductive FinalCause : Detail → Prop where
  | sourceFactory : FinalCause (factoryDetail unknownProtocol "source-factory")
  | transportFactory : FinalCause (factoryDetail unknownProtocol "transport-factory")
  | opened (e : GoError) (h : Marked e) : FinalCause (openErrDetails e)
  | sent (e : GoError) (h : Marked e) : FinalCause (transportErrDetails e)
  | size (srcSize written : Int) (h : written ≠ srcSize) :
      FinalCause (.fields [("reason", .str (goString "size_mismatch")),
        ("stage", .str (goString "verify")), ("src_size", .int srcSize), ("written", .int written)])
  | sizeUnknown (read written : Int) (h : read ≠ written) :
      FinalCause (.fields [("reason", .str (goString "size_mismatch_unknown_src")),
        ("stage", .str (goString "verify")), ("read", .int read), ("written", .int written)])

/-- The event of a skip, and of a death. -/
structure Verdict (job : Job) (st : Statement) : Prop where
  skip : st.event = .skip → ∃ e, Missing e ∧ st.detail = openErrDetails e
  dead : st.event = .dead → FinalCause st.detail ∨ job.maxAttempts ≤ job.attempts + 1

theorem verdict_writeRetryOrDead (job : Job) (d : Detail) (b : Int) :
    Verdict job (writeRetryOrDead job d b) := by
  rw [writeRetryOrDead]
  split
  · rename_i hmax
    exact ⟨fun h => (by cases h), fun _ => Or.inr hmax⟩
  · exact ⟨fun h => (by cases h), fun h => (by cases h)⟩

theorem verdict_dead {job : Job} {d : Detail} (h : FinalCause d) (bump : Bool) :
    Verdict job (writeTerminal job .dead d bump) :=
  ⟨fun hskip => (by cases hskip), fun _ => Or.inl h⟩

theorem verdict_classify {job : Job} {e : GoError} {d : Detail} (b : Int)
    (hskip : e.isSkippable = true → ∃ x, Missing x ∧ d = openErrDetails x)
    (hperm : e.isPermanent = true → FinalCause d) : Verdict job (classifyAndWrite job e d b) := by
  rw [classifyAndWrite]
  split
  · exact ⟨fun _ => hskip ‹_›, fun h => (by cases h)⟩
  · split
    · exact verdict_dead (hperm ‹_›) true
    · exact verdict_writeRetryOrDead job d b

theorem TameRun.verdict {run : JobRun} (h : TameRun run) (job : Job) :
    Verdict job (processOne job run) := by
  rw [processOne]
  split
  · rename_i e he
    rw [h.sourceFor e he]
    exact verdict_dead .sourceFactory true
  split
  · rename_i e he
    rw [h.transportFor e he]
    exact verdict_dead .transportFactory true
  cases ho : run.calls.opened with
  | error e =>
    have hsrc := h.opened e ho
    simp only [processJob, ho]
    exact verdict_classify _ (fun hs => ⟨e, hsrc.missing hs, rfl⟩)
      fun hp => .opened e (hsrc.marked hp)
  | ok srcSize =>
    cases hsent : run.calls.sent with
    | error e =>
      have htame := h.sent e hsent
      simp only [processJob, ho, hsent]
      refine verdict_classify _ (fun hs => ?_) fun hp => .sent e (htame.marked hp)
      rw [htame.kept] at hs
      cases hs
    | ok answer =>
      obtain ⟨written, shaHex⟩ := answer
      simp only [processJob, ho, hsent, verifyAndClose]
      split
      · rename_i hsize
        exact verdict_classify _ (fun hs => by cases hs) fun _ => .size srcSize written hsize.2
      split
      · rename_i hsize
        exact verdict_classify _ (fun hs => by cases hs)
          fun _ => .sizeUnknown run.calls.read written hsize.2
      split
      · rename_i e he
        obtain ⟨hs, hp⟩ := plain_iff.mp (h.closed e he)
        refine verdict_classify _ (fun hs' => ?_) (fun hp' => ?_)
        · rw [GoError.wrap, hs] at hs'
          cases hs'
        · rw [GoError.wrap, hp] at hp'
          cases hp'
      · exact ⟨fun hs => (by cases hs), fun hd => (by cases hd)⟩

/-! ## Runs of the command -/

/-- The calls of a step answer as the sources and transports of the command do. -/
def Shipped (go : GoText) (sha : List UInt8 → GoString) (s : System) (a : Time × Action) : Prop :=
  ∀ w run, a.2 = .write w run → ∀ job n stage, s.workers w = .working job n stage →
    ∃ site : Site, run = site.run go sha job

/-- The event of a skip names a missing source. -/
def SkipTold (e : EventRow) : Prop :=
  e.status = .skip → ∃ err, Missing err ∧ e.detail = openErrDetails err

/-- The event of a death has a final cause, or the row has used up its attempts. -/
def DeathTold (t : Tables) (e : EventRow) : Prop :=
  e.status = .dead → FinalCause e.detail ∨
    ∃ r ∈ t.jobs, r.id = e.jobId ∧ r.status = .dead ∧ r.maxAttempts ≤ r.attempts

def Told (t : Tables) : Prop := ∀ e ∈ t.events, SkipTold e ∧ DeathTold t e

section Runs

variable {t : Tables} {s : System}

/-- An operation keeps what the log says if its new events are told. -/
theorem Told.exec (h : Told t) (hwf : t.Wf) {now : Time} {op : Op}
    (hnew : ∀ e ∈ (exec t now op).events, e ∉ t.events →
      SkipTold e ∧ DeathTold (exec t now op) e) : Told (exec t now op) := by
  intro e he
  by_cases hold : e ∈ t.events
  · obtain ⟨hskip, hdeath⟩ := h e hold
    refine ⟨hskip, fun hdead => (hdeath hdead).imp_right ?_⟩
    -- The row of the event is still there, and a dead row never changes.
    rintro ⟨r, hr, hid, hst, hmax⟩
    obtain ⟨r', hr', hid'⟩ := (exec_wf hwf now op).fk e he
    have hterm : r.status.Terminal = true := by rw [hst]; rfl
    obtain rfl := (exec_terminal hwf now op hr hterm).1 r' hr' (hid'.trans hid.symm)
    exact ⟨r', hr', hid, hst, hmax⟩
  · exact hnew e he hold

/-- The row of a job that dies has used up its attempts if the snapshot has. -/
theorem exhausted_row {st : Statement} {r : JobRow} (hfits : st.Fits r) (now : Time)
    (hdead : st.event = .dead) (hmax : st.job.maxAttempts ≤ st.job.attempts + 1) :
    (st.set now r).status = .dead ∧ (st.set now r).maxAttempts ≤ (st.set now r).attempts := by
  cases st with
  | success => cases hdead
  | retry => cases hdead
  | terminal job kind attempts d =>
    cases kind with
    | skipped => cases hdead
    | dead =>
      have hsound : attempts = job.attempts + 1 := hfits.sound
      have hsame : r.maxAttempts = job.maxAttempts := hfits.maxAttempts
      refine ⟨rfl, ?_⟩
      calc r.maxAttempts = job.maxAttempts := hsame
        _ ≤ job.attempts + 1 := hmax
        _ = attempts := hsound.symm

theorem set_id (st : Statement) (now : Time) (r : JobRow) : (st.set now r).id = r.id := by
  cases st <;> rfl

/-- The event of a statement that gives a verdict. -/
theorem Verdict.told (hinv : SystemInv s) {w : String} {n : Nat} {st : Statement}
    (hst : Issues s w n st) (hverdict : Verdict st.job st) (now : Time) :
    ∀ e ∈ (exec s.tables now (.outcome w st)).events, e ∉ s.tables.events →
      SkipTold e ∧ DeathTold (exec s.tables now (.outcome w st)) e := by
  intro e he hnew
  have hexec : exec s.tables now (.outcome w st) = (st.exec s.tables now w).1 := rfl
  rw [hexec] at he ⊢
  obtain ⟨hid, hkind, hdetail⟩ := (Statement.mem_events he).resolve_left hnew
  by_cases hheld : LeasedUnder s st.job.id n
  · refine ⟨fun hskip => hdetail ▸ hverdict.skip (hkind ▸ hskip), fun hdead => ?_⟩
    rw [hdetail]
    refine (hverdict.dead (hkind ▸ hdead)).imp_right fun hmax => ?_
    obtain ⟨-, r, hr, hrid, hleased, heq⟩ := hinv.exec_held hst now hheld
    obtain ⟨_, _, _, _, hlast⟩ := hheld
    have hg : leaseGuard st.job.id w r = true :=
      (hinv.guard_iff hst hr).mpr ⟨hrid, hleased, hlast⟩
    refine ⟨st.set now r, ?_, ?_, exhausted_row (hinv.fits hst hr hg) now (hkind ▸ hdead) hmax⟩
    · rw [heq]
      exact List.mem_map.mpr ⟨r, hr, if_pos (beq_self_eq_true r.id)⟩
    · rw [set_id, hrid, hid]
  · rw [hinv.exec_lost hst now hheld] at he
    exact absurd he hnew

/-- The statements of a run of the command give verdicts, and the other operations
log neither a skip nor a death. -/
theorem operation_verdict {go : GoText} {sha : List UInt8 → GoString} {now : Time} {act : Action}
    (hship : Shipped go sha s (now, act)) {op : Op} (hop : operation s act = some op) :
    (op.kind ≠ some .skip ∧ op.kind ≠ some .dead) ∨
      ∃ w n st, op = .outcome w st ∧ Issues s w n st ∧ Verdict st.job st := by
  cases act with
  | external o =>
    simp only [operation, Option.ite_none_right_eq_some, Option.some.injEq] at hop
    obtain ⟨hext, rfl⟩ := hop
    cases o with
    | leaseJob | outcome | drainLease => cases hext
    | _ => exact Or.inl ⟨by simp [Op.kind], by simp [Op.kind]⟩
  | lease w rowLocked lost | drain w =>
    simp only [operation] at hop
    split at hop <;> cases hop
    exact Or.inl ⟨by simp [Op.kind], by simp [Op.kind]⟩
  | write w run =>
    simp only [operation] at hop
    split at hop
    · rename_i job n hw
      cases hop
      obtain ⟨site, rfl⟩ := hship w run rfl job n .running hw
      refine Or.inr ⟨w, n, _, rfl, .main _ hw, ?_⟩
      rw [(processOne_sound job _).2]
      exact (site.tame go sha job).verdict job
    · cases hop
  | recover w rec_ backoffMs =>
    simp only [operation] at hop
    split at hop
    · rename_i job n stage hw
      cases hop
      refine Or.inr ⟨w, n, _, rfl, .recovery rec_ backoffMs hw, ?_⟩
      rw [recoveryWrite, (writeRetryOrDead_sound job _ _).2]
      exact verdict_writeRetryOrDead job _ _
    · cases hop
  | writeFails w | recoverFails w | finish w | crash w => cases hop

theorem Told.step {go : GoText} {sha : List UInt8 → GoString} {a : Time × Action}
    (h : Told s.tables) (hinv : SystemInv s) (hship : Shipped go sha s a) :
    Told (step s a).tables := by
  obtain ⟨now, act⟩ := a
  rw [step_tables_eq]
  cases hop : operation s act with
  | none => exact h
  | some op =>
    refine h.exec hinv.wf ?_
    rcases operation_verdict hship hop with ⟨hskip, hdead⟩ | ⟨w, n, st, rfl, hst, hverdict⟩
    · intro e he hnew
      obtain ⟨-, hkind⟩ := (exec_mem_events hinv.wf he).resolve_left hnew
      rw [hkind] at hskip hdead
      exact ⟨fun hs => absurd (congrArg some hs) hskip, fun hd => absurd (congrArg some hd) hdead⟩
    · exact hverdict.told hinv hst now

/-- The last event of a job that has ended. -/
theorem closing_event (haudit : Audited t) {r : JobRow} (hr : r ∈ t.jobs) {kind : EventStatus}
    (hkind : r.status.closedBy = some kind) :
    ∃ e ∈ t.events, e.jobId = r.id ∧ e.status = kind := by
  obtain ⟨before, -, htrail⟩ := haudit.rows r hr
  have hmem : kind ∈ t.trail r.id := by
    rw [htrail, hkind]
    exact List.mem_append_right before (List.mem_singleton_self kind)
  rw [Tables.trail, kindsOf] at hmem
  obtain ⟨e, he, hstatus⟩ := List.mem_map.mp hmem
  obtain ⟨hevent, hid⟩ := List.mem_filter.mp he
  exact ⟨e, hevent, beq_iff_eq.mp hid, hstatus⟩

end Runs

/-- Why jobs end without a copy.  In every run of the command's sources and transports a
skipped job has a skip event that names its missing source, every skip event is such a
one, and a job that is dead with attempts left has the event of its final cause. -/
theorem verdicts_explained (go : GoText) (sha : List UInt8 → GoString)
    (acts : List (Time × Action)) (h : AllSteps step (Shipped go sha) System.init acts) :
    (∀ e ∈ (reach acts).tables.events, SkipTold e) ∧
      ∀ r ∈ (reach acts).tables.jobs,
        (r.status = .skipped → ∃ e ∈ (reach acts).tables.events, e.jobId = r.id ∧
          e.status = .skip ∧ ∃ err, Missing err ∧ e.detail = openErrDetails err) ∧
        (r.status = .dead → r.attempts < r.maxAttempts →
          ∃ e ∈ (reach acts).tables.events, e.jobId = r.id ∧ e.status = .dead ∧
            FinalCause e.detail) := by
  have hrun : SystemInv (reach acts) ∧ Told (reach acts).tables :=
    foldl_all (fun s : System => SystemInv s ∧ Told s.tables)
      (fun s a hs hship => ⟨step_inv s a hs.1, hs.2.step hs.1 hship⟩)
      ⟨systemInv_init, fun e he => by cases he⟩ h
  obtain ⟨hinv, htold⟩ := hrun
  refine ⟨fun e he => (htold e he).1, fun r hr => ⟨fun hskipped => ?_, fun hdead hleft => ?_⟩⟩
  · obtain ⟨e, he, hid, hkind⟩ := closing_event (reach_audited acts) hr
      (show r.status.closedBy = some .skip by rw [hskipped]; rfl)
    exact ⟨e, he, hid, hkind, (htold e he).1 hkind⟩
  · obtain ⟨e, he, hid, hkind⟩ := closing_event (reach_audited acts) hr
      (show r.status.closedBy = some .dead by rw [hdead]; rfl)
    refine ⟨e, he, hid, hkind, ((htold e he).2 hkind).resolve_right ?_⟩
    rintro ⟨r', hr', hid', -, hmax⟩
    obtain rfl := eq_of_key_eq hinv.wf.ids hr' hr (hid'.trans hid)
    exact absurd hmax (not_le_of_gt hleft)

/-- The source is a directory. -/
def directorySite : Site where
  localSource := ⟨none, .ok (true, 4096), none⟩
  ftpSource := ⟨none, none, none, none⟩
  body := ⟨[], none⟩
  files := ⟨fun _ => none, fun _ => [], 0⟩
  localEnv := ⟨none, .ok [], none, none, none, none, true⟩
  dstUrl := none
  capError := none
  ftpEnv := ⟨.ok [], none, none, none, none, .ok, true⟩
  read := 0
  closed := none
  durationMs := 1
  backoffMs := 2000
  outside := ⟨rfl, rfl, rfl⟩

def directoryRun (go : GoText) (sha : List UInt8 → GoString) : List (Time × Action) :=
  leaseRun ++ [(1000, .write "pod-w0" (directorySite.run go sha firstLease))]

/-- A job whose source is a directory dies at its first attempt, with the cause in its
event. -/
theorem verdicts_explained_directory :
    (reach (directoryRun ⟨id, id⟩ fun _ => [])).tables.jobs.map
        (fun r => (r.status, r.attempts, r.maxAttempts)) = [(.dead, 1, 5)] ∧
      ∀ r ∈ (reach (directoryRun ⟨id, id⟩ fun _ => [])).tables.jobs, r.status = .dead →
        r.attempts < r.maxAttempts →
        ∃ e ∈ (reach (directoryRun ⟨id, id⟩ fun _ => [])).tables.events, e.jobId = r.id ∧
          e.status = .dead ∧ FinalCause e.detail := by
  have hship : AllSteps step (Shipped ⟨id, id⟩ fun _ => []) System.init
      (directoryRun ⟨id, id⟩ fun _ => []) := by
    refine ⟨?_, ?_, ?_, trivial⟩
    · intro w run hrun
      cases hrun
    · intro w run hrun
      cases hrun
    · intro w run hrun job n stage hw
      cases hrun
      have hheld : WorkerState.working firstLease 1 .running = .working job n stage := hw
      cases hheld
      exact ⟨directorySite, rfl⟩
  exact ⟨by decide, fun r hr => ((verdicts_explained _ _ _ hship).2 r hr).2⟩

end ImgSync.Worker.Wiring
