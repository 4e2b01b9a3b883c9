import Mathlib.Data.List.Sort
import ImgSync.Lib.AdvisoryLock
import ImgSync.Lib.Run
import ImgSync.Queue.Schema

/-!
# Migrations

`ApplyMigrations` of `internal/db/migrate.go`, run by any number of pods at
once on one directory.  Every call has a session of its own.  It takes the
session advisory lock, looks whether `schema_migrations` exists, reads the
recorded versions, and then goes through the sorted files and executes those
that are not recorded.

A file commits as a whole or not at all.  It records its own version, and the
first file creates `schema_migrations`, as the files under `migrations/` do.
So a file fails on its own when the table is not as it expects, or when its
version is recorded (`applyBody`).

A call can fail or crash before each step.  Its session then ends, which frees
the lock.  A connection that is lost while a file runs is a failure before or
after the step of that file.
-/

namespace ImgSync.Db

open ImgSync.Lib ImgSync.Queue

/-! ## The directory -/

structure DirEntry where
  name : GoString
  isDir : Bool

/-- A directory: no two entries share a name. -/
structure Dir where
  entries : List DirEntry
  nodup : (entries.map DirEntry.name).Nodup

/-- `strings.HasSuffix`. -/
def hasSuffix (s suffix : GoString) : Bool := suffix.isSuffixOf s

/-- `strings.TrimSuffix`. -/
def trimSuffix (s suffix : GoString) : GoString :=
  if hasSuffix s suffix then s.take (s.length - suffix.length) else s

/-- The version of a migration file. -/
def version (name : GoString) : GoString := trimSuffix name (goString ".up.sql")

/-- The migration files in the order of `sort.Strings`. -/
def Dir.files (d : Dir) : List GoString :=
  ((d.entries.filter fun e => !e.isDir && hasSuffix e.name (goString ".up.sql")).map
    DirEntry.name).insertionSort (· ≤ ·)

theorem hasSuffix_iff {s suffix : GoString} : hasSuffix s suffix = true ↔ suffix <:+ s :=
  List.isSuffixOf_iff_suffix

theorem trimSuffix_append {s suffix : GoString} (h : hasSuffix s suffix = true) :
    trimSuffix s suffix ++ suffix = s := by
  obtain ⟨stem, rfl⟩ := hasSuffix_iff.mp h
  rw [trimSuffix, if_pos h, List.length_append, Nat.add_sub_cancel, List.take_left]

theorem Dir.files_perm (d : Dir) :
    d.files.Perm ((d.entries.filter fun e => !e.isDir && hasSuffix e.name (goString ".up.sql")).map
      DirEntry.name) :=
  List.perm_insertionSort _ _

theorem Dir.nodup_files (d : Dir) : d.files.Nodup :=
  d.files_perm.nodup_iff.mpr (d.nodup.sublist (List.filter_sublist.map _))

theorem Dir.sorted_files (d : Dir) : d.files.Pairwise (· ≤ ·) := by
  have : Std.Total fun a b : GoString => a ≤ b := ⟨List.le_total⟩
  have : IsTrans GoString fun a b => a ≤ b := ⟨fun _ _ _ => List.le_trans⟩
  exact List.pairwise_insertionSort _ _

theorem Dir.mem_files_iff {d : Dir} {name : GoString} :
    name ∈ d.files ↔ ∃ e ∈ d.entries, e.isDir = false ∧
      hasSuffix e.name (goString ".up.sql") = true ∧ e.name = name := by
  rw [d.files_perm.mem_iff, List.mem_map]
  simp only [List.mem_filter, Bool.and_eq_true, Bool.not_eq_true', and_assoc]

theorem Dir.hasSuffix_of_mem {d : Dir} {name : GoString} (h : name ∈ d.files) :
    hasSuffix name (goString ".up.sql") = true := by
  obtain ⟨e, -, -, hsuffix, rfl⟩ := Dir.mem_files_iff.mp h
  exact hsuffix

/-- Two migration files have different versions. -/
theorem Dir.nodup_versions (d : Dir) : (d.files.map version).Nodup := by
  refine List.Nodup.map_on ?_ d.nodup_files
  intro a ha b hb heq
  rw [← trimSuffix_append (Dir.hasSuffix_of_mem ha), ← trimSuffix_append (Dir.hasSuffix_of_mem hb)]
  exact congrArg (· ++ goString ".up.sql") heq

/-! ## The database -/

/-- The rows of `schema_migrations`, once the table exists, and the files that
have committed, in order. -/
structure Database where
  table : Option (List GoString)
  applied : List GoString

def Database.fresh : Database where
  table := none
  applied := []

/-- The recorded versions. -/
def Database.versions (db : Database) : List GoString := db.table.getD []

/-- Execute a migration file.  `none` is an error, and nothing is applied. -/
def applyBody (files : List GoString) (db : Database) (name : GoString) : Option Database :=
  match db.table with
  | none =>
    if files.head? = some name then
      some ⟨some [version name], db.applied ++ [name]⟩
    else none
  | some versions =>
    if files.head? = some name ∨ version name ∈ versions then none
    else some ⟨some (versions ++ [version name]), db.applied ++ [name]⟩

/-! ## The calls -/

def migrationAdvisoryLockID : Int := 0x494d4753594e43

/-- Where a call is. -/
inductive Phase where
  | start
  | connected
  | locked
  /-- `hasTable` has answered. -/
  | checked (found : Bool)
  /-- In the loop over the files, with the versions that were read. -/
  | applying (applied todo : List GoString)
  | returned (ok : Bool)
  deriving DecidableEq

structure State (n : Nat) where
  db : Database
  locks : Locks (Fin n) Int
  phases : Fin n → Phase

inductive Action (n : Nat) where
  | connect (i : Fin n)
  | lock (i : Fin n)
  | hasTable (i : Fin n)
  | readVersions (i : Fin n)
  /-- One pass through the body of the loop. -/
  | next (i : Fin n)
  | finish (i : Fin n)
  /-- An error or a crash. -/
  | fail (i : Fin n)

section Model

variable (files : List GoString) {n : Nat}

def State.setPhase (s : State n) (i : Fin n) (ph : Phase) : State n :=
  { s with phases := Function.update s.phases i ph }

/-- The call returns, and the deferred close ends its session. -/
def State.leave (s : State n) (i : Fin n) (ok : Bool) : State n :=
  { s with
    locks := endSession s.locks i
    phases := Function.update s.phases i (.returned ok) }

def step (s : State n) : Action n → State n
  | .connect i =>
    match s.phases i with
    | .start => s.setPhase i .connected
    | _ => s
  | .lock i =>
    match s.phases i with
    | .connected =>
      -- `pg_advisory_lock` waits until it has the lock.
      if (tryLock s.locks i migrationAdvisoryLockID).2 then
        { s with
          locks := (tryLock s.locks i migrationAdvisoryLockID).1
          phases := Function.update s.phases i .locked }
      else s
    | _ => s
  | .hasTable i =>
    match s.phases i with
    | .locked => s.setPhase i (.checked s.db.table.isSome)
    | _ => s
  | .readVersions i =>
    match s.phases i with
    | .checked found => s.setPhase i (.applying (if found then s.db.versions else []) files)
    | _ => s
  | .next i =>
    match s.phases i with
    | .applying applied (name :: rest) =>
      if version name ∈ applied then s.setPhase i (.applying applied rest)
      else
        match applyBody files s.db name with
        | some db =>
          { s with db := db, phases := Function.update s.phases i (.applying applied rest) }
        | none => s.leave i false
    | _ => s
  | .finish i =>
    match s.phases i with
    | .applying _ [] => s.leave i true
    | _ => s
  | .fail i =>
    match s.phases i with
    | .returned _ => s
    | _ => s.leave i false

/-- A fresh database, and no call has begun. -/
def initial : State n where
  db := .fresh
  locks := fun _ => none
  phases := fun _ => .start

/-- The state that a run reaches. -/
def reach (as : List (Action n)) : State n := as.foldl (step files) initial

end Model

/-! ## The invariant -/

/-- The first `k` files are applied and recorded, and nothing else. -/
structure Database.At (files : List GoString) (db : Database) (k : Nat) : Prop where
  le : k ≤ files.length
  applied : db.applied = files.take k
  table : db.table = if k = 0 then none else some ((files.take k).map version)

/-- What a call relies on while `k` files are applied.  A call past the lock
holds it, so `k` changes by its own steps only. -/
def CallAt (files : List GoString) {n : Nat} (locks : Locks (Fin n) Int) (i : Fin n) (k : Nat) :
    Phase → Prop
  | .start | .connected | .returned false => True
  | .locked => Holds locks i migrationAdvisoryLockID
  | .checked found => Holds locks i migrationAdvisoryLockID ∧ found = decide (0 < k)
  | .applying applied todo => Holds locks i migrationAdvisoryLockID ∧
      ∃ seen pos, applied = (files.take seen).map version ∧ todo = files.drop pos ∧
        seen ≤ files.length ∧ pos ≤ files.length ∧ k = max seen pos
  | .returned true => k = files.length

structure Inv (files : List GoString) {n : Nat} (s : State n) (k : Nat) : Prop where
  db : s.db.At files k
  calls : ∀ i, CallAt files s.locks i k (s.phases i)

section Invariant

variable {files : List GoString} {n : Nat} {s : State n} {i j : Fin n} {k k' : Nat}

theorem Database.At.versions {db : Database} (h : db.At files k) :
    db.versions = (files.take k).map version := by
  rw [Database.versions, h.table]
  split
  · rename_i hzero
    rw [hzero]
    rfl
  · rfl

theorem Database.At.found {db : Database} (h : db.At files k) :
    db.table.isSome = decide (0 < k) := by
  rw [h.table]
  split
  · rename_i hzero
    rw [hzero]
    rfl
  · rename_i hpos
    rw [decide_eq_true (Nat.pos_of_ne_zero hpos)]
    rfl

omit s i j k k' in
theorem getElem_mem_take_iff {α : Type} {l : List α} (h : l.Nodup) {m c : Nat}
    (hm : m < l.length) : l[m] ∈ l.take c ↔ m < c := by
  rw [List.mem_take_iff_getElem]
  constructor
  · rintro ⟨p, hp, heq⟩
    have hpm : p = m := h.getElem_inj_iff.mp heq
    omega
  · exact fun hc => ⟨m, by omega, rfl⟩

/-- The version of a file is among the versions of the first `c` files exactly
when the file is. -/
theorem version_mem_take_iff (hnodup : (files.map version).Nodup) {m c : Nat}
    (hm : m < files.length) : version files[m] ∈ (files.take c).map version ↔ m < c := by
  have hlen : m < (files.map version).length := by rwa [List.length_map]
  rw [List.map_take, ← getElem_mem_take_iff hnodup hlen, List.getElem_map]

/-- The next file always goes through: nothing but an outside failure stops a
call. -/
theorem applyBody_at {db : Database} (h : db.At files k) (hnodup : (files.map version).Nodup)
    (hk : k < files.length) :
    ∃ db', applyBody files db files[k] = some db' ∧ db'.At files (k + 1) := by
  have htake : files.take (k + 1) = files.take k ++ [files[k]] := by
    rw [List.take_append_getElem]
  have hnew : version files[k] ∉ (files.take k).map version := by
    rw [version_mem_take_iff hnodup hk]
    exact lt_irrefl k
  unfold applyBody
  rw [h.table]
  by_cases hzero : k = 0
  · subst hzero
    have hhead : files.head? = some files[0] := by
      rw [List.head?_eq_getElem?, List.getElem?_eq_getElem hk]
    rw [if_pos rfl]
    simp only [hhead, if_true]
    refine ⟨_, rfl, hk, ?_, ?_⟩
    · rw [htake, h.applied]
    · rw [if_neg (Nat.succ_ne_zero 0), htake]
      rfl
  · have hhead : files.head? ≠ some files[k] := by
      intro heq
      rw [List.head?_eq_getElem?,
        List.getElem?_eq_getElem (Nat.pos_of_ne_zero hzero |>.trans hk)] at heq
      have hfiles : files.Nodup := List.Nodup.of_map _ hnodup
      exact hzero (hfiles.getElem_inj_iff.mp (Option.some.inj heq)).symm
    rw [if_neg hzero]
    simp only [hhead, hnew, or_self, if_false]
    refine ⟨_, rfl, hk, ?_, ?_⟩
    · rw [htake, h.applied]
    · rw [if_neg (Nat.succ_ne_zero k), htake, List.map_append]
      rfl

/-- A step of another call that applies no file. -/
theorem CallAt.keep {locks locks' : Locks (Fin n) Int} {ph : Phase}
    (h : CallAt files locks j k ph) (hkeep : KeepsOthers i locks locks') (hne : j ≠ i) :
    CallAt files locks' j k ph := by
  cases ph with
  | start | connected => trivial
  | locked => exact hkeep j _ hne h
  | checked found => exact ⟨hkeep j _ hne h.1, h.2⟩
  | applying applied todo => exact ⟨hkeep j _ hne h.1, h.2⟩
  | returned ok =>
    cases ok with
    | true => exact h
    | false => trivial

/-- A step of another call that applies a file.  That call has the lock, so
this one does not. -/
theorem CallAt.apply {locks : Locks (Fin n) Int} {ph : Phase} (h : CallAt files locks j k ph)
    (hlock : Holds locks i migrationAdvisoryLockID) (hne : j ≠ i) (hk : k < files.length) :
    CallAt files locks j k' ph := by
  cases ph with
  | start | connected => trivial
  | locked => exact absurd (h.unique hlock) hne
  | checked found => exact absurd (h.1.unique hlock) hne
  | applying applied todo => exact absurd (h.1.unique hlock) hne
  | returned ok =>
    cases ok with
    | true => exact absurd h hk.ne
    | false => trivial

/-- A step of the call `i` that applies no file. -/
theorem Inv.move (h : Inv files s k) {ph : Phase} {locks : Locks (Fin n) Int}
    (hkeep : KeepsOthers i s.locks locks) (hcall : CallAt files locks i k ph) :
    Inv files { s with locks := locks, phases := Function.update s.phases i ph } k := by
  refine ⟨h.db, ?_⟩
  exact (Function.forall_update_iff s.phases fun j p => CallAt files locks j k p).mpr
    ⟨hcall, fun j hj => (h.calls j).keep hkeep hj⟩

theorem Inv.setPhase (h : Inv files s k) {ph : Phase} (hcall : CallAt files s.locks i k ph) :
    Inv files (s.setPhase i ph) k :=
  h.move (.refl i s.locks) hcall

theorem Inv.leave (h : Inv files s k) {ok : Bool} (hall : ok = true → k = files.length) :
    Inv files (s.leave i ok) k := by
  refine h.move (keepsOthers_endSession s.locks i) ?_
  cases ok with
  | true => exact hall rfl
  | false => trivial

/-- One pass through the loop.  A recorded file is skipped; the others are
applied one after the other. -/
theorem Inv.next (h : Inv files s k) (hnodup : (files.map version).Nodup) (i : Fin n) :
    ∃ k', Inv files (step files s (.next i)) k' := by
  simp only [step]
  split
  · rename_i applied name rest hph
    obtain ⟨hlock, seen, pos, rfl, htodo, hseen, hpos, rfl⟩ :
        CallAt files s.locks i k (.applying applied (name :: rest)) := hph ▸ h.calls i
    have hlt : pos < files.length := by
      by_contra hge
      rw [List.drop_eq_nil_of_le (not_lt.mp hge)] at htodo
      cases htodo
    rw [List.drop_eq_getElem_cons hlt] at htodo
    obtain ⟨rfl, rfl⟩ := List.cons.inj htodo
    have hmem := version_mem_take_iff (c := seen) hnodup hlt
    split
    · rename_i hskip
      have hpast : pos < seen := hmem.mp hskip
      refine ⟨max seen pos, h.setPhase ⟨hlock, seen, pos + 1, rfl, rfl, hseen, hlt, ?_⟩⟩
      omega
    · rename_i hnew
      have hmax : max seen pos = pos := by
        rw [hmem] at hnew
        omega
      rw [hmax] at h
      obtain ⟨db', hdb', hat⟩ := applyBody_at h.db hnodup hlt
      simp only [hdb']
      refine ⟨pos + 1, hat, ?_⟩
      refine (Function.forall_update_iff s.phases fun j p => CallAt files s.locks j (pos + 1) p).mpr
        ⟨?_, fun j hj => (h.calls j).apply hlock hj hlt⟩
      refine ⟨hlock, seen, pos + 1, rfl, rfl, hseen, hlt, ?_⟩
      omega
  · exact ⟨k, h⟩

theorem Inv.step (h : Inv files s k) (hnodup : (files.map version).Nodup) (a : Action n) :
    ∃ k', Inv files (step files s a) k' := by
  cases a with
  | next i => exact h.next hnodup i
  | connect i =>
    refine ⟨k, ?_⟩
    simp only [Db.step]
    split
    · exact h.setPhase trivial
    · exact h
  | lock i =>
    refine ⟨k, ?_⟩
    simp only [Db.step]
    split
    · split
      · rename_i hgot
        exact h.move (keepsOthers_tryLock s.locks i _) (holds_of_tryLock hgot)
      · exact h
    · exact h
  | hasTable i =>
    refine ⟨k, ?_⟩
    simp only [Db.step]
    split
    · rename_i hph
      have hlock : CallAt files s.locks i k .locked := hph ▸ h.calls i
      exact h.setPhase ⟨hlock, h.db.found⟩
    · exact h
  | readVersions i =>
    refine ⟨k, ?_⟩
    simp only [Db.step]
    split
    · rename_i found hph
      obtain ⟨hlock, hfound⟩ : CallAt files s.locks i k (.checked found) := hph ▸ h.calls i
      refine h.setPhase ⟨hlock, k, 0, ?_, rfl, h.db.le, Nat.zero_le _, (Nat.max_zero k).symm⟩
      rw [h.db.versions]
      split
      · rfl
      · rename_i hnone
        have hk : k = 0 := by simpa [hfound] using hnone
        rw [hk]
        rfl
    · exact h
  | finish i =>
    refine ⟨k, ?_⟩
    simp only [Db.step]
    split
    · rename_i applied hph
      obtain ⟨-, seen, pos, -, htodo, hseen, hpos, rfl⟩ :
          CallAt files s.locks i k (.applying applied []) := hph ▸ h.calls i
      have hend : files.length ≤ pos := List.drop_eq_nil_iff.mp htodo.symm
      refine h.leave fun _ => ?_
      omega
    · exact h
  | fail i =>
    refine ⟨k, ?_⟩
    simp only [Db.step]
    split
    · exact h
    · exact h.leave fun hok => by cases hok

theorem inv_initial (files : List GoString) : Inv files (initial : State n) 0 where
  db := ⟨Nat.zero_le _, List.take_zero.symm, rfl⟩
  calls _ := trivial

theorem reach_inv (hnodup : (files.map version).Nodup) (as : List (Action n)) :
    ∃ k, Inv files (reach files as) k := by
  refine foldl_invariant (fun s => ∃ k, Inv files s k) ?_ ⟨0, inv_initial files⟩ as
  rintro s a ⟨k, h⟩
  exact h.step hnodup a

/-- The step with which a call fails changes nothing in the database. -/
theorem step_failed_db {a : Action n} (hrun : s.phases i ≠ .returned false)
    (hfail : (step files s a).phases i = .returned false) : (step files s a).db = s.db := by
  cases a with
  | next j =>
    revert hfail
    simp only [step]
    split
    · rename_i applied name rest hph
      split
      · exact fun _ => rfl
      · split
        · intro hfail
          -- The call has committed a file and is still in its loop.
          by_cases hij : i = j
          · subst hij
            change Function.update s.phases i (.applying applied rest) i = .returned false at hfail
            rw [Function.update_self] at hfail
            cases hfail
          · change Function.update s.phases j (.applying applied rest) i = .returned false at hfail
            rw [Function.update_of_ne hij] at hfail
            exact absurd hfail hrun
        · exact fun _ => rfl
    · exact fun _ => rfl
  | lock j =>
    simp only [step]
    split
    · split <;> rfl
    · rfl
  | connect j | hasTable j | readVersions j | finish j | fail j =>
    simp only [step]
    split <;> rfl

end Invariant

/-- Migrations apply once and in order.  In every state of every run the
applied files are a prefix of the sorted list, without repetition, and the
recorded versions are theirs.  The step with which a call fails leaves the
database as it is, and a call that returns without an error leaves all files
applied. -/
theorem migrations_once_in_order (d : Dir) {n : Nat} (as : List (Action n)) :
    (d.files.Pairwise (· ≤ ·) ∧ (reach d.files as).db.applied <+: d.files) ∧
    (reach d.files as).db.applied.Nodup ∧
    (reach d.files as).db.versions = (reach d.files as).db.applied.map version ∧
    (∀ i a, (reach d.files as).phases i ≠ .returned false →
      (reach d.files (as ++ [a])).phases i = .returned false →
        (reach d.files (as ++ [a])).db = (reach d.files as).db) ∧
    ∀ i, (reach d.files as).phases i = .returned true →
      (reach d.files as).db.applied = d.files := by
  obtain ⟨k, h⟩ := reach_inv d.nodup_versions as
  have hprefix : (reach d.files as).db.applied <+: d.files := by
    rw [h.db.applied]
    exact List.take_prefix k d.files
  refine ⟨⟨d.sorted_files, hprefix⟩, d.nodup_files.sublist hprefix.sublist, ?_, ?_, ?_⟩
  · rw [h.db.versions, h.db.applied]
  · intro i a hrun hfail
    have hsplit : reach d.files (as ++ [a]) = step d.files (reach d.files as) a := List.foldl_append
    rw [hsplit] at hfail ⊢
    exact step_failed_db hrun hfail
  · intro i hret
    have hall : CallAt d.files (reach d.files as).locks i k (.returned true) := hret ▸ h.calls i
    rw [h.db.applied, show k = d.files.length from hall, List.take_length]

/-- The first call crashes behind the first file, and the second one applies
the rest. -/
example :
    let files := [goString "1.up.sql", goString "2.up.sql"]
    let s := reach files
      ([.connect 0, .connect 1, .lock 0, .lock 1, .hasTable 0, .readVersions 0, .next 0, .fail 0,
        .lock 1, .hasTable 1, .readVersions 1, .next 1, .next 1, .finish 1] : List (Action 2))
    s.phases 1 = .returned true ∧ s.db.applied = files ∧
      s.db.versions = [goString "1", goString "2"] := by
  decide

end ImgSync.Db
