import Mathlib.Data.List.TakeWhile
import ImgSync.Ftp.Publish
import ImgSync.Lib.Walk

/-!
# The files that an FTP URL names

`Source.Open` (`internal/sources/ftp/source.go`) sends the path of the URL as it
is.  `Transport.Send` (`internal/transports/ftp/transport.go`) sends it without
its first slash, except in MKD, which gets the directory with the slash.

The server resolves a path that begins with a slash from its root and any other
one from the working directory of the session.  So the two packages name one
file when the working directory is the root, and in few other cases:
`one_url_one_file` has them all.

The texts of the errors that refuse a URL are not modelled.
-/

namespace ImgSync.Ftp

open ImgSync.Lib ImgSync.Queue

/-- What `url.Parse` answers.  A path behind an authority is empty or begins
with a slash. -/
structure Url where
  scheme : GoString
  host : GoString
  path : GoString
  rooted : host ≠ [] → path = [] ∨ path.head? = some 47

/-- `Source.Open` goes on to `Acquire`; `none` is an error of `url.Parse`. -/
def sourceAccepts : Option Url → Bool
  | none => false
  | some u =>
    if u.scheme ≠ goString "ftp" then false
    else if u.host = [] then false
    else if u.path = [] then false
    else true

/-- `Transport.Send` goes on to `Acquire`. -/
def transportAccepts : Option Url → Bool
  | none => false
  | some u => !(u.scheme != goString "ftp" || u.host == [] || u.path == [])

/-! ## Paths -/

/-- A component of a path. -/
def part (name : GoString) : PathPart GoString :=
  if name = [] ∨ name = goString "." then .here
  else if name = goString ".." then .up
  else .into name

/-- The components between the slashes. -/
def parts (p : GoString) : List (PathPart GoString) := (p.splitOn 47).map part

/-- The two results of `path.Split`: up to the last slash, and behind it. -/
def dirText (p : GoString) : GoString := (p.reverse.dropWhile (· != 47)).reverse
def baseText (p : GoString) : GoString := (p.reverse.takeWhile (· != 47)).reverse

/-- A step of `path.Clean` in a path without a leading slash, where a `..` that
has nothing to remove is kept. -/
def enterRelative (out : List GoString) : PathPart GoString → List GoString
  | .here => out
  | .up =>
    if out = [] ∨ out.getLast? = some (goString "..") then out ++ [goString ".."] else out.dropLast
  | .into name => out ++ [name]

/-- `path.Clean`. -/
def pathClean (p : GoString) : GoString :=
  if p.head? = some 47 then 47 :: [47].intercalate (walk [] (parts p))
  else
    match (parts p).foldl enterRelative [] with
    | [] => goString "."
    | out => [47].intercalate out

/-- `path.Dir`. -/
def pathDir (p : GoString) : GoString := pathClean (dirText p)

/-! ## Commands -/

inductive Verb where
  | size
  | retr
  | mkd
  | stor
  | rnfr
  | rnto
  | dele
  deriving DecidableEq

/-- The commands of `Source.Open`. -/
def openCommands (path : GoString) : List (Verb × GoString) := [(.size, path), (.retr, path)]

/-- The directory that `Send` passes to `MakeDir`, if any. -/
def makeDir (finalPath : GoString) : Option GoString :=
  let dir := pathDir finalPath
  if dir ≠ goString "/" ∧ dir ≠ goString "." ∧ dir ≠ [] then some dir else none

/-- How the commands of `Send` end. -/
inductive SendEnd where
  | storFails
  | rnfrFails
  | rntoFails
  | published

/-- The commands of `Transport.Send`.  `Rename` is RNFR and RNTO. -/
def sendCommands (finalPath : GoString) (e : SendEnd) : List (Verb × GoString) :=
  let tmp := trimSlash (tmpPath finalPath)
  (makeDir finalPath).toList.map (fun dir => (.mkd, dir)) ++ (.stor, tmp) ::
    match e with
    | .storFails => [(.dele, tmp)]
    | .rnfrFails => [(.rnfr, tmp), (.dele, tmp)]
    | .rntoFails => [(.rnfr, tmp), (.rnto, trimSlash finalPath), (.dele, tmp)]
    | .published => [(.rnfr, tmp), (.rnto, trimSlash finalPath)]

/-- The location of a path on the server, in a session whose working directory
is `cwd`. -/
def resolve (cwd : List GoString) (p : GoString) : List GoString :=
  walk (if p.head? = some 47 then [] else cwd) (parts p)

/-- The locations that the commands with the verb refer to. -/
def located (cwd : List GoString) (cmds : List (Verb × GoString)) (verb : Verb) :
    List (List GoString) :=
  (cmds.filter fun cmd => cmd.1 = verb).map fun cmd => resolve cwd cmd.2

/-- Without its first slash the path is still absolute, or it climbs up to the
root of the server.  The root as working directory is the common case. -/
def Reaches (cwd : List GoString) (p : GoString) : Prop :=
  (trimSlash p).head? = some 47 ∨ cwd.length ≤ climb [] (parts (trimSlash p))

/-- The path ends in the name of a file. -/
def NamesFile (p : GoString) : Prop := part (baseText p) = .into (baseText p)

/-! ## The components of a path -/

theorem parts_nil : parts [] = [.here] := rfl

/-- A slash ends a component. -/
theorem parts_append_slash (p q : GoString) : parts (p ++ 47 :: q) = parts p ++ parts q := by
  unfold parts List.splitOn
  rw [List.splitOnP_append_cons p q (by rfl), List.map_append]

theorem parts_cons_slash (p : GoString) : parts (47 :: p) = .here :: parts p :=
  parts_append_slash [] p

theorem parts_of_no_slash {p : GoString} (h : 47 ∉ p) : parts p = [part p] := by
  unfold parts List.splitOn
  rw [List.splitOnP_eq_singleton]
  · rfl
  · intro b hb
    exact beq_false_of_ne fun heq => h (heq ▸ hb)

theorem no_slash_baseText (p : GoString) : 47 ∉ baseText p := by
  intro h
  have hmem := List.mem_reverse.mp h
  simpa using List.mem_takeWhile_imp hmem

/-- `path.Split` cuts behind the last slash. -/
theorem split_cases (p : GoString) :
    dirText p = [] ∧ p = baseText p ∨ ∃ d, dirText p = d ++ [47] ∧ p = d ++ 47 :: baseText p := by
  have happ : p = dirText p ++ baseText p := by
    unfold dirText baseText
    rw [← List.reverse_append, List.takeWhile_append_dropWhile, List.reverse_reverse]
  cases hdrop : p.reverse.dropWhile (· != 47) with
  | nil =>
    have hdir : dirText p = [] := by
      unfold dirText
      rw [hdrop]
      rfl
    rw [hdir] at happ
    exact Or.inl ⟨hdir, happ⟩
  | cons b rest =>
    have hb : b = 47 := by
      have hhead := List.head?_dropWhile_not (· != 47) p.reverse
      rw [hdrop] at hhead
      simpa using hhead
    have hdir : dirText p = rest.reverse ++ [47] := by
      unfold dirText
      rw [hdrop, hb, List.reverse_cons]
    refine Or.inr ⟨rest.reverse, hdir, ?_⟩
    rw [hdir, List.append_assoc] at happ
    exact happ

/-- The last component is walked after the directory. -/
theorem walk_parts (d : List GoString) (p : GoString) :
    walk d (parts p) = enter (walk d (parts (dirText p))) (part (baseText p)) := by
  rcases split_cases p with ⟨hdir, hp⟩ | ⟨a, hdir, hp⟩
  · have hone := parts_of_no_slash (no_slash_baseText p)
    rw [← hp] at hone
    rw [hdir, hone, ← hp]
    rfl
  · have hbase := parts_of_no_slash (no_slash_baseText p)
    have hparts : parts p = parts a ++ [part (baseText p)] := by
      rw [← hbase, ← parts_append_slash, ← hp]
    rw [hparts, hdir, parts_append_slash, parts_nil]
    unfold walk
    rw [List.foldl_append, List.foldl_append]
    rfl

/-- A suffix without a slash only makes the last component longer. -/
theorem split_append {suffix : GoString} (h : 47 ∉ suffix) (p : GoString) :
    dirText (p ++ suffix) = dirText p ∧ baseText (p ++ suffix) = baseText p ++ suffix := by
  have hall : ∀ b ∈ suffix.reverse, (b != 47) = true := by
    intro b hb
    exact bne_iff_ne.mpr fun heq => h (heq ▸ List.mem_reverse.mp hb)
  unfold dirText baseText
  rw [List.reverse_append, List.dropWhile_append_of_pos hall, List.takeWhile_append_of_pos hall,
    List.reverse_append, List.reverse_reverse]
  exact ⟨rfl, rfl⟩

theorem dirText_cons_slash (p : GoString) : dirText (47 :: p) = 47 :: dirText p := by
  unfold dirText
  rw [List.reverse_cons, List.dropWhile_append]
  split
  · rename_i hempty
    rw [List.isEmpty_iff.mp hempty]
    rfl
  · rw [List.reverse_append]
    rfl

theorem baseText_cons_slash (p : GoString) : baseText (47 :: p) = baseText p := by
  unfold baseText
  rw [List.reverse_cons, List.takeWhile_append]
  split
  · rename_i hall
    rw [List.takeWhile_cons_of_neg (by simp), List.append_nil,
      (List.takeWhile_prefix _).eq_of_length hall]
  · rfl

theorem no_slash_of_mem_splitOn {p name : GoString} (h : name ∈ p.splitOn 47) : 47 ∉ name := by
  induction p generalizing name with
  | nil =>
    rw [show ([] : GoString).splitOn 47 = [[]] from rfl, List.mem_singleton] at h
    rw [h]
    exact List.not_mem_nil
  | cons b p ih =>
    unfold List.splitOn at h ih
    rw [List.splitOnP_cons_eq_if_modifyHead] at h
    split at h
    · rcases List.mem_cons.mp h with rfl | h
      · exact List.not_mem_nil
      · exact ih h
    · rename_i hb
      -- The byte joins the first component.
      cases hsplit : List.splitOnP (· == 47) p with
      | nil => exact absurd hsplit (List.splitOnP_ne_nil _ _)
      | cons first rest =>
        rw [hsplit] at h ih
        rcases List.mem_cons.mp h with rfl | h
        · rw [List.mem_cons, not_or]
          exact ⟨fun heq => hb (beq_iff_eq.mpr heq.symm), ih List.mem_cons_self⟩
        · exact ih (List.mem_cons_of_mem _ h)

theorem part_eq_into {name x : GoString} (h : part name = .into x) : name = x := by
  unfold part at h
  split at h
  · cases h
  · split at h
    · cases h
    · exact PathPart.into.inj h

theorem part_of_long {name : GoString} (h : 3 ≤ name.length) : part name = .into name := by
  have hne : ∀ s : GoString, s.length < 3 → name ≠ s := by
    rintro s hs rfl
    omega
  unfold part
  rw [if_neg (not_or.mpr ⟨hne _ (by decide), hne _ (by decide)⟩), if_neg (hne _ (by decide))]

/-- The names of a location that a path leads to. -/
theorem name_of_mem_walk {p x : GoString} (h : x ∈ walk [] (parts p)) :
    part x = .into x ∧ 47 ∉ x := by
  rcases mem_walk h with hnil | hmem
  · cases hnil
  · obtain ⟨name, hname, hpart⟩ := List.mem_map.mp hmem
    obtain rfl := part_eq_into hpart
    exact ⟨hpart, no_slash_of_mem_splitOn hname⟩

/-- `path.Clean` of an absolute path keeps the location. -/
theorem resolve_pathClean (cwd : List GoString) {p : GoString} (h : p.head? = some 47) :
    resolve cwd (pathClean p) = walk [] (parts p) := by
  have hnames : ∀ x ∈ walk [] (parts p), part x = .into x ∧ 47 ∉ x := fun x => name_of_mem_walk
  unfold pathClean
  rw [if_pos h]
  generalize walk [] (parts p) = names at hnames ⊢
  show walk [] (parts (47 :: [47].intercalate names)) = names
  rw [parts_cons_slash]
  show walk [] (parts ([47].intercalate names)) = names
  by_cases hnil : names = []
  · rw [hnil]
    rfl
  · have hparts : parts ([47].intercalate names) = names.map .into := by
      unfold parts
      rw [List.splitOn_intercalate 47 (fun x hx => (hnames x hx).2) hnil]
      exact List.map_congr_left fun x hx => (hnames x hx).1
    rw [hparts, walk_map_into, List.nil_append]

/-! ## The commands of one URL -/

section Url

variable {p : GoString} {cwd : List GoString}

/-- An accepted path, without its first slash. -/
theorem path_eq_cons {u : Url} (hsrc : sourceAccepts (some u) = true) :
    u.path = 47 :: trimSlash u.path := by
  have hhost : u.host ≠ [] := by
    intro hhost
    simp [sourceAccepts, hhost] at hsrc
  have hpath : u.path ≠ [] := by
    intro hpath
    simp [sourceAccepts, hpath] at hsrc
  have hhead := (u.rooted hhost).resolve_left hpath
  obtain ⟨rest, hrest⟩ := List.head?_eq_some_iff.mp hhead
  rw [hrest]
  rfl

/-- The location of the absolute path. -/
theorem resolve_rooted (cwd : List GoString) (rest : GoString) :
    resolve cwd (47 :: rest) = walk [] (parts rest) := by
  show walk [] (parts (47 :: rest)) = _
  rw [parts_cons_slash]
  rfl

/-- The relative path reaches the same location just in the cases of `Reaches`. -/
theorem resolve_trim (cwd : List GoString) (rest : GoString) :
    resolve cwd rest = walk [] (parts rest) ↔
      rest.head? = some 47 ∨ cwd.length ≤ climb [] (parts rest) := by
  unfold resolve
  by_cases hhead : rest.head? = some 47
  · simp [hhead]
  · rw [if_neg hhead, walk_eq_walk_nil]
    exact ⟨Or.inr, fun h => h.resolve_left hhead⟩

theorem no_slash_tmp : 47 ∉ goString ".imgsync.tmp" := by decide

/-- The temporary name is one in the same directory. -/
theorem resolve_tmp (cwd : List GoString) {rest : GoString} (hne : rest ≠ []) :
    ∃ tmp, resolve cwd (tmpPath rest) =
      walk (if rest.head? = some 47 then [] else cwd) (parts (dirText rest)) ++ [tmp] := by
  obtain ⟨hdir, hbase⟩ := split_append no_slash_tmp rest
  refine ⟨baseText rest ++ goString ".imgsync.tmp", ?_⟩
  have hhead : (tmpPath rest).head? = rest.head? := by
    cases rest with
    | nil => exact absurd rfl hne
    | cons b rest => rfl
  have hpart : part (baseText rest ++ goString ".imgsync.tmp") =
      .into (baseText rest ++ goString ".imgsync.tmp") := by
    apply part_of_long
    rw [List.length_append, show (goString ".imgsync.tmp").length = 12 from by decide]
    omega
  unfold resolve
  rw [hhead, walk_parts]
  unfold tmpPath
  rw [hdir, hbase, hpart]
  rfl

/-- With the name of a file at its end, a path leads into its directory and to
that name there. -/
theorem resolve_named (cwd : List GoString) {rest : GoString} (hname : NamesFile rest) :
    resolve cwd rest =
      walk (if rest.head? = some 47 then [] else cwd) (parts (dirText rest)) ++
        [baseText rest] := by
  unfold resolve
  rw [walk_parts, hname]
  rfl

theorem namesFile_cons_slash {rest : GoString} (hname : NamesFile (47 :: rest)) :
    NamesFile rest := by
  unfold NamesFile at hname ⊢
  rwa [baseText_cons_slash] at hname

/-- The temporary file is in the directory of the file. -/
theorem dropLast_resolve_tmp (cwd : List GoString) {rest : GoString} (hname : NamesFile rest) :
    (resolve cwd (tmpPath rest)).dropLast = (resolve cwd rest).dropLast := by
  have hne : rest ≠ [] := by
    intro hnil
    rw [hnil] at hname
    cases hname
  obtain ⟨name, htmp⟩ := resolve_tmp cwd hne
  rw [htmp, resolve_named cwd hname, List.dropLast_concat, List.dropLast_concat]

/-- The directory of the absolute path is that of the relative one just when both
paths name one file. -/
theorem dirText_eq_dropLast (cwd : List GoString) {rest : GoString} (hname : NamesFile rest) :
    walk [] (parts (dirText rest)) = (resolve cwd rest).dropLast ↔
      resolve cwd rest = walk [] (parts rest) := by
  rw [resolve_named cwd hname, List.dropLast_concat, walk_parts [] rest, hname]
  show _ ↔ _ ++ _ = _ ++ [_]
  rw [List.append_left_inj]
  exact eq_comm

/-- The argument of MKD is the directory of the absolute path. -/
theorem resolve_pathDir (cwd : List GoString) (rest : GoString) :
    resolve cwd (pathDir (47 :: rest)) = walk [] (parts (dirText rest)) := by
  unfold pathDir
  rw [dirText_cons_slash, resolve_pathClean cwd rfl, parts_cons_slash]
  rfl

theorem mem_located {cmds : List (Verb × GoString)} {verb : Verb} {loc : List GoString} :
    loc ∈ located cwd cmds verb ↔ ∃ q, (verb, q) ∈ cmds ∧ resolve cwd q = loc := by
  unfold located
  rw [List.mem_map]
  constructor
  · rintro ⟨⟨v, q⟩, hmem, rfl⟩
    obtain ⟨hcmd, hverb⟩ := List.mem_filter.mp hmem
    obtain rfl : v = verb := of_decide_eq_true hverb
    exact ⟨q, hcmd, rfl⟩
  · rintro ⟨q, hcmd, rfl⟩
    exact ⟨(verb, q), List.mem_filter.mpr ⟨hcmd, decide_eq_true rfl⟩, rfl⟩

/-- RETR gets the path of the URL. -/
theorem mem_open_retr {q : GoString} : (.retr, q) ∈ openCommands p ↔ q = p := by
  simp [openCommands]

/-- RNTO gets the path without its slash. -/
theorem mem_send_rnto {q : GoString} {e : SendEnd} (h : (.rnto, q) ∈ sendCommands p e) :
    q = trimSlash p := by
  cases e <;> simp [sendCommands] at h <;> exact h

theorem mem_send_mkd {q : GoString} {e : SendEnd} (h : (.mkd, q) ∈ sendCommands p e) :
    q = pathDir p := by
  have hdir : makeDir p = some q := by
    cases e <;> simpa [sendCommands] using h
  unfold makeDir at hdir
  dsimp only at hdir
  split at hdir
  · exact (Option.some.inj hdir).symm
  · cases hdir

/-- STOR, RNFR and DELE get the temporary name. -/
theorem mem_send_tmp {q : GoString} {e : SendEnd} {verb : Verb}
    (hverb : verb ∈ [Verb.stor, .rnfr, .dele]) (h : (verb, q) ∈ sendCommands p e) :
    q = trimSlash (tmpPath p) := by
  simp only [List.mem_cons, List.not_mem_nil, or_false] at hverb
  rcases hverb with rfl | rfl | rfl <;> cases e <;> simp [sendCommands] at h <;> exact h

end Url

/-- For every URL that both accept and every working directory.  The file that
`Open` reads is the one at the absolute path of the URL.  `Send` publishes that
file just when its path `Reaches` the root.  Where the path ends in the name of
a file, the temporary file is in the directory of the published one, and the
directory of MKD is that directory just in the same case. -/
theorem one_url_one_file (u : Url)
    (hu : sourceAccepts (some u) = true ∧ transportAccepts (some u) = true)
    (cwd : List GoString) :
    (∀ file ∈ located cwd (openCommands u.path) .retr, file = walk [] (parts u.path)) ∧
    ((∀ e, ∀ file ∈ located cwd (sendCommands u.path e) .rnto,
        file ∈ located cwd (openCommands u.path) .retr) ↔ Reaches cwd u.path) ∧
    (NamesFile u.path → ∀ e, ∀ file ∈ located cwd (sendCommands u.path e) .rnto,
      (∀ verb ∈ [Verb.stor, .rnfr, .dele], ∀ tmp ∈ located cwd (sendCommands u.path e) verb,
        tmp.dropLast = file.dropLast) ∧
      ∀ dir ∈ located cwd (sendCommands u.path e) .mkd,
        dir = file.dropLast ↔ Reaches cwd u.path) := by
  have hcons := path_eq_cons hu.1
  have hreaches : Reaches cwd u.path ↔
      resolve cwd (trimSlash u.path) = walk [] (parts (trimSlash u.path)) :=
    (resolve_trim cwd _).symm
  have hread : resolve cwd u.path = walk [] (parts (trimSlash u.path)) := by
    rw [hcons]
    exact resolve_rooted cwd _
  rw [hreaches]
  refine ⟨?_, ⟨?_, ?_⟩, ?_⟩
  · intro file hfile
    obtain ⟨q, hq, rfl⟩ := mem_located.mp hfile
    rw [mem_open_retr.mp hq, hread, hcons, parts_cons_slash]
    rfl
  · intro hall
    have hpub : resolve cwd (trimSlash u.path) ∈
        located cwd (sendCommands u.path .published) .rnto :=
      mem_located.mpr ⟨_, by simp [sendCommands], rfl⟩
    obtain ⟨q, hq, heq⟩ := mem_located.mp (hall .published _ hpub)
    rw [← heq, mem_open_retr.mp hq, hread]
  · intro heq e file hfile
    obtain ⟨q, hq, rfl⟩ := mem_located.mp hfile
    refine mem_located.mpr ⟨u.path, mem_open_retr.mpr rfl, ?_⟩
    rw [mem_send_rnto hq, hread, heq]
  · intro hfileName e file hfile
    obtain ⟨q, hq, rfl⟩ := mem_located.mp hfile
    have hname : NamesFile (trimSlash u.path) := namesFile_cons_slash (hcons ▸ hfileName)
    rw [mem_send_rnto hq]
    refine ⟨?_, ?_⟩
    · intro verb hverb tmp htmp
      obtain ⟨q', hq', rfl⟩ := mem_located.mp htmp
      have htrim : trimSlash (tmpPath u.path) = tmpPath (trimSlash u.path) := by
        rw [hcons]
        rfl
      rw [mem_send_tmp hverb hq', htrim]
      exact dropLast_resolve_tmp cwd hname
    · intro dir hdir
      obtain ⟨q', hq', rfl⟩ := mem_located.mp hdir
      have hmkd : resolve cwd q' = walk [] (parts (dirText (trimSlash u.path))) := by
        rw [mem_send_mkd hq', hcons]
        exact resolve_pathDir cwd _
      rw [hmkd]
      exact dirText_eq_dropLast cwd hname

/-- `ftp://h/a/b.png`. -/
def pngUrl : Url where
  scheme := goString "ftp"
  host := goString "h"
  path := goString "/a/b.png"
  rooted := fun _ => Or.inr rfl

/-- With the root as working directory all commands name one file. -/
theorem one_url_one_file_root :
    located [] (sendCommands pngUrl.path .published) .rnto = [[goString "a", goString "b.png"]] ∧
    ∀ file ∈ located [] (sendCommands pngUrl.path .published) .rnto,
      file ∈ located [] (openCommands pngUrl.path) .retr := by
  refine ⟨by decide, ?_⟩
  exact (one_url_one_file pngUrl (by decide) []).2.1.mpr (Or.inr (Nat.zero_le _)) .published

/-- A login whose working directory is `/home/u`.  `Send` publishes
`/home/u/a/b.png`, `Open` reads `/a/b.png`, and MKD makes `/a`. -/
theorem one_url_two_files :
    sourceAccepts (some pngUrl) = true ∧ transportAccepts (some pngUrl) = true ∧
    located [goString "home", goString "u"] (sendCommands pngUrl.path .published) .rnto =
      [[goString "home", goString "u", goString "a", goString "b.png"]] ∧
    located [goString "home", goString "u"] (openCommands pngUrl.path) .retr =
      [[goString "a", goString "b.png"]] ∧
    located [goString "home", goString "u"] (sendCommands pngUrl.path .published) .mkd =
      [[goString "a"]] := by
  decide

end ImgSync.Ftp
