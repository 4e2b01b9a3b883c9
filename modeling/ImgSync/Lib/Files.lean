import Mathlib.Tactic

/-!
# A file system of names and inodes

A name refers to an inode and an inode holds bytes.  An open file is an inode
and an offset, so it keeps its meaning when the name is renamed over or
unlinked, and two writers that opened one name write into one inode.

`Files.Wf` says that there are no hard links and that fresh inodes are
unused.  Every operation keeps it.  The `content_*` lemmas say what an
operation changes, and `writeAt_take` that writing a list chunk by chunk
builds the list.  `store` writes a whole stream into a file; `Stored` is all
that its users need to know.

A file that was created exclusively has one name and one writer until it is
renamed or removed.  `Holds` says so without an assumption on the other files,
which may be hard links of each other, and every operation on another file
keeps it.
-/

namespace ImgSync.Lib

/-- Bytes written at an offset.  A gap before the offset reads as zeros. -/
def writeAt (d : List UInt8) (off : Nat) (chunk : List UInt8) : List UInt8 :=
  d.take off ++ List.replicate (off - d.length) 0 ++ chunk ++ d.drop (off + chunk.length)

theorem writeAt_take {b : List UInt8} {off : Nat} (h : off ≤ b.length) (k : Nat) :
    writeAt (b.take off) off ((b.drop off).take k) = b.take (off + k) := by
  have hlen : (b.take off).length = off := List.length_take_of_le h
  have hpast : (b.take off).drop (off + ((b.drop off).take k).length) = [] :=
    List.drop_eq_nil_of_le (by omega)
  unfold writeAt
  rw [hpast, hlen, Nat.sub_self, List.replicate_zero, List.append_nil, List.append_nil,
    List.take_take, Nat.min_self, List.take_add]

/-- Writing at the end appends. -/
theorem writeAt_length (d chunk : List UInt8) : writeAt d d.length chunk = d ++ chunk := by
  have hpast : d.drop (d.length + chunk.length) = [] := List.drop_eq_nil_of_le (by omega)
  unfold writeAt
  rw [hpast, Nat.sub_self, List.replicate_zero, List.append_nil, List.append_nil, List.take_length]

structure Files (N : Type) where
  names : N → Option Nat
  data : Nat → List UInt8
  next : Nat

namespace Files

variable {N : Type} {f : Files N} {n m : N} {i : Nat}

/-- The bytes that a reader of the name sees. -/
def content (f : Files N) (n : N) : Option (List UInt8) := (f.names n).map f.data

/-- Write to an open file. -/
def write (f : Files N) (i off : Nat) (chunk : List UInt8) : Files N :=
  { f with data := Function.update f.data i (writeAt (f.data i) off chunk) }

structure Wf (f : Files N) : Prop where
  fresh : ∀ n i, f.names n = some i → i < f.next
  unique : ∀ n m i, f.names n = some i → f.names m = some i → n = m

theorem Wf.write (h : f.Wf) (i off : Nat) (chunk : List UInt8) : (f.write i off chunk).Wf :=
  ⟨h.fresh, h.unique⟩

theorem content_eq (hi : f.names n = some i) : f.content n = some (f.data i) := by
  rw [content, hi, Option.map_some]

/-- Writing to an inode leaves the files under other inodes alone. -/
theorem content_write_of_ne (hne : f.names n ≠ some i) (off : Nat) (chunk : List UInt8) :
    (f.write i off chunk).content n = f.content n := by
  show (f.names n).map (Function.update f.data i _) = (f.names n).map f.data
  cases hn : f.names n with
  | none => rfl
  | some j =>
    have hji : j ≠ i := fun heq => hne (by rw [hn, heq])
    rw [Option.map_some, Option.map_some, Function.update_of_ne hji]

variable [DecidableEq N]

/-- Open for writing: truncate the file, or create it. -/
def openTrunc (f : Files N) (n : N) : Files N × Nat :=
  match f.names n with
  | some i => ({ f with data := Function.update f.data i [] }, i)
  | none =>
    ({ names := Function.update f.names n (some f.next)
       data := Function.update f.data f.next []
       next := f.next + 1 }, f.next)

/-- Rename, replacing what the new name referred to.  It fails when the old
name does not exist. -/
def rename (f : Files N) (old new : N) : Option (Files N) :=
  match f.names old with
  | some i =>
    some { f with names := Function.update (Function.update f.names old none) new (some i) }
  | none => none

def unlink (f : Files N) (n : N) : Files N := { f with names := Function.update f.names n none }

theorem Wf.unlink (h : f.Wf) (n : N) : (f.unlink n).Wf := by
  have hold : ∀ m i, (f.unlink n).names m = some i → f.names m = some i := by
    intro m i hm
    change Function.update f.names n none m = some i at hm
    by_cases heq : m = n
    · subst heq
      rw [Function.update_self] at hm
      cases hm
    · rwa [Function.update_of_ne heq] at hm
  exact ⟨fun m i hm => h.fresh m i (hold m i hm),
    fun m m' i hm hm' => h.unique m m' i (hold m i hm) (hold m' i hm')⟩

theorem Wf.rename (h : f.Wf) {old new : N} {f' : Files N} (hr : f.rename old new = some f') :
    f'.Wf := by
  unfold Files.rename at hr
  split at hr
  · rename_i i hi
    obtain rfl := Option.some.inj hr
    -- After the rename, the new name is the only one for `i`.
    have hold : ∀ m j, Function.update (Function.update f.names old none) new (some i) m = some j →
        (m = new ∧ j = i) ∨ (m ≠ new ∧ m ≠ old ∧ f.names m = some j) := by
      intro m j hm
      by_cases hnew : m = new
      · subst hnew
        rw [Function.update_self] at hm
        exact Or.inl ⟨rfl, (Option.some.inj hm).symm⟩
      · rw [Function.update_of_ne hnew] at hm
        by_cases hne : m = old
        · subst hne
          rw [Function.update_self] at hm
          cases hm
        · rw [Function.update_of_ne hne] at hm
          exact Or.inr ⟨hnew, hne, hm⟩
    refine ⟨?_, ?_⟩
    · intro m j hm
      rcases hold m j hm with ⟨_, rfl⟩ | ⟨_, _, hm⟩
      · exact h.fresh old j hi
      · exact h.fresh m j hm
    · intro m m' j hm hm'
      rcases hold m j hm with ⟨rfl, rfl⟩ | ⟨_, hne, hm0⟩
      · rcases hold m' j hm' with ⟨rfl, _⟩ | ⟨_, hne', hm'⟩
        · rfl
        · exact absurd (h.unique m' old j hm' hi) hne'
      · rcases hold m' j hm' with ⟨_, rfl⟩ | ⟨_, _, hm'⟩
        · exact absurd (h.unique m old j hm0 hi) hne
        · exact h.unique m m' j hm0 hm'
  · cases hr

theorem Wf.openTrunc (h : f.Wf) (n : N) : (f.openTrunc n).1.Wf := by
  unfold Files.openTrunc
  split
  · exact ⟨h.fresh, h.unique⟩
  · have hold : ∀ m j, Function.update f.names n (some f.next) m = some j →
        (m = n ∧ j = f.next) ∨ (f.names m = some j ∧ j < f.next) := by
      intro m j hm
      by_cases heq : m = n
      · subst heq
        rw [Function.update_self] at hm
        exact Or.inl ⟨rfl, (Option.some.inj hm).symm⟩
      · rw [Function.update_of_ne heq] at hm
        exact Or.inr ⟨hm, h.fresh m j hm⟩
    refine ⟨?_, ?_⟩
    · intro m j hm
      rcases hold m j hm with ⟨_, rfl⟩ | ⟨_, hlt⟩
      · exact Nat.lt_succ_self _
      · exact Nat.lt_succ_of_lt hlt
    · intro m m' j hm hm'
      rcases hold m j hm with ⟨rfl, rfl⟩ | ⟨hm, hlt⟩
      · rcases hold m' _ hm' with ⟨rfl, _⟩ | ⟨_, hlt⟩
        · rfl
        · exact absurd hlt (lt_irrefl _)
      · rcases hold m' j hm' with ⟨rfl, rfl⟩ | ⟨hm', _⟩
        · exact absurd hlt (lt_irrefl _)
        · exact h.unique m m' j hm hm'

/-! ## What an operation changes -/

/-- After opening, the name refers to the open inode, which is empty. -/
theorem openTrunc_spec (f : Files N) (n : N) :
    (f.openTrunc n).1.names n = some (f.openTrunc n).2 ∧
      (f.openTrunc n).1.data (f.openTrunc n).2 = [] := by
  unfold openTrunc
  split
  · rename_i i hi
    exact ⟨hi, Function.update_self _ _ _⟩
  · exact ⟨Function.update_self _ _ _, Function.update_self _ _ _⟩

theorem openTrunc_names_of_ne (f : Files N) (hne : m ≠ n) :
    (f.openTrunc n).1.names m = f.names m := by
  unfold openTrunc
  split
  · rfl
  · exact Function.update_of_ne hne _ _

theorem content_openTrunc_of_ne (h : f.Wf) (hne : m ≠ n) :
    (f.openTrunc n).1.content m = f.content m := by
  have hnames := openTrunc_names_of_ne f hne
  unfold content
  rw [hnames]
  cases hm : f.names m with
  | none => rfl
  | some j =>
    rw [Option.map_some, Option.map_some]
    congr 1
    unfold openTrunc
    split
    · rename_i i hi
      have hji : j ≠ i := by
        intro heq
        subst heq
        exact hne (h.unique m n j hm hi)
      exact Function.update_of_ne hji _ _
    · exact Function.update_of_ne (h.fresh m j hm).ne _ _

theorem content_unlink_of_ne (hne : m ≠ n) : (f.unlink n).content m = f.content m := by
  show Option.map f.data (Function.update f.names n none m) = _
  rw [Function.update_of_ne hne]
  rfl

/-- The new name shows what the old name showed. -/
theorem content_rename {old new : N} {f' : Files N} (hr : f.rename old new = some f') :
    f'.content new = f.content old := by
  unfold rename at hr
  split at hr
  · rename_i i hi
    obtain rfl := Option.some.inj hr
    rw [content_eq hi]
    refine content_eq ?_
    show Function.update (Function.update f.names old none) new (some i) new = some i
    rw [Function.update_self]
  · cases hr

/-! ## Storing a stream -/

omit [DecidableEq N] in
/-- The copy loop: every chunk is written behind the one before. -/
def copyTo (f : Files N) (i off : Nat) : List (List UInt8) → Files N
  | [] => f
  | c :: cs => copyTo (f.write i off c) i (off + c.length) cs

omit [DecidableEq N] in
theorem copyTo_spec (cs : List (List UInt8)) {d : List UInt8} (hd : f.data i = d) :
    (f.copyTo i d.length cs).data i = d ++ cs.flatten ∧
      (f.copyTo i d.length cs).names = f.names ∧ (f.copyTo i d.length cs).next = f.next ∧
      ∀ j, j ≠ i → (f.copyTo i d.length cs).data j = f.data j := by
  induction cs generalizing f d with
  | nil => exact ⟨by simpa [copyTo] using hd, rfl, rfl, fun _ _ => rfl⟩
  | cons c cs ih =>
    have hwrite : (f.write i d.length c).data i = d ++ c := by
      show Function.update f.data i _ i = d ++ c
      rw [Function.update_self, hd, writeAt_length]
    obtain ⟨hdata, hnames, hnext, hother⟩ := ih hwrite
    rw [List.length_append] at hdata hnames hnext hother
    refine ⟨?_, hnames, hnext, ?_⟩
    · show (copyTo _ i _ cs).data i = d ++ (c ++ cs.flatten)
      rw [hdata, List.append_assoc]
    · intro j hj
      exact (hother j hj).trans (Function.update_of_ne hj _ _)

/-- Open a name for writing and copy the chunks into it.  The answer has the
inode of the open file. -/
def store (f : Files N) (n : N) (cs : List (List UInt8)) : Files N × Nat :=
  ((f.openTrunc n).1.copyTo (f.openTrunc n).2 0 cs, (f.openTrunc n).2)

theorem names_store (f : Files N) (n : N) (cs : List (List UInt8)) :
    (f.store n cs).1.names n = some (f.store n cs).2 := by
  obtain ⟨hname, hempty⟩ := openTrunc_spec f n
  show ((f.openTrunc n).1.copyTo (f.openTrunc n).2 ([] : List UInt8).length cs).names n = _
  rw [(copyTo_spec cs hempty).2.1]
  exact hname

theorem content_store (f : Files N) (n : N) (cs : List (List UInt8)) :
    (f.store n cs).1.content n = some cs.flatten := by
  rw [content_eq (names_store f n cs)]
  exact congrArg some (copyTo_spec cs (openTrunc_spec f n).2).1

/-- The file system `f'` differs from `f` in the file `n` only, which is the
inode `i` and holds `b`. -/
structure Stored (f f' : Files N) (n : N) (i : Nat) (b : List UInt8) : Prop where
  wf : f'.Wf
  name : f'.names n = some i
  content : f'.content n = some b
  names : ∀ m, m ≠ n → f'.names m = f.names m
  frame : ∀ m, m ≠ n → f'.content m = f.content m

theorem store_spec (h : f.Wf) (n : N) (cs : List (List UInt8)) :
    Stored f (f.store n cs).1 n (f.store n cs).2 cs.flatten := by
  obtain ⟨hname, hempty⟩ := openTrunc_spec f n
  obtain ⟨hdata, hnames, hnext, hother⟩ := copyTo_spec cs hempty
  have hwf := h.openTrunc n
  refine ⟨?_, names_store f n cs, content_store f n cs, ?_, ?_⟩
  · refine ⟨?_, ?_⟩
    · intro m j hm
      show j < ((f.openTrunc n).1.copyTo _ ([] : List UInt8).length cs).next
      rw [hnext]
      exact hwf.fresh m j (hnames ▸ hm)
    · intro m m' j hm hm'
      exact hwf.unique m m' j (hnames ▸ hm) (hnames ▸ hm')
  · intro m hm
    exact (congrFun hnames m).trans (openTrunc_names_of_ne f hm)
  · intro m hm
    rw [← content_openTrunc_of_ne h hm]
    show Option.map _ (((f.openTrunc n).1.copyTo _ ([] : List UInt8).length cs).names m) = _
    rw [hnames]
    show _ = Option.map _ ((f.openTrunc n).1.names m)
    cases hm' : (f.openTrunc n).1.names m with
    | none => rfl
    | some j =>
      have hji : j ≠ (f.openTrunc n).2 := by
        intro heq
        subst heq
        exact hm (hwf.unique m n _ hm' hname)
      exact congrArg some (hother j hji)

/-- Removing the stored file leaves the other names as they were. -/
theorem Stored.unlink {f' : Files N} {b : List UInt8} (h : Stored f f' n i b) (hm : m ≠ n) :
    (f'.unlink n).content m = f.content m ∧ (f'.unlink n).names m = f.names m :=
  ⟨(content_unlink_of_ne hm).trans (h.frame m hm),
    (Function.update_of_ne hm _ _).trans (h.names m hm)⟩

/-- Renaming the stored file shows it under the new name. -/
theorem Stored.rename {f' : Files N} {b : List UInt8} (h : Stored f f' n i b) (m : N) :
    ∃ f'', f'.rename n m = some f'' ∧ f''.names m = some i ∧ f''.content m = some b := by
  have hren : f'.rename n m =
      some { f' with names := Function.update (Function.update f'.names n none) m (some i) } := by
    unfold Files.rename
    rw [h.name]
  refine ⟨_, hren, ?_, ?_⟩
  · show Function.update (Function.update f'.names n none) m (some i) m = some i
    rw [Function.update_self]
  · rw [content_rename hren, h.content]

/-! ## Files of one owner -/

section Owner

variable {f' : Files N} {b : List UInt8} {k : Nat}

/-- No name refers to an inode that was not handed out. -/
def Fresh (f : Files N) : Prop := ∀ n i, f.names n = some i → i < f.next

/-- The name is the only one of the inode, which holds `b`. -/
structure Holds (f : Files N) (n : N) (i : Nat) (b : List UInt8) : Prop where
  name : f.names n = some i
  sole : ∀ m, f.names m = some i → m = n
  data : f.data i = b

/-- Create a file.  It fails when the name exists. -/
def createExcl (f : Files N) (n : N) : Option (Files N × Nat) :=
  match f.names n with
  | some _ => none
  | none =>
    some ({ names := Function.update f.names n (some f.next)
            data := Function.update f.data f.next []
            next := f.next + 1 }, f.next)

omit [DecidableEq N] in
theorem Holds.content (h : f.Holds n i b) : f.content n = some b := by
  rw [content_eq h.name, h.data]

omit [DecidableEq N] in
/-- Two owned files are different inodes. -/
theorem Holds.ino_ne (h : f.Holds n i b) {b' : List UInt8} (h' : f.Holds m k b') (hne : n ≠ m) :
    i ≠ k := by
  rintro rfl
  exact hne (h'.sole n h.name)

omit [DecidableEq N] in
/-- Changing the bytes of another inode. -/
theorem Holds.of_data (h : f.Holds n i b) (hnames : f'.names = f.names)
    (hdata : f'.data i = f.data i) : f'.Holds n i b where
  name := by rw [hnames, h.name]
  sole m hm := h.sole m (by rwa [hnames] at hm)
  data := hdata.trans h.data

theorem Fresh.createExcl (h : f.Fresh) (hc : f.createExcl n = some (f', i)) :
    f'.Fresh ∧ f'.Holds n i [] := by
  unfold Files.createExcl at hc
  split at hc
  · cases hc
  · obtain ⟨rfl, rfl⟩ := Prod.mk.inj (Option.some.inj hc)
    refine ⟨?_, Function.update_self _ _ _, ?_, Function.update_self _ _ _⟩
    · intro m j hm
      by_cases heq : m = n
      · subst heq
        change Function.update f.names m (some f.next) m = some j at hm
        rw [Function.update_self] at hm
        exact Option.some.inj hm ▸ Nat.lt_succ_self _
      · change Function.update f.names n (some f.next) m = some j at hm
        rw [Function.update_of_ne heq] at hm
        exact Nat.lt_succ_of_lt (h m j hm)
    · intro m hm
      by_contra hne
      change Function.update f.names n (some f.next) m = some f.next at hm
      rw [Function.update_of_ne hne] at hm
      exact lt_irrefl _ (h m _ hm)

theorem names_createExcl_of_ne (hc : f.createExcl n = some (f', i)) (hne : m ≠ n) :
    f'.names m = f.names m := by
  unfold createExcl at hc
  split at hc
  · cases hc
  · obtain ⟨rfl, rfl⟩ := Prod.mk.inj (Option.some.inj hc)
    exact Function.update_of_ne hne _ _

/-- Inodes that are in use keep their bytes. -/
theorem data_createExcl (hc : f.createExcl n = some (f', i)) (hk : k < f.next) :
    k ≠ i ∧ f'.data k = f.data k := by
  unfold createExcl at hc
  split at hc
  · cases hc
  · obtain ⟨rfl, rfl⟩ := Prod.mk.inj (Option.some.inj hc)
    exact ⟨hk.ne, Function.update_of_ne hk.ne _ _⟩

theorem content_createExcl_of_ne (h : f.Fresh) (hc : f.createExcl n = some (f', i)) (hne : m ≠ n) :
    f'.content m = f.content m := by
  show (f'.names m).map f'.data = (f.names m).map f.data
  rw [names_createExcl_of_ne hc hne]
  cases hm : f.names m with
  | none => rfl
  | some j => exact congrArg some (data_createExcl hc (h m j hm)).2

theorem Holds.createExcl (h : f.Holds m k b) (hfresh : f.Fresh)
    (hc : f.createExcl n = some (f', i)) (hne : m ≠ n) : f'.Holds m k b := by
  obtain ⟨hki, hdata⟩ := data_createExcl hc (hfresh m k h.name)
  refine ⟨(names_createExcl_of_ne hc hne).trans h.name, ?_, hdata.trans h.data⟩
  intro m' hm'
  by_cases heq : m' = n
  · subst heq
    rw [(hfresh.createExcl hc).2.name] at hm'
    exact absurd (Option.some.inj hm').symm hki
  · exact h.sole m' ((names_createExcl_of_ne hc heq).symm.trans hm')

theorem Holds.unlink (h : f.Holds m k b) (hne : m ≠ n) : (f.unlink n).Holds m k b := by
  refine ⟨(Function.update_of_ne hne _ _).trans h.name, ?_, h.data⟩
  intro m' hm'
  change Function.update f.names n none m' = some k at hm'
  by_cases heq : m' = n
  · subst heq
    rw [Function.update_self] at hm'
    cases hm'
  · rw [Function.update_of_ne heq] at hm'
    exact h.sole m' hm'

theorem Fresh.unlink (h : f.Fresh) (n : N) : (f.unlink n).Fresh := by
  intro m j hm
  change Function.update f.names n none m = some j at hm
  by_cases heq : m = n
  · subst heq
    rw [Function.update_self] at hm
    cases hm
  · rw [Function.update_of_ne heq] at hm
    exact h m j hm

/-- Renaming an owned file. -/
theorem Holds.rename_eq (h : f.Holds n i b) (new : N) : f.rename n new =
    some { f with names := Function.update (Function.update f.names n none) new (some i) } := by
  unfold Files.rename
  rw [h.name]

/-- The names after a rename. -/
theorem names_rename (h : f.Holds n i b) {new : N} (hr : f.rename n new = some f') {m' : N}
    (hm' : f'.names m' = some k) :
    (m' = new ∧ k = i) ∨ (m' ≠ new ∧ m' ≠ n ∧ f.names m' = some k) := by
  obtain rfl := Option.some.inj ((h.rename_eq new).symm.trans hr)
  change Function.update (Function.update f.names n none) new (some i) m' = some k at hm'
  by_cases hnew : m' = new
  · subst hnew
    rw [Function.update_self] at hm'
    exact Or.inl ⟨rfl, (Option.some.inj hm').symm⟩
  · rw [Function.update_of_ne hnew] at hm'
    by_cases hne : m' = n
    · subst hne
      rw [Function.update_self] at hm'
      cases hm'
    · rw [Function.update_of_ne hne] at hm'
      exact Or.inr ⟨hnew, hne, hm'⟩

theorem names_rename_of_ne (h : f.Holds n i b) {new : N} (hr : f.rename n new = some f')
    (hne : m ≠ n) (hnew : m ≠ new) : f'.names m = f.names m := by
  obtain rfl := Option.some.inj ((h.rename_eq new).symm.trans hr)
  show Function.update (Function.update f.names n none) new (some i) m = f.names m
  rw [Function.update_of_ne hnew, Function.update_of_ne hne]

theorem data_rename {old new : N} (hr : f.rename old new = some f') :
    f'.data = f.data ∧ f'.next = f.next := by
  unfold rename at hr
  split at hr
  · obtain rfl := Option.some.inj hr
    exact ⟨rfl, rfl⟩
  · cases hr

theorem content_rename_of_ne (h : f.Holds n i b) {new : N} (hr : f.rename n new = some f')
    (hne : m ≠ n) (hnew : m ≠ new) : f'.content m = f.content m := by
  unfold content
  rw [names_rename_of_ne h hr hne hnew, (data_rename hr).1]

theorem Fresh.rename (hf : f.Fresh) (h : f.Holds n i b) {new : N}
    (hr : f.rename n new = some f') : f'.Fresh := by
  intro m j hm
  rw [(data_rename hr).2]
  rcases names_rename h hr hm with ⟨_, rfl⟩ | ⟨_, _, hm⟩
  · exact hf n j h.name
  · exact hf m j hm

theorem Holds.rename {b' : List UInt8} (h : f.Holds m k b') (hn : f.Holds n i b) {new : N}
    (hr : f.rename n new = some f') (hne : m ≠ n) (hnew : m ≠ new) : f'.Holds m k b' := by
  refine ⟨(names_rename_of_ne hn hr hne hnew).trans h.name, ?_, ?_⟩
  · intro m' hm'
    rcases names_rename hn hr hm' with ⟨_, hki⟩ | ⟨_, _, hm'⟩
    · exact absurd hki (h.ino_ne hn hne)
    · exact h.sole m' hm'
  · rw [(data_rename hr).1, h.data]

end Owner

end Files

end ImgSync.Lib
