import ImgSync.Lib.Files
import ImgSync.Lib.Run
import ImgSync.Lib.Slots
import ImgSync.Queue.Schema

/-!
# Concurrent LocalFS publications

`Transport.Send` of `internal/transports/localfs/transport.go` writes the body
into a temporary file next to the destination, syncs and closes it, and renames
it to the destination.  Every failure removes the temporary file.

`Sends` is the file system and any number of `Send` calls, to any
destinations.  Every call of the operating system is a step of its own, and
every step may fail.  A body that fails and a context that is cancelled are
failures of the copy.  Removal succeeds.

`os.CreateTemp` creates a file that did not exist, and its name
`.imgsync-*.tmp` is not the name of a destination.

There are two groups.

* What a step changes.  A step of a call touches its temporary file alone,
  except for the rename, which moves that file to the destination.
* The invariant.  The temporary files of the calls are apart from each other
  and from the destinations, so nothing else can disturb them.
-/

namespace ImgSync.Localfs

open ImgSync.Lib ImgSync.Queue

/-- Where a call of `Send` is.  From `CreateTemp` on it has a temporary name
and the inode that it has open. -/
inductive Phase where
  | start
  | writing (tmp : GoString) (ino off : Nat)
  | copied (tmp : GoString) (ino : Nat)
  | synced (tmp : GoString) (ino : Nat)
  | closed (tmp : GoString) (ino : Nat)
  /-- The copy or the sync has failed; the close is next. -/
  | failed (tmp : GoString) (ino : Nat)
  /-- `cleanupTmp` is next. -/
  | removing (tmp : GoString) (ino : Nat)
  | succeeded
  | errored
  deriving DecidableEq

/-- The temporary file of the call. -/
def Phase.tmp? : Phase → Option (GoString × Nat)
  | .writing tmp ino _ | .copied tmp ino | .synced tmp ino | .closed tmp ino | .failed tmp ino
  | .removing tmp ino => some (tmp, ino)
  | .start | .succeeded | .errored => none

/-- The call has returned. -/
def Phase.returned : Phase → Bool
  | .succeeded | .errored => true
  | _ => false

/-- `temps` are the names that `CreateTemp` has returned so far. -/
structure Sends (n : Nat) where
  files : Files GoString
  sends : Fin n → Phase
  temps : List GoString

inductive Step (n : Nat) where
  /-- `none`: the context is cancelled, or `CreateTemp` fails. -/
  | create (i : Fin n) (tmp : Option GoString)
  /-- Up to `k` bytes of the body are read and written. -/
  | write (i : Fin n) (k : Nat)
  /-- The copy fails after `j` more bytes: a write, the body, or the context. -/
  | copyFails (i : Fin n) (j : Nat)
  /-- The body is at its end. -/
  | eof (i : Fin n)
  | sync (i : Fin n) (ok : Bool)
  | close (i : Fin n) (ok : Bool)
  | rename (i : Fin n) (ok : Bool)
  | remove (i : Fin n)

/-- The call whose step it is. -/
def Step.call {n : Nat} : Step n → Fin n
  | .create i _ | .write i _ | .copyFails i _ | .eof i | .sync i _ | .close i _ | .rename i _
  | .remove i => i

section Model

variable {n : Nat} (dst : Fin n → GoString) (body : Fin n → List UInt8)

def Sends.setPhase (s : Sends n) (i : Fin n) (ph : Phase) : Sends n :=
  { s with sends := Function.update s.sends i ph }

/-- The bytes that the call writes next, at most `k` of them. -/
def nextBytes (b : List UInt8) (off k : Nat) : List UInt8 := (b.drop off).take k

def step (s : Sends n) : Step n → Sends n
  | .create i tmp =>
    match s.sends i, tmp with
    | .start, none => s.setPhase i .errored
    | .start, some tmp =>
      if ∀ j, dst j ≠ tmp then
        match s.files.createExcl tmp with
        | some (files, ino) =>
          { files := files
            sends := Function.update s.sends i (.writing tmp ino 0)
            temps := tmp :: s.temps }
        | none => s
      else s
    | _, _ => s
  | .write i k =>
    match s.sends i with
    | .writing tmp ino off =>
      { s with
        files := s.files.write ino off (nextBytes (body i) off k)
        sends := Function.update s.sends i
          (.writing tmp ino (off + min k ((body i).length - off))) }
    | _ => s
  | .copyFails i j =>
    match s.sends i with
    | .writing tmp ino off =>
      { s with
        files := s.files.write ino off (nextBytes (body i) off j)
        sends := Function.update s.sends i (.failed tmp ino) }
    | _ => s
  | .eof i =>
    match s.sends i with
    | .writing tmp ino off =>
      if off = (body i).length then s.setPhase i (.copied tmp ino) else s
    | _ => s
  | .sync i ok =>
    match s.sends i with
    | .copied tmp ino => s.setPhase i (if ok then .synced tmp ino else .failed tmp ino)
    | _ => s
  | .close i ok =>
    match s.sends i with
    | .synced tmp ino => s.setPhase i (if ok then .closed tmp ino else .removing tmp ino)
    | .failed tmp ino => s.setPhase i (.removing tmp ino)
    | _ => s
  | .rename i ok =>
    match s.sends i with
    | .closed tmp ino =>
      match if ok then s.files.rename tmp (dst i) else none with
      | some files =>
        { s with files := files, sends := Function.update s.sends i .succeeded }
      | none => s.setPhase i (.removing tmp ino)
    | _ => s
  | .remove i =>
    match s.sends i with
    | .removing tmp _ =>
      { s with
        files := s.files.unlink tmp
        sends := Function.update s.sends i .errored }
    | _ => s

def initial (files : Files GoString) : Sends n where
  files := files
  sends := fun _ => .start
  temps := []

/-- The state that a run reaches. -/
def reach (files : Files GoString) (as : List (Step n)) : Sends n :=
  as.foldl (step dst body) (initial files)

/-! ## What a step changes -/

/-- What the calls rely on: the temporary file of a call is its own, and holds
the part of the body that was written. -/
def Owned (f : Files GoString) (b : List UInt8) : Phase → Prop
  | .writing tmp ino off => off ≤ b.length ∧ f.Holds tmp ino (b.take off)
  | .copied tmp ino | .synced tmp ino | .closed tmp ino => f.Holds tmp ino b
  | .failed tmp ino | .removing tmp ino => ∃ d, f.Holds tmp ino d
  | .start | .succeeded | .errored => True

omit dst body in
theorem Owned.holds {f : Files GoString} {b : List UInt8} {ph : Phase} (h : Owned f b ph)
    {tmp : GoString} {ino : Nat} (htmp : ph.tmp? = some (tmp, ino)) : ∃ d, f.Holds tmp ino d := by
  cases ph with
  | start | succeeded | errored => cases htmp
  | writing => cases htmp; exact ⟨_, h.2⟩
  | copied | synced | closed => cases htmp; exact ⟨_, h⟩
  | failed | removing => cases htmp; exact h

omit dst body in
/-- A call keeps what it relies on while nobody touches its file. -/
theorem Owned.frame {f f' : Files GoString} {b : List UInt8} {ph : Phase} (h : Owned f b ph)
    (hkeep : ∀ tmp ino d, ph.tmp? = some (tmp, ino) → f.Holds tmp ino d → f'.Holds tmp ino d) :
    Owned f' b ph := by
  cases ph with
  | start | succeeded | errored => trivial
  | writing => exact ⟨h.1, hkeep _ _ _ rfl h.2⟩
  | copied | synced | closed => exact hkeep _ _ _ rfl h
  | failed | removing =>
    obtain ⟨d, hd⟩ := h
    exact ⟨d, hkeep _ _ _ rfl hd⟩

/-- The invariant of a run that started with the files `files`. -/
structure Inv (files : Files GoString) (s : Sends n) : Prop where
  fresh : s.files.Fresh
  owned : ∀ i, Owned s.files (body i) (s.sends i)
  hidden : ∀ i tmp ino, (s.sends i).tmp? = some (tmp, ino) → ∀ j, dst j ≠ tmp
  apart : ∀ i j tmp ino ino', (s.sends i).tmp? = some (tmp, ino) →
    (s.sends j).tmp? = some (tmp, ino') → i = j
  published : ∀ j, s.files.content (dst j) = files.content (dst j) ∨
    ∃ i, dst i = dst j ∧ s.sends i = .succeeded ∧ s.files.content (dst j) = some (body i)
  named : ∀ tmp ∈ s.temps, ∀ j, dst j ≠ tmp
  cleaned : ∀ tmp ∈ s.temps, ∀ ino, s.files.names tmp = some ino →
    ∃ i, (s.sends i).tmp? = some (tmp, ino)

/-- What a step of the call `i`, to the files `f` and the phase `ph`, does to
the other calls and to the destinations. -/
structure Effect (s : Sends n) (i : Fin n) (f : Files GoString) (ph : Phase)
    (temps : List GoString) : Prop where
  fresh : f.Fresh
  own : Owned f (body i) ph
  keeps : ∀ j, j ≠ i → ∀ tmp ino d, (s.sends j).tmp? = some (tmp, ino) →
    s.files.Holds tmp ino d → f.Holds tmp ino d
  hidden : ∀ tmp ino, ph.tmp? = some (tmp, ino) →
    (∀ j, dst j ≠ tmp) ∧ ∀ j, j ≠ i → ∀ ino', (s.sends j).tmp? ≠ some (tmp, ino')
  stays : s.sends i = .succeeded → ph = .succeeded
  /-- A destination changes by the rename alone. -/
  dests : ∀ j, f.content (dst j) = s.files.content (dst j) ∨
    dst i = dst j ∧ ph = .succeeded ∧ f.content (dst j) = some (body i)
  named : ∀ tmp ∈ temps, ∀ j, dst j ≠ tmp
  cleaned : ∀ tmp ∈ temps, ∀ ino, f.names tmp = some ino →
    ph.tmp? = some (tmp, ino) ∨ ∃ j, j ≠ i ∧ (s.sends j).tmp? = some (tmp, ino)

variable {dst body} {files : Files GoString} {s : Sends n} {i : Fin n}

/-- A step keeps the invariant, by what it does. -/
theorem Inv.of_effect (h : Inv dst body files s) {f : Files GoString} {ph : Phase}
    {temps : List GoString} (he : Effect dst body s i f ph temps) :
    Inv dst body files ⟨f, Function.update s.sends i ph, temps⟩ := by
  have hself : Function.update s.sends i ph i = ph := Function.update_self _ _ _
  have hother : ∀ j, j ≠ i → Function.update s.sends i ph j = s.sends j :=
    fun j hj => Function.update_of_ne hj _ _
  refine ⟨he.fresh, ?_, ?_, ?_, ?_, he.named, ?_⟩
  · exact (Function.forall_update_iff s.sends fun j p => Owned f (body j) p).mpr
      ⟨he.own, fun j hj => (h.owned j).frame (he.keeps j hj)⟩
  · exact (Function.forall_update_iff s.sends fun _ p =>
      ∀ tmp ino, p.tmp? = some (tmp, ino) → ∀ j, dst j ≠ tmp).mpr
        ⟨fun tmp ino htmp => (he.hidden tmp ino htmp).1, fun j _ => h.hidden j⟩
  · have hapart := unique_update (f := s.sends) (j := i) (b := ph)
      (R := fun p tmp => ∃ ino, p.tmp? = some (tmp, ino)) ?_ ?_
    · exact fun j k tmp ino ino' hj hk => hapart j k tmp ⟨ino, hj⟩ ⟨ino', hk⟩
    · rintro j k tmp ⟨ino, hj⟩ ⟨ino', hk⟩
      exact h.apart j k tmp ino ino' hj hk
    · rintro j tmp ⟨ino, htmp⟩ ⟨ino', hj⟩
      by_contra hne
      exact (he.hidden tmp ino htmp).2 j hne ino' hj
  · intro j
    rcases he.dests j with hsame | ⟨hdst, hsucc, hbody⟩
    · rcases h.published j with hinit | ⟨k, hdst, hsucc, hbody⟩
      · exact Or.inl (hsame.trans hinit)
      · refine Or.inr ⟨k, hdst, ?_, hsame.trans hbody⟩
        by_cases hk : k = i
        · subst hk
          exact hself.trans (he.stays hsucc)
        · exact (hother k hk).trans hsucc
    · exact Or.inr ⟨i, hdst, hself.trans hsucc, hbody⟩
  · intro tmp hmem ino hname
    rcases he.cleaned tmp hmem ino hname with hi | ⟨j, hj, htmp⟩
    · exact ⟨i, (congrArg Phase.tmp? hself).trans hi⟩
    · exact ⟨j, (congrArg Phase.tmp? (hother j hj)).trans htmp⟩

/-- A call without a temporary file moves to a phase without one. -/
theorem Effect.idle (h : Inv dst body files s) {ph : Phase} (hold : (s.sends i).tmp? = none)
    (hnew : ph.tmp? = none) (hown : Owned s.files (body i) ph)
    (hstays : s.sends i = .succeeded → ph = .succeeded) :
    Effect dst body s i s.files ph s.temps := by
  refine ⟨h.fresh, hown, fun _ _ _ _ _ _ hd => hd, ?_, hstays, fun _ => Or.inl rfl, h.named, ?_⟩
  · intro tmp ino htmp
    rw [hnew] at htmp
    cases htmp
  · intro tmp hmem ino hname
    obtain ⟨j, hj⟩ := h.cleaned tmp hmem ino hname
    refine Or.inr ⟨j, ?_, hj⟩
    rintro rfl
    rw [hold] at hj
    cases hj

/-- A call keeps its temporary file and changes the bytes of that file at
most. -/
theorem Effect.move (h : Inv dst body files s) {ph : Phase} {tmp : GoString} {ino : Nat}
    (hold : (s.sends i).tmp? = some (tmp, ino)) (hnew : ph.tmp? = some (tmp, ino))
    {f : Files GoString} (hnames : f.names = s.files.names) (hnext : f.next = s.files.next)
    (hdata : ∀ k, k ≠ ino → f.data k = s.files.data k) (hown : Owned f (body i) ph) :
    Effect dst body s i f ph s.temps := by
  obtain ⟨d, hd⟩ := (h.owned i).holds hold
  refine ⟨?_, hown, ?_, ?_, ?_, ?_, h.named, ?_⟩
  · intro m k hm
    rw [hnext]
    exact h.fresh m k (hnames ▸ hm)
  · intro j hj tmp' ino' d' htmp' hd'
    refine hd'.of_data hnames (hdata ino' (hd'.ino_ne hd ?_))
    rintro rfl
    exact hj (h.apart j i _ _ _ htmp' hold)
  · intro tmp' ino' htmp'
    obtain ⟨rfl, rfl⟩ := Prod.mk.inj (Option.some.inj (hnew.symm.trans htmp'))
    exact ⟨h.hidden i _ _ hold, fun j hj _ hj' => hj (h.apart j i _ _ _ hj' hold)⟩
  · intro hs
    rw [hs] at hold
    cases hold
  · intro j
    refine Or.inl ?_
    show (f.names (dst j)).map f.data = (s.files.names (dst j)).map s.files.data
    rw [hnames]
    cases hj : s.files.names (dst j) with
    | none => rfl
    | some k =>
      refine congrArg some (hdata k ?_)
      rintro rfl
      exact h.hidden i _ _ hold j (hd.sole _ hj)
  · intro tmp' hmem ino' hname
    obtain ⟨j, hj⟩ := h.cleaned tmp' hmem ino' (hnames ▸ hname)
    by_cases hji : j = i
    · subst hji
      exact Or.inl (hnew.trans (hold.symm.trans hj))
    · exact Or.inr ⟨j, hji, hj⟩

/-- A call keeps its temporary file and the bytes in it. -/
theorem Effect.phase (h : Inv dst body files s) {ph : Phase} {tmp : GoString} {ino : Nat}
    (hold : (s.sends i).tmp? = some (tmp, ino)) (hnew : ph.tmp? = some (tmp, ino))
    (hown : Owned s.files (body i) ph) : Effect dst body s i s.files ph s.temps :=
  Effect.move h hold hnew rfl rfl (fun _ _ => rfl) hown

theorem Effect.create (h : Inv dst body files s) (hstart : s.sends i = .start) {tmp : GoString}
    {ino : Nat} {f : Files GoString} (hdst : ∀ j, dst j ≠ tmp)
    (hc : s.files.createExcl tmp = some (f, ino)) :
    Effect dst body s i f (.writing tmp ino 0) (tmp :: s.temps) := by
  obtain ⟨hfresh, hholds⟩ := h.fresh.createExcl hc
  -- The name did not exist, so no call has it.
  have hunused : ∀ j ino', (s.sends j).tmp? ≠ some (tmp, ino') := by
    intro j ino' hj
    obtain ⟨d, hd⟩ := (h.owned j).holds hj
    unfold Files.createExcl at hc
    rw [hd.name] at hc
    cases hc
  refine ⟨hfresh, ⟨Nat.zero_le _, hholds⟩, ?_, ?_, ?_, ?_, ?_, ?_⟩
  · intro j _ tmp' ino' d htmp' hd
    refine hd.createExcl h.fresh hc ?_
    rintro rfl
    exact hunused j ino' htmp'
  · intro tmp' ino' htmp'
    obtain ⟨rfl, rfl⟩ := Prod.mk.inj (Option.some.inj htmp')
    exact ⟨hdst, fun j _ => hunused j⟩
  · intro hs
    rw [hstart] at hs
    cases hs
  · exact fun j => Or.inl (Files.content_createExcl_of_ne h.fresh hc (hdst j))
  · intro tmp' hmem
    rcases List.mem_cons.mp hmem with rfl | hmem
    · exact hdst
    · exact h.named tmp' hmem
  · intro tmp' hmem ino' hname
    by_cases heq : tmp' = tmp
    · subst heq
      obtain rfl := Option.some.inj (hholds.name.symm.trans hname)
      exact Or.inl rfl
    · rw [Files.names_createExcl_of_ne hc heq] at hname
      obtain ⟨j, hj⟩ := h.cleaned tmp' ((List.mem_cons.mp hmem).resolve_left heq) ino' hname
      refine Or.inr ⟨j, ?_, hj⟩
      rintro rfl
      rw [hstart] at hj
      cases hj

theorem Effect.publish (h : Inv dst body files s) {tmp : GoString} {ino : Nat}
    (hclosed : s.sends i = .closed tmp ino) {f : Files GoString}
    (hr : s.files.rename tmp (dst i) = some f) :
    Effect dst body s i f .succeeded s.temps := by
  have htmp : (s.sends i).tmp? = some (tmp, ino) := by rw [hclosed]; rfl
  have hbody : s.files.Holds tmp ino (body i) := by
    have := h.owned i
    rwa [hclosed] at this
  refine ⟨h.fresh.rename hbody hr, trivial, ?_, ?_, fun _ => rfl, ?_, h.named, ?_⟩
  · intro j hj tmp' ino' d htmp' hd
    refine hd.rename hbody hr ?_ (h.hidden j _ _ htmp' i).symm
    rintro rfl
    exact hj (h.apart j i _ _ _ htmp' htmp)
  · intro tmp' ino' htmp'
    cases htmp'
  · intro j
    by_cases heq : dst j = dst i
    · refine Or.inr ⟨heq.symm, rfl, ?_⟩
      rw [heq, Files.content_rename hr, hbody.content]
    · exact Or.inl (Files.content_rename_of_ne hbody hr (h.hidden i _ _ htmp j) heq)
  · intro tmp' hmem ino' hname
    rcases Files.names_rename hbody hr hname with ⟨rfl, _⟩ | ⟨_, hne, hname⟩
    · exact absurd rfl (h.named _ hmem i)
    · obtain ⟨j, hj⟩ := h.cleaned tmp' hmem ino' hname
      refine Or.inr ⟨j, ?_, hj⟩
      rintro rfl
      exact hne (Prod.mk.inj (Option.some.inj (hj.symm.trans htmp))).1

theorem Effect.remove (h : Inv dst body files s) {tmp : GoString} {ino : Nat}
    (hphase : s.sends i = .removing tmp ino) :
    Effect dst body s i (s.files.unlink tmp) .errored s.temps := by
  have htmp : (s.sends i).tmp? = some (tmp, ino) := by rw [hphase]; rfl
  refine ⟨h.fresh.unlink tmp, trivial, ?_, ?_, ?_, ?_, h.named, ?_⟩
  · intro j hj tmp' ino' d htmp' hd
    refine hd.unlink ?_
    rintro rfl
    exact hj (h.apart j i _ _ _ htmp' htmp)
  · intro tmp' ino' htmp'
    cases htmp'
  · intro hs
    rw [hphase] at hs
    cases hs
  · exact fun j => Or.inl (Files.content_unlink_of_ne (h.hidden i _ _ htmp j))
  · intro tmp' hmem ino' hname
    change Function.update s.files.names tmp none tmp' = some ino' at hname
    have hne : tmp' ≠ tmp := by
      rintro rfl
      rw [Function.update_self] at hname
      cases hname
    rw [Function.update_of_ne hne] at hname
    obtain ⟨j, hj⟩ := h.cleaned tmp' hmem ino' hname
    refine Or.inr ⟨j, ?_, hj⟩
    rintro rfl
    exact hne (Prod.mk.inj (Option.some.inj (hj.symm.trans htmp))).1

omit dst body in
/-- Writing the next bytes of the body extends what the file holds. -/
theorem holds_write {f : Files GoString} {b : List UInt8} {tmp : GoString} {ino off : Nat}
    (hoff : off ≤ b.length) (h : f.Holds tmp ino (b.take off)) (k : Nat) :
    (f.write ino off (nextBytes b off k)).Holds tmp ino (b.take (off + k)) := by
  refine ⟨h.name, h.sole, ?_⟩
  show Function.update f.data ino _ ino = _
  rw [Function.update_self, h.data]
  exact writeAt_take hoff k

/-- The result of a step: nothing, or an effect of the call whose step it is. -/
def Acts (dst : Fin n → GoString) (body : Fin n → List UInt8) (s : Sends n) (i : Fin n)
    (s' : Sends n) : Prop :=
  s' = s ∨ ∃ f ph temps, s' = ⟨f, Function.update s.sends i ph, temps⟩ ∧
    Effect dst body s i f ph temps

theorem Effect.acts {f : Files GoString} {ph : Phase} {temps : List GoString}
    (he : Effect dst body s i f ph temps) :
    Acts dst body s i ⟨f, Function.update s.sends i ph, temps⟩ :=
  Or.inr ⟨f, ph, temps, rfl, he⟩

theorem acts_create (h : Inv dst body files s) (i : Fin n) (tmp : Option GoString) :
    Acts dst body s i (step dst body s (.create i tmp)) := by
  unfold step
  dsimp only
  split
  · rename_i hstart
    refine Effect.acts (Effect.idle h ?_ rfl trivial ?_)
    · rw [hstart]
      rfl
    · rw [hstart]
      rintro ⟨⟩
  · rename_i hstart
    split
    · rename_i hdst
      split
      · rename_i hc
        exact (Effect.create h hstart hdst hc).acts
      · exact Or.inl rfl
    · exact Or.inl rfl
  · exact Or.inl rfl

theorem acts_write (h : Inv dst body files s) (i : Fin n) (k : Nat) :
    Acts dst body s i (step dst body s (.write i k)) := by
  unfold step
  dsimp only
  split
  · rename_i tmp ino off hw
    have hold : (s.sends i).tmp? = some (tmp, ino) := by rw [hw]; rfl
    obtain ⟨hoff, hheld⟩ : Owned s.files (body i) (.writing tmp ino off) := hw ▸ h.owned i
    refine Effect.acts (Effect.move h hold rfl rfl rfl ?_ ?_)
    · exact fun _ hk => Function.update_of_ne hk _ _
    · have hlen : off + min k ((body i).length - off) ≤ (body i).length := by omega
      have htake : (body i).take (off + k) = (body i).take (off + min k ((body i).length - off)) :=
        List.take_eq_take_iff.mpr (by omega)
      exact ⟨hlen, htake ▸ holds_write hoff hheld k⟩
  · exact Or.inl rfl

theorem acts_copyFails (h : Inv dst body files s) (i : Fin n) (j : Nat) :
    Acts dst body s i (step dst body s (.copyFails i j)) := by
  unfold step
  dsimp only
  split
  · rename_i tmp ino off hw
    have hold : (s.sends i).tmp? = some (tmp, ino) := by rw [hw]; rfl
    obtain ⟨hoff, hheld⟩ : Owned s.files (body i) (.writing tmp ino off) := hw ▸ h.owned i
    refine Effect.acts (Effect.move h hold rfl rfl rfl ?_ ⟨_, holds_write hoff hheld j⟩)
    exact fun _ hk => Function.update_of_ne hk _ _
  · exact Or.inl rfl

theorem acts_eof (h : Inv dst body files s) (i : Fin n) :
    Acts dst body s i (step dst body s (.eof i)) := by
  unfold step
  dsimp only
  split
  · rename_i tmp ino off hw
    have hold : (s.sends i).tmp? = some (tmp, ino) := by rw [hw]; rfl
    obtain ⟨-, hheld⟩ : Owned s.files (body i) (.writing tmp ino off) := hw ▸ h.owned i
    split
    · rename_i hend
      rw [hend, List.take_length] at hheld
      exact Effect.acts (Effect.phase h hold rfl hheld)
    · exact Or.inl rfl
  · exact Or.inl rfl

theorem acts_sync (h : Inv dst body files s) (i : Fin n) (ok : Bool) :
    Acts dst body s i (step dst body s (.sync i ok)) := by
  unfold step
  dsimp only
  split
  · rename_i tmp ino hw
    have hold : (s.sends i).tmp? = some (tmp, ino) := by rw [hw]; rfl
    have hheld : Owned s.files (body i) (.copied tmp ino) := hw ▸ h.owned i
    cases ok with
    | true => exact Effect.acts (Effect.phase h hold rfl hheld)
    | false => exact Effect.acts (Effect.phase h hold rfl ⟨_, hheld⟩)
  · exact Or.inl rfl

theorem acts_close (h : Inv dst body files s) (i : Fin n) (ok : Bool) :
    Acts dst body s i (step dst body s (.close i ok)) := by
  unfold step
  dsimp only
  split
  · rename_i tmp ino hw
    have hold : (s.sends i).tmp? = some (tmp, ino) := by rw [hw]; rfl
    have hheld : Owned s.files (body i) (.synced tmp ino) := hw ▸ h.owned i
    cases ok with
    | true => exact Effect.acts (Effect.phase h hold rfl hheld)
    | false => exact Effect.acts (Effect.phase h hold rfl ⟨_, hheld⟩)
  · rename_i tmp ino hw
    have hold : (s.sends i).tmp? = some (tmp, ino) := by rw [hw]; rfl
    have hheld : Owned s.files (body i) (.failed tmp ino) := hw ▸ h.owned i
    exact Effect.acts (Effect.phase h hold rfl hheld)
  · exact Or.inl rfl

theorem acts_rename (h : Inv dst body files s) (i : Fin n) (ok : Bool) :
    Acts dst body s i (step dst body s (.rename i ok)) := by
  unfold step
  dsimp only
  split
  · rename_i tmp ino hw
    have hold : (s.sends i).tmp? = some (tmp, ino) := by rw [hw]; rfl
    have hheld : Owned s.files (body i) (.closed tmp ino) := hw ▸ h.owned i
    split
    · rename_i f hr
      cases ok with
      | true => exact (Effect.publish h hw hr).acts
      | false => cases hr
    · exact Effect.acts (Effect.phase h hold rfl ⟨_, hheld⟩)
  · exact Or.inl rfl

theorem acts_remove (h : Inv dst body files s) (i : Fin n) :
    Acts dst body s i (step dst body s (.remove i)) := by
  unfold step
  dsimp only
  split
  · rename_i hw
    exact (Effect.remove h hw).acts
  · exact Or.inl rfl

theorem step_acts (h : Inv dst body files s) (a : Step n) :
    Acts dst body s a.call (step dst body s a) := by
  cases a with
  | create i tmp => exact acts_create h i tmp
  | write i k => exact acts_write h i k
  | copyFails i j => exact acts_copyFails h i j
  | eof i => exact acts_eof h i
  | sync i ok => exact acts_sync h i ok
  | close i ok => exact acts_close h i ok
  | rename i ok => exact acts_rename h i ok
  | remove i => exact acts_remove h i

/-! ## Whole runs -/

theorem Inv.step (h : Inv dst body files s) (a : Step n) :
    Inv dst body files (step dst body s a) := by
  rcases step_acts h a with heq | ⟨f, ph, temps, heq, he⟩
  · rwa [heq]
  · rw [heq]
    exact h.of_effect he

theorem inv_initial (hfiles : files.Fresh) : Inv dst body files (initial files : Sends n) where
  fresh := hfiles
  owned _ := trivial
  hidden _ _ _ htmp := by cases htmp
  apart _ _ _ _ _ htmp := by cases htmp
  published _ := Or.inl rfl
  named _ hmem := by cases hmem
  cleaned _ hmem := by cases hmem

theorem reach_inv (hfiles : files.Fresh) (as : List (Step n)) :
    Inv dst body files (reach dst body files as) :=
  foldl_invariant _ (fun _ a h => h.step a) (inv_initial hfiles) as

/-- A call that has succeeded stays so, whoever makes the next step. -/
theorem Inv.succeeded_step (h : Inv dst body files s) (hs : s.sends i = .succeeded) (a : Step n) :
    (Localfs.step dst body s a).sends i = .succeeded := by
  rcases step_acts h a with heq | ⟨f, ph, temps, heq, he⟩
  · rw [heq, hs]
  · rw [heq]
    show Function.update s.sends a.call ph i = .succeeded
    by_cases hi : i = a.call
    · subst hi
      rw [Function.update_self, he.stays hs]
    · rw [Function.update_of_ne hi, hs]

theorem Inv.succeeded_foldl (h : Inv dst body files s) (hs : s.sends i = .succeeded)
    (as : List (Step n)) : (as.foldl (Localfs.step dst body) s).sends i = .succeeded :=
  (foldl_invariant (fun s => Inv dst body files s ∧ s.sends i = .succeeded)
    (fun _ a h => ⟨h.1.step a, h.1.succeeded_step h.2 a⟩) ⟨h, hs⟩ as).2

/-- Only the step with which a call succeeds changes a destination. -/
theorem Inv.step_content (h : Inv dst body files s) (a : Step n)
    (hs : (Localfs.step dst body s a).sends a.call ≠ .succeeded) (j : Fin n) :
    (Localfs.step dst body s a).files.content (dst j) = s.files.content (dst j) := by
  rcases step_acts h a with heq | ⟨f, ph, temps, heq, he⟩
  · rw [heq]
  · rw [heq] at hs ⊢
    rcases he.dests j with hsame | ⟨_, hsucc, _⟩
    · exact hsame
    · exact absurd ((Function.update_self _ _ _).trans hsucc) hs

/-- A publication is atomic.  In every state of every run a destination holds
what it held at first or the body of a call that has renamed, and no step of a
call that ends in an error has changed any destination.  Once every call has
returned, none of the temporary files is left. -/
theorem localfs_publish_atomic (dst : Fin n → GoString) (body : Fin n → List UInt8)
    (files : Files GoString) (hfiles : files.Fresh) (as : List (Step n)) :
    (∀ j, (reach dst body files as).files.content (dst j) = files.content (dst j) ∨
      ∃ i, dst i = dst j ∧ (reach dst body files as).sends i = .succeeded ∧
        (reach dst body files as).files.content (dst j) = some (body i)) ∧
    (∀ i before a after, as = before ++ a :: after → a.call = i →
      (reach dst body files as).sends i = .errored → ∀ j,
        (reach dst body files (before ++ [a])).files.content (dst j) =
          (reach dst body files before).files.content (dst j)) ∧
    ((∀ i, ((reach dst body files as).sends i).returned) →
      ∀ tmp ∈ (reach dst body files as).temps,
        (reach dst body files as).files.names tmp = none) := by
  have hinv : Inv dst body files (reach dst body files as) := reach_inv hfiles as
  refine ⟨hinv.published, ?_, ?_⟩
  · rintro i before a after rfl rfl herr j
    have hbefore : Inv dst body files (reach dst body files before) := reach_inv hfiles before
    have hsplit : ∀ rest, reach dst body files (before ++ rest) =
        rest.foldl (Localfs.step dst body) (reach dst body files before) :=
      fun rest => List.foldl_append
    rw [hsplit] at herr ⊢
    refine hbefore.step_content a ?_ j
    intro hs
    have hend := (hbefore.step a).succeeded_foldl hs after
    rw [List.foldl_cons, hend] at herr
    cases herr
  · intro hall tmp hmem
    cases hname : (reach dst body files as).files.names tmp with
    | none => rfl
    | some ino =>
      obtain ⟨i, hi⟩ := hinv.cleaned tmp hmem ino hname
      have hret := hall i
      cases hph : (reach dst body files as).sends i <;> rw [hph] at hret hi <;> cases hret <;>
        cases hi

end Model

/-- Two calls to one destination.  The first publishes while the second is
still writing, and the second then fails. -/
def crossing : List (Step 2) :=
  [.create 0 (some (goString "/out/.imgsync-1.tmp")),
    .create 1 (some (goString "/out/.imgsync-2.tmp")), .write 0 4, .write 1 1, .eof 0,
    .sync 0 true, .close 0 true, .rename 0 true, .copyFails 1 0, .close 1 true, .remove 1]

/-- The destination holds the body of the call that has renamed, and both
temporary files are gone. -/
theorem localfs_publish_atomic_crossing :
    let files : Files GoString := ⟨fun _ => none, fun _ => [], 0⟩
    let s := reach (fun _ => goString "/out/a") (fun i => [7, i.val.toUInt8]) files crossing
    files.Fresh ∧ s.sends 1 = .errored ∧ s.files.content (goString "/out/a") = some [7, 0] ∧
      s.temps.length = 2 ∧ ∀ tmp ∈ s.temps, s.files.names tmp = none := by
  have hfresh : (⟨fun _ => none, fun _ => [], 0⟩ : Files GoString).Fresh := fun _ _ h => by cases h
  exact ⟨hfresh, by decide, by decide, by decide,
    (localfs_publish_atomic _ _ _ hfresh crossing).2.2 (by decide)⟩

end ImgSync.Localfs
