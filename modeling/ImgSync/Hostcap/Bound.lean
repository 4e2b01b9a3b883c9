import ImgSync.Hostcap.Cluster
import ImgSync.Lib.Slots

/-!
# At most `Cap` transfers to a host

Two calls that are inside the inner `Send` own two sessions, and each session
holds the key of the slot of its call.  A key has one holder, so two calls for
one host have two slots, and there are `Cap` of them.

Only the two facts of `CapInv` are carried through a run.  Locks that a failed
unlock leaves behind, keys that collide and sessions that are reused do not
matter: they can make a call wait, but they give nobody a key that another
session holds.
-/

namespace ImgSync.Hostcap

open ImgSync.Lib ImgSync.Queue

variable {n : Nat} {c : CapConfig n} {s : Cluster n}

/-- A session has one owner, and a call inside the inner `Send` holds the key
of its slot. -/
structure CapInv (c : CapConfig n) (s : Cluster n) : Prop where
  owner : ∀ j k session, (s.phase j).session? = some session →
    (s.phase k).session? = some session → j = k
  slot : ∀ k session slot, s.phase k = .sending session slot →
    slot < (wrapCap c.cap).toNat ∧ Holds s.locks session (c.lockKey (c.host k) slot)

theorem probedSlot_lt (start i : Nat) (cap : Int) :
    probedSlot start i (wrapCap cap) < (wrapCap cap).toNat := by
  have hpos := wrapCap_pos cap
  exact Nat.mod_lt _ (by omega)

theorem Cluster.unowned_iff {session : Nat} :
    s.unowned session = true ↔ ∀ k, (s.phase k).session? ≠ some session := by
  unfold Cluster.unowned
  exact decide_eq_true_iff

theorem keepsOthers_closeIf (closed : Bool) (t : Locks Nat Int) (session : Nat) :
    KeepsOthers session t (closeIf closed t session) := by
  unfold closeIf
  split
  · exact keepsOthers_endSession t session
  · exact .refl session t

/-- A session that no call owns may do what it likes. -/
theorem CapInv.others (h : CapInv c s) {session : Nat} {t : Locks Nat Int}
    (hfree : s.unowned session = true) (hkeep : KeepsOthers session s.locks t) :
    CapInv c { s with locks := t } := by
  refine ⟨h.owner, ?_⟩
  intro k session' slot hk
  obtain ⟨hlt, hhold⟩ := h.slot k session' slot hk
  have hne : session' ≠ session := by
    rintro rfl
    apply Cluster.unowned_iff.mp hfree k
    rw [hk]
    rfl
  exact ⟨hlt, hkeep _ _ hne hhold⟩

/-- A call moves on to a phase whose session no other call owns. -/
theorem CapInv.move (h : CapInv c s) {k : Fin n} {t : Locks Nat Int} {p : Phase}
    (hkeep : ∀ j session key, j ≠ k → (s.phase j).session? = some session →
      Holds s.locks session key → Holds t session key)
    (hown : ∀ j session, p.session? = some session → (s.phase j).session? = some session → j = k)
    (hslot : ∀ session slot, p = .sending session slot →
      slot < (wrapCap c.cap).toNat ∧ Holds t session (c.lockKey (c.host k) slot)) :
    CapInv c (s.move k t p) := by
  refine ⟨?_, ?_⟩
  · exact unique_update (R := fun q session => Phase.session? q = some session) h.owner hown
  · refine (Function.forall_update_iff s.phase fun j q =>
      ∀ session slot, q = .sending session slot →
        slot < (wrapCap c.cap).toNat ∧ Holds t session (c.lockKey (c.host j) slot)).mpr
        ⟨hslot, fun j hj session slot hphase => ?_⟩
    obtain ⟨hlt, hhold⟩ := h.slot j session slot hphase
    exact ⟨hlt, hkeep j session _ hj (by rw [hphase]; rfl) hhold⟩

/-- A step that a call makes in the session that it owns. -/
theorem CapInv.moveOwned (h : CapInv c s) {k : Fin n} {session : Nat} {t : Locks Nat Int}
    {p : Phase} (hk : (s.phase k).session? = some session)
    (hkeep : KeepsOthers session s.locks t)
    (hp : ∀ session', p.session? = some session' → session' = session)
    (hslot : ∀ slot, p = .sending session slot →
      slot < (wrapCap c.cap).toNat ∧ Holds t session (c.lockKey (c.host k) slot)) :
    CapInv c (s.move k t p) := by
  apply h.move
  · intro j session' key hjk hj hhold
    refine hkeep session' key ?_ hhold
    rintro rfl
    exact hjk (h.owner j k session' hj hk)
  · intro j session' hp' hj
    rw [hp session' hp'] at hj
    exact h.owner j k session hj hk
  · intro session' slot hsend
    obtain rfl : session' = session := hp session' (by rw [hsend]; rfl)
    exact hslot slot hsend

/-- The same for a step that does not enter the inner `Send`. -/
theorem CapInv.moveOn (h : CapInv c s) {k : Fin n} {session : Nat} {t : Locks Nat Int} {p : Phase}
    (hk : (s.phase k).session? = some session) (hkeep : KeepsOthers session s.locks t)
    (hp : p.session? = some session ∨ p.session? = none) (hsend : p.isSending = false) :
    CapInv c (s.move k t p) := by
  apply h.moveOwned hk hkeep
  · intro session' hp'
    rw [hp'] at hp
    cases hp with
    | inl hp => exact Option.some.inj hp
    | inr hp => cases hp
  · rintro slot rfl
    cases hsend

/-- A step before the call has a session, into a phase whose session is free. -/
theorem CapInv.moveFirst (h : CapInv c s) {k : Fin n} {p : Phase}
    (hfree : ∀ session, p.session? = some session → s.unowned session = true)
    (hsend : p.isSending = false) : CapInv c (s.move k s.locks p) := by
  apply h.move
  · intro _ _ _ _ _ hhold
    exact hhold
  · intro j session hp hj
    exact absurd hj (Cluster.unowned_iff.mp (hfree session hp) j)
  · rintro session slot rfl
    cases hsend

theorem CapInv.acquireConn (h : CapInv c s) (k : Fin n) (conn : Except GoString Nat) :
    CapInv c (s.acquireConn c k conn) := by
  unfold Cluster.acquireConn
  split
  · exact h.moveFirst (by simp [Phase.session?]) rfl
  · split
    · exact h.moveFirst (by simp [Phase.session?]) rfl
    · rename_i session
      split
      · rename_i hfree
        have hfree' : ∀ session', some session = some session' → s.unowned session' = true := by
          rintro _ ⟨⟩
          exact hfree
        split
        · exact h.moveFirst hfree' rfl
        · exact h.moveFirst hfree' rfl
      · exact h

theorem CapInv.probe (h : CapInv c s) {k : Fin n} {session start i : Nat}
    (hk : s.phase k = .scanning session start i) :
    CapInv c (s.probe c k session start i) := by
  have hown : (s.phase k).session? = some session := by rw [hk]; rfl
  have hkeep := keepsOthers_tryLock s.locks session
    (c.lockKey (c.host k) (probedSlot start i (wrapCap c.cap)))
  unfold Cluster.probe
  dsimp only
  split
  · rename_i hgot
    refine h.moveOwned hown hkeep (by simp [Phase.session?]) ?_
    rintro slot ⟨⟩
    exact ⟨probedSlot_lt .., holds_of_tryLock hgot⟩
  · split
    · exact h.moveOn hown hkeep (.inl rfl) rfl
    · exact h.moveOn hown hkeep (.inl rfl) rfl

theorem CapInv.step (h : CapInv c s) (a : Action n) : CapInv c (step c s a) := by
  cases a with
  | acquireConn k conn =>
    simp only [Hostcap.step]
    split
    · exact h.acquireConn k conn
    · exact h
  | probe k =>
    simp only [Hostcap.step]
    split
    · rename_i hk
      exact h.probe hk
    · exact h
  | probeFails k err taken closed =>
    simp only [Hostcap.step]
    split
    · rename_i session start i hk
      have hown : (s.phase k).session? = some session := by rw [hk]; rfl
      refine h.moveOn hown ?_ (.inl rfl) rfl
      refine KeepsOthers.trans ?_ (keepsOthers_closeIf closed _ session)
      split
      · exact keepsOthers_tryLock _ _ _
      · exact .refl _ _
    · exact h
  | wake k =>
    simp only [Hostcap.step]
    split
    · rename_i session start hk
      exact h.moveOn (by rw [hk]; rfl) (.refl session _) (.inl rfl) rfl
    · exact h
  | cancel k err =>
    simp only [Hostcap.step]
    split
    · rename_i session start hk
      exact h.moveOn (by rw [hk]; rfl) (.refl session _) (.inl rfl) rfl
    · exact h
  | innerReturns k r =>
    simp only [Hostcap.step]
    split
    · rename_i session slot hk
      exact h.moveOn (by rw [hk]; rfl) (.refl session _) (.inl rfl) rfl
    · exact h
  | unlock k unlocked closed =>
    simp only [Hostcap.step]
    split
    · rename_i session slot r hk
      have hown : (s.phase k).session? = some session := by rw [hk]; rfl
      refine h.moveOn hown ?_ (.inl rfl) rfl
      refine KeepsOthers.trans ?_ (keepsOthers_closeIf closed _ session)
      split
      · exact keepsOthers_unlock _ _ _
      · exact .refl _ _
    · exact h
  | release k closed =>
    simp only [Hostcap.step]
    split
    · rename_i session r hk
      exact h.moveOn (by rw [hk]; rfl) (keepsOthers_closeIf closed _ session) (.inr rfl) rfl
    · exact h
  | otherLock session key =>
    simp only [Hostcap.step]
    split
    · rename_i hfree
      exact h.others hfree (keepsOthers_tryLock _ _ _)
    · exact h
  | otherUnlock session key =>
    simp only [Hostcap.step]
    split
    · rename_i hfree
      exact h.others hfree (keepsOthers_unlock _ _ _)
    · exact h
  | otherEnds session =>
    simp only [Hostcap.step]
    split
    · rename_i hfree
      exact h.others hfree (keepsOthers_endSession _ _)
    · exact h

theorem capInv_reach (c : CapConfig n) (locks : Locks Nat Int) (as : List (Action n)) :
    CapInv c (reach c locks as) := by
  refine foldl_invariant (CapInv c) (fun _ a h => h.step a) ⟨?_, ?_⟩ as
  · intro j k session hj
    cases hj
  · intro k session slot hk
    cases hk

/-- The slot of a call inside the inner `Send`. -/
def Phase.slot : Phase → Nat
  | .sending _ slot => slot
  | _ => 0

theorem Cluster.mem_sends {host : GoString} {k : Fin n} :
    k ∈ s.sends c host ↔ c.host k = host ∧ ∃ session slot, s.phase k = .sending session slot := by
  unfold Cluster.sends
  rw [Finset.mem_filter]
  cases s.phase k <;> simp [Phase.isSending]

/-- Two calls for one host that are inside the inner `Send` have two slots. -/
theorem CapInv.slot_injOn (h : CapInv c s) (host : GoString) :
    Set.InjOn (fun k => (s.phase k).slot) (s.sends c host) := by
  intro j hj k hk heq
  obtain ⟨hjhost, session, slot, hj⟩ := Cluster.mem_sends.mp hj
  obtain ⟨hkhost, session', slot', hk⟩ := Cluster.mem_sends.mp hk
  have hslot : slot = slot' := by simpa [hj, hk, Phase.slot] using heq
  have hholdj := (h.slot j session slot hj).2
  have hholdk := (h.slot k session' slot' hk).2
  rw [hjhost] at hholdj
  rw [hkhost, ← hslot] at hholdk
  -- The two calls have one key, so one session, so they are one call.
  have hsession : session = session' := hholdj.unique hholdk
  exact h.owner j k session (by rw [hj]; rfl) (by rw [hk, hsession]; rfl)

/-- At any time, at most `Cap` calls for a host are inside the inner `Send`. -/
theorem host_cap (c : CapConfig n) (locks : Locks Nat Int) (as : List (Action n))
    (host : GoString) :
    (((reach c locks as).sends c host).card : Int) ≤ wrapCap c.cap := by
  have h := capInv_reach c locks as
  have hslots : ∀ k ∈ (reach c locks as).sends c host,
      ((reach c locks as).phase k).slot ∈ Finset.range (wrapCap c.cap).toNat := by
    intro k hk
    obtain ⟨_, session, slot, hphase⟩ := Cluster.mem_sends.mp hk
    rw [Finset.mem_range, hphase]
    exact (h.slot k session slot hphase).1
  have hcard := Finset.card_le_card_of_injOn _ hslots (h.slot_injOn host)
  have hpos := wrapCap_pos c.cap
  rw [Finset.card_range] at hcard
  omega

/-- Two calls for one host with one slot: the second one stays outside. -/
example :
    let c : CapConfig 2 :=
      { cap := 1, cfgHost := fun _ => goString "h", dst := fun _ => goString "d",
        urlHost := fun _ => none, hashtext := fun _ => 0 }
    let s := reach c (fun _ => none)
      [.acquireConn 0 (.ok 7), .probe 0, .acquireConn 1 (.ok 8), .probe 1]
    s.sends c (goString "h") = {0} ∧ (s.phase 1).isSending = false := by
  decide +kernel

end ImgSync.Hostcap
