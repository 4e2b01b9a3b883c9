import ImgSync.Hostcap.Bound

/-!
# The scan of `acquireSlot`

`acquireSlot` of `internal/hostcap/hostcap.go` probes the slots from a start
that depends on the destination, around the end and up to the start again.  It
returns at the first lock that it gets, and waits after a round without one.
Between two probes every other session may take and give back what it likes.

`Watched` is the cluster together with what the statements below are about: the
probes that a call has made since its round began, with the session that held
the key at that moment, and the lock table at which the call came into
`acquireSlot`.

* `startSlot_lt`: the two hashes never divide by zero while `cap` is below `2 ^ 31`.
* `probedSlot_perm`: the slots of a round are those below `cap`, each once.
* `ScanInv`: the probes of the round so far are the ones of the loop, each of
  them met another session, and the session of the call has the holds that it
  came with.
-/

namespace ImgSync.Hostcap

open ImgSync.Lib ImgSync.Queue

variable {n : Nat}

/-- A `pg_try_advisory_lock`, with the session that held the key. -/
structure Probe where
  slot : Nat
  holder : Option Nat

structure Watched (n : Nat) where
  cluster : Cluster n
  /-- The probes since the round of the call began. -/
  round : Fin n → List Probe
  /-- The lock table when the call came into `acquireSlot`. -/
  entry : Fin n → Locks Nat Int

def CapConfig.probe (c : CapConfig n) (s : Cluster n) (k : Fin n) (start i : Nat) : Probe :=
  let slot := probedSlot start i (wrapCap c.cap)
  { slot := slot, holder := (s.locks (c.lockKey (c.host k) slot)).map Prod.fst }

/-- A round begins when the call comes into `acquireSlot` and after a wait. -/
def Watched.nextRound (c : CapConfig n) (w : Watched n) : Action n → Fin n → List Probe
  | .acquireConn k _ =>
    Function.update w.round k
      (match w.cluster.phase k with
      | .start => []
      | _ => w.round k)
  | .probe k =>
    Function.update w.round k
      (match w.cluster.phase k with
      | .scanning _ start i => w.round k ++ [c.probe w.cluster k start i]
      | _ => w.round k)
  | .wake k =>
    Function.update w.round k
      (match w.cluster.phase k with
      | .waiting _ _ => []
      | _ => w.round k)
  | _ => w.round

def Watched.nextEntry (w : Watched n) : Action n → Fin n → Locks Nat Int
  | .acquireConn k _ =>
    Function.update w.entry k
      (match w.cluster.phase k with
      | .start => w.cluster.locks
      | _ => w.entry k)
  | _ => w.entry

def watch (c : CapConfig n) (w : Watched n) (a : Action n) : Watched n where
  cluster := step c w.cluster a
  round := w.nextRound c a
  entry := w.nextEntry a

/-- The run, watched from the same start as `reach`. -/
def watched (c : CapConfig n) (locks : Locks Nat Int) (as : List (Action n)) : Watched n :=
  as.foldl (watch c)
    { cluster := { locks := locks, phase := fun _ => .start }, round := fun _ => [],
      entry := fun _ => locks }

/-- What `acquireSlot` of the call returns in a step, and the session it used. -/
def slotAnswer (c : CapConfig n) (s : Cluster n) (k : Fin n) :
    Action n → Option (Nat × Except GoString Nat)
  | .probe j =>
    if j = k then
      match s.phase k with
      | .scanning session start i =>
        let slot := probedSlot start i (wrapCap c.cap)
        if (tryLock s.locks session (c.lockKey (c.host k) slot)).2 then some (session, .ok slot)
        else none
      | _ => none
    else none
  | .probeFails j err _ _ =>
    if j = k then
      match s.phase k with
      | .scanning session _ _ => some (session, .error (goString "hostcap: try lock: " ++ err))
      | _ => none
    else none
  | .cancel j err =>
    if j = k then
      match s.phase k with
      | .waiting session _ => some (session, .error err)
      | _ => none
    else none
  | _ => none

/-- A failed try-lock has acquired nothing. -/
def Action.takesNothing : Action n → Bool
  | .probeFails _ _ taken _ => !taken
  | _ => true

/-! ## The order of the probes -/

/-- `slotHash` with a divisor that is not zero modulo `2 ^ 32`. -/
theorem slotHash_lt (host dst : GoString) {cap : Int} (hdiv : cap % 2 ^ 32 ≠ 0) :
    ∃ slot, slotHash host dst cap = some slot ∧ (slot : Int) < cap % 2 ^ 32 := by
  have hnonneg := Int.emod_nonneg cap (by decide : (2 ^ 32 : Int) ≠ 0)
  have hpos : 0 < (cap % 2 ^ 32).toNat := by omega
  refine ⟨_, if_neg (Nat.pos_iff_ne_zero.mp hpos), ?_⟩
  exact Int.lt_toNat.mp (Nat.mod_lt (fnv32a (host ++ [0] ++ dst)).toNat hpos)

/-- `7 * cap + 13` is no multiple of `2 ^ 32` either: it would have to be the
fifth one, and is below the fourth. -/
theorem startSlot_lt (host dst : GoString) {cap : Int} (hpos : 1 ≤ cap) (hbound : cap < 2 ^ 31) :
    ∃ start, startSlot host dst cap = some start ∧ (start : Int) < cap := by
  have hcap : cap % 2 ^ 32 ≠ 0 := by omega
  have hjitter : (cap * 7 + 13) % 2 ^ 32 ≠ 0 := by
    intro hzero
    obtain ⟨k, hk⟩ := Int.dvd_of_emod_eq_zero hzero
    have hlow : 0 < k := by linarith
    have hhigh : k < 4 := by linarith
    clear hzero
    interval_cases k <;> omega
  obtain ⟨start, hstart, hlt⟩ := slotHash_lt host dst hcap
  obtain ⟨seed, hseed, -⟩ := slotHash_lt host (dst ++ goString "#jitter") hjitter
  refine ⟨start, ?_, by omega⟩
  unfold startSlot
  rw [hstart, hseed]
  rfl

/-- A whole round probes every slot once. -/
theorem probedSlot_perm (start : Nat) (cap : Int) :
    ((List.range cap.toNat).map fun i => probedSlot start i cap).Perm (List.range cap.toNat) := by
  have hnodup : ((List.range cap.toNat).map fun i => probedSlot start i cap).Nodup := by
    refine List.Nodup.map_on ?_ List.nodup_range
    intro i hi j hj heq
    have hmod : start + i ≡ start + j [MOD cap.toNat] := heq
    exact (hmod.add_left_cancel' start).eq_of_lt_of_lt (List.mem_range.mp hi) (List.mem_range.mp hj)
  have hsub : ((List.range cap.toNat).map fun i => probedSlot start i cap) ⊆
      List.range cap.toNat := by
    intro slot hslot
    obtain ⟨i, hi, rfl⟩ := List.mem_map.mp hslot
    have hlt := List.mem_range.mp hi
    exact List.mem_range.mpr (Nat.mod_lt _ (by omega))
  refine (hnodup.subperm hsub).perm_of_length_le ?_
  rw [List.length_map]

/-! ## What other sessions leave alone -/

section Frame

variable {c : CapConfig n} {s : Cluster n} {k : Fin n} {session : Nat}

/-- The call that takes the step. -/
def Action.call? : Action n → Option (Fin n)
  | .acquireConn k _ | .probe k | .probeFails k _ _ _ | .wake k | .cancel k _ | .innerReturns k _
  | .unlock k _ _ | .release k _ => some k
  | .otherLock _ _ | .otherUnlock _ _ | .otherEnds _ => none

/-- The session has the same holds in both tables. -/
def SameHolds (session : Nat) (t t' : Locks Nat Int) : Prop :=
  ∀ key, holdCount t' session key = holdCount t session key

theorem SameHolds.refl (session : Nat) (t : Locks Nat Int) : SameHolds session t t := fun _ => rfl

theorem SameHolds.trans {t t' u : Locks Nat Int} (h : SameHolds session t t')
    (h' : SameHolds session t' u) : SameHolds session t u := fun key => (h' key).trans (h key)

theorem sameHolds_closeIf {other : Nat} (hne : session ≠ other) (closed : Bool)
    (t : Locks Nat Int) : SameHolds session t (closeIf closed t other) := by
  unfold closeIf
  split
  · exact holdCount_endSession_of_ne hne t
  · exact .refl session t

/-- A call that moves on keeps the phases of the others. -/
theorem move_phase {j : Fin n} (hjk : k ≠ j) (t : Locks Nat Int) (p : Phase) :
    (s.move j t p).phase k = s.phase k := Function.update_of_ne hjk ..

theorem acquireConn_phase {j : Fin n} (hjk : k ≠ j) (conn : Except GoString Nat) :
    (s.acquireConn c j conn).phase k = s.phase k := by
  unfold Cluster.acquireConn
  split
  · exact move_phase hjk _ _
  · split
    · exact move_phase hjk _ _
    · split
      · split
        · exact move_phase hjk _ _
        · exact move_phase hjk _ _
      · rfl

theorem acquireConn_locks (k : Fin n) (conn : Except GoString Nat) :
    (s.acquireConn c k conn).locks = s.locks := by
  unfold Cluster.acquireConn
  split
  · rfl
  · split
    · rfl
    · split
      · split <;> rfl
      · rfl

theorem probe_phase {j : Fin n} (hjk : k ≠ j) (session start i : Nat) :
    (s.probe c j session start i).phase k = s.phase k := by
  unfold Cluster.probe
  dsimp only
  split
  · exact move_phase hjk _ _
  · split
    · exact move_phase hjk _ _
    · exact move_phase hjk _ _

theorem probe_locks (k : Fin n) (session start i : Nat) :
    (s.probe c k session start i).locks =
      (tryLock s.locks session (c.lockKey (c.host k) (probedSlot start i (wrapCap c.cap)))).1 := by
  unfold Cluster.probe
  dsimp only
  split
  · rfl
  · split <;> rfl

/-- A step of somebody else leaves a call its phase. -/
theorem step_phase {a : Action n} (ha : a.call? ≠ some k) : (step c s a).phase k = s.phase k := by
  cases a with
  | acquireConn j conn =>
    have hjk : k ≠ j := fun heq => ha (congrArg some heq.symm)
    simp only [step]
    split
    · exact acquireConn_phase hjk conn
    · rfl
  | probe j =>
    have hjk : k ≠ j := fun heq => ha (congrArg some heq.symm)
    simp only [step]
    split
    · exact probe_phase hjk _ _ _
    · rfl
  | probeFails j _ _ _ | wake j | cancel j _ | innerReturns j _ | unlock j _ _ | release j _ =>
    have hjk : k ≠ j := fun heq => ha (congrArg some heq.symm)
    simp only [step]
    split
    · exact move_phase hjk _ _
    · rfl
  | otherLock _ _ | otherUnlock _ _ | otherEnds _ =>
    simp only [step]
    split <;> rfl

/-- A step of somebody else leaves the session of a call its holds. -/
theorem step_holds (h : CapInv c s) (hk : (s.phase k).session? = some session) {a : Action n}
    (ha : a.call? ≠ some k) : SameHolds session s.locks (step c s a).locks := by
  -- Two calls have two sessions.
  have hown : ∀ (j : Fin n) (other : Nat), some j ≠ some k → (s.phase j).session? = some other →
      session ≠ other := by
    intro j other hjk hj heq
    rw [heq] at hk
    exact hjk (congrArg some (h.owner j k other hj hk))
  have hfree : ∀ other, s.unowned other = true → session ≠ other := by
    intro other hfree heq
    rw [heq] at hk
    exact Cluster.unowned_iff.mp hfree k hk
  cases a with
  | acquireConn j conn =>
    simp only [step]
    split
    · rw [acquireConn_locks]
      exact .refl _ _
    · exact .refl _ _
  | probe j =>
    simp only [step]
    split
    · rename_i other start i hj
      rw [probe_locks]
      exact holdCount_tryLock_of_ne (hown j other ha (by rw [hj]; rfl)) _ _
    · exact .refl _ _
  | probeFails j err taken closed =>
    simp only [step]
    split
    · rename_i other start i hj
      have hne := hown j other ha (by rw [hj]; rfl)
      refine SameHolds.trans ?_ (sameHolds_closeIf hne closed _)
      split
      · exact holdCount_tryLock_of_ne hne _ _
      · exact .refl _ _
    · exact .refl _ _
  | wake j | cancel j err | innerReturns j r =>
    simp only [step]
    split <;> exact .refl _ _
  | unlock j unlocked closed =>
    simp only [step]
    split
    · rename_i other slot r hj
      have hne := hown j other ha (by rw [hj]; rfl)
      refine SameHolds.trans ?_ (sameHolds_closeIf hne closed _)
      split
      · exact holdCount_unlock_of_ne hne _ _
      · exact .refl _ _
    · exact .refl _ _
  | release j closed =>
    simp only [step]
    split
    · rename_i other r hj
      exact sameHolds_closeIf (hown j other ha (by rw [hj]; rfl)) closed _
    · exact .refl _ _
  | otherLock other key =>
    simp only [step]
    split
    · rename_i hother
      exact holdCount_tryLock_of_ne (hfree other hother) _ _
    · exact .refl _ _
  | otherUnlock other key =>
    simp only [step]
    split
    · rename_i hother
      exact holdCount_unlock_of_ne (hfree other hother) _ _
    · exact .refl _ _
  | otherEnds other =>
    simp only [step]
    split
    · rename_i hother
      exact holdCount_endSession_of_ne (hfree other hother) _
    · exact .refl _ _

end Frame

/-! ## The round so far -/

section Round

variable {c : CapConfig n} {w : Watched n} {k : Fin n} {session start i : Nat}

theorem nextRound_of_ne {a : Action n} (ha : a.call? ≠ some k) :
    w.nextRound c a k = w.round k := by
  cases a with
  | acquireConn j _ | probe j | wake j =>
    have hjk : k ≠ j := fun heq => ha (congrArg some heq.symm)
    exact Function.update_of_ne hjk ..
  | _ => rfl

theorem nextEntry_of_ne {a : Action n} (ha : a.call? ≠ some k) : w.nextEntry a k = w.entry k := by
  cases a with
  | acquireConn j _ =>
    have hjk : k ≠ j := fun heq => ha (congrArg some heq.symm)
    exact Function.update_of_ne hjk ..
  | _ => rfl

/-- After `i` probes of a round without a lock. -/
structure Scanned (c : CapConfig n) (w : Watched n) (k : Fin n) (session start i : Nat) : Prop where
  round : (w.round k).map Probe.slot =
    (List.range i).map fun i => probedSlot start i (wrapCap c.cap)
  met : ∀ p ∈ w.round k, ∃ other, p.holder = some other ∧ other ≠ session
  holds : SameHolds session (w.entry k) w.cluster.locks

/-- A call in the loop is at the next probe, and a call in the `select` has
made all of them. -/
structure ScanAt (c : CapConfig n) (w : Watched n) (k : Fin n) : Prop where
  scanning : ∀ {session start i}, w.cluster.phase k = .scanning session start i →
    (i : Int) < wrapCap c.cap ∧ Scanned c w k session start i
  waiting : ∀ {session start}, w.cluster.phase k = .waiting session start →
    Scanned c w k session start (wrapCap c.cap).toNat

def Phase.scans : Phase → Bool
  | .scanning _ _ _ | .waiting _ _ => true
  | _ => false

theorem scanAt_of_not_scans (h : (w.cluster.phase k).scans = false) : ScanAt c w k where
  scanning := by
    intro _ _ _ hphase
    rw [hphase] at h
    cases h
  waiting := by
    intro _ _ hphase
    rw [hphase] at h
    cases h

/-- Nothing that the round of a call depends on has changed. -/
theorem ScanAt.of_same {w' : Watched n} (h : ScanAt c w k)
    (hphase : w'.cluster.phase k = w.cluster.phase k) (hround : w'.round k = w.round k)
    (hentry : w'.entry k = w.entry k)
    (hholds : ∀ session, (w.cluster.phase k).session? = some session →
      SameHolds session w.cluster.locks w'.cluster.locks) : ScanAt c w' k := by
  have hkeep : ∀ {session start i}, (w.cluster.phase k).session? = some session →
      Scanned c w k session start i → Scanned c w' k session start i := by
    intro session start i hsession hs
    refine ⟨hround ▸ hs.round, hround ▸ hs.met, ?_⟩
    rw [hentry]
    exact hs.holds.trans (hholds session hsession)
  refine ⟨?_, ?_⟩
  · intro session start i hk
    rw [hphase] at hk
    obtain ⟨hlt, hs⟩ := h.scanning hk
    exact ⟨hlt, hkeep (by rw [hk]; rfl) hs⟩
  · intro session start hk
    rw [hphase] at hk
    exact hkeep (by rw [hk]; rfl) (h.waiting hk)

theorem ScanAt.other (hcap : CapInv c w.cluster) (h : ScanAt c w k) {a : Action n}
    (ha : a.call? ≠ some k) : ScanAt c (watch c w a) k :=
  h.of_same (step_phase ha) (nextRound_of_ne ha) (nextEntry_of_ne ha)
    fun _ hk => step_holds hcap hk ha

/-- The call comes into the loop, for the first time or after a wait. -/
theorem scanAt_begin (hphase : w.cluster.phase k = .scanning session start 0)
    (hround : w.round k = []) (hholds : SameHolds session (w.entry k) w.cluster.locks) :
    ScanAt c w k where
  scanning := by
    intro session' start' i hk
    rw [hphase] at hk
    cases hk
    refine ⟨wrapCap_pos c.cap, ?_, ?_, hholds⟩
    · rw [hround]
      rfl
    · rw [hround]
      intro p hp
      cases hp
  waiting := by
    intro _ _ hk
    rw [hphase] at hk
    cases hk

/-- `acquireConn` ends before the scan, or at its first probe. -/
theorem acquireConn_own {s : Cluster n} (hstart : s.phase k = .start) (conn : Except GoString Nat) :
    ((s.acquireConn c k conn).phase k).scans = false ∨
      ∃ session start, (s.acquireConn c k conn).phase k = .scanning session start 0 := by
  have hmove : ∀ t p, (s.move k t p).phase k = p := fun t p => Function.update_self ..
  unfold Cluster.acquireConn
  split
  · rw [hmove]
    exact Or.inl rfl
  · split
    · rw [hmove]
      exact Or.inl rfl
    · split
      · split
        · rw [hmove]
          exact Or.inl rfl
        · rw [hmove]
          exact Or.inr ⟨_, _, rfl⟩
      · rw [hstart]
        exact Or.inl rfl

theorem ScanAt.acquireConn (h : ScanAt c w k) (conn : Except GoString Nat) :
    ScanAt c (watch c w (.acquireConn k conn)) k := by
  have hround : (watch c w (.acquireConn k conn)).round k = _ := Function.update_self ..
  have hentry : (watch c w (.acquireConn k conn)).entry k = _ := Function.update_self ..
  cases hstart : w.cluster.phase k with
  | start =>
    rw [hstart] at hround hentry
    have hcluster : (watch c w (.acquireConn k conn)).cluster =
        w.cluster.acquireConn c k conn := by
      simp only [watch, step, hstart]
    rcases acquireConn_own (c := c) hstart conn with hnot | ⟨session, start, hphase⟩
    · apply scanAt_of_not_scans
      rw [hcluster]
      exact hnot
    · refine scanAt_begin (hcluster ▸ hphase) hround ?_
      rw [hentry, hcluster, acquireConn_locks]
      exact .refl _ _
  | _ =>
    rw [hstart] at hround hentry
    have hcluster : (watch c w (.acquireConn k conn)).cluster = w.cluster := by
      simp only [watch, step, hstart]
    exact h.of_same (by rw [hcluster]) hround hentry (by rw [hcluster]; exact fun _ _ => .refl _ _)

theorem ScanAt.wake (h : ScanAt c w k) : ScanAt c (watch c w (.wake k)) k := by
  have hround : (watch c w (.wake k)).round k = _ := Function.update_self ..
  cases hphase : w.cluster.phase k with
  | waiting session start =>
    rw [hphase] at hround
    have hcluster : (watch c w (.wake k)).cluster =
        w.cluster.move k w.cluster.locks (.scanning session start 0) := by
      simp only [watch, step, hphase]
    have hnew : (watch c w (.wake k)).cluster.phase k = .scanning session start 0 := by
      rw [hcluster]
      exact Function.update_self ..
    refine scanAt_begin hnew hround ?_
    rw [hcluster]
    exact (h.waiting hphase).holds
  | _ =>
    rw [hphase] at hround
    have hcluster : (watch c w (.wake k)).cluster = w.cluster := by
      simp only [watch, step, hphase]
    exact h.of_same (by rw [hcluster]) hround rfl (by rw [hcluster]; exact fun _ _ => .refl _ _)

/-- A probe without success: one more slot of the round, whose key somebody
else holds. -/
theorem Scanned.next (h : Scanned c w k session start i)
    (hmiss : (tryLock w.cluster.locks session
      (c.lockKey (c.host k) (probedSlot start i (wrapCap c.cap)))).2 = false)
    {w' : Watched n} (hround : w'.round k = w.round k ++ [c.probe w.cluster k start i])
    (hentry : w'.entry k = w.entry k) (hlocks : w'.cluster.locks = w.cluster.locks) :
    Scanned c w' k session start (i + 1) := by
  obtain ⟨-, other, holds, hkey, hne⟩ := tryLock_not_got hmiss
  refine ⟨?_, ?_, ?_⟩
  · rw [hround, List.map_append, h.round, List.range_succ, List.map_append]
    rfl
  · rw [hround]
    intro p hp
    rcases List.mem_append.mp hp with hp | hp
    · exact h.met p hp
    · obtain rfl := List.mem_singleton.mp hp
      exact ⟨other, congrArg (Option.map Prod.fst) hkey, hne⟩
  · rw [hentry, hlocks]
    exact h.holds

theorem ScanAt.probe (h : ScanAt c w k) : ScanAt c (watch c w (.probe k)) k := by
  have hround : (watch c w (.probe k)).round k = _ := Function.update_self ..
  cases hphase : w.cluster.phase k with
  | scanning session start i =>
    rw [hphase] at hround
    obtain ⟨hlt, hs⟩ := h.scanning hphase
    have hcluster : (watch c w (.probe k)).cluster = w.cluster.probe c k session start i := by
      simp only [watch, step, hphase]
    have hlocks := probe_locks (c := c) (s := w.cluster) k session start i
    rw [← hcluster] at hlocks
    have hself : ∀ t p, (w.cluster.move k t p).phase k = p := fun t p => Function.update_self ..
    unfold Cluster.probe at hcluster
    dsimp only at hcluster
    split at hcluster
    · apply scanAt_of_not_scans
      rw [hcluster, hself]
      rfl
    · rename_i hmiss
      have hmiss' := Bool.eq_false_of_not_eq_true hmiss
      rw [(tryLock_not_got hmiss').1] at hlocks
      have hnext := hs.next hmiss' hround rfl hlocks
      split at hcluster
      · rename_i hmore
        refine ⟨?_, ?_⟩
        · intro session' start' i' hk
          rw [hcluster, hself] at hk
          cases hk
          exact ⟨hmore, hnext⟩
        · intro _ _ hk
          rw [hcluster, hself] at hk
          cases hk
      · rename_i hlast
        refine ⟨?_, ?_⟩
        · intro _ _ _ hk
          rw [hcluster, hself] at hk
          cases hk
        · intro session' start' hk
          rw [hcluster, hself] at hk
          cases hk
          have hcap : (wrapCap c.cap).toNat = i + 1 := by omega
          rw [hcap]
          exact hnext
  | _ =>
    rw [hphase] at hround
    have hcluster : (watch c w (.probe k)).cluster = w.cluster := by
      simp only [watch, step, hphase]
    exact h.of_same (by rw [hcluster]) hround rfl (by rw [hcluster]; exact fun _ _ => .refl _ _)

/-- The other steps of a call end its `acquireSlot`, or come after it. -/
theorem step_leaves {s : Cluster n} {a : Action n} (ha : a.call? = some k)
    (hnot : ∀ conn, a ≠ .acquireConn k conn) (hprobe : a ≠ .probe k) (hwake : a ≠ .wake k) :
    step c s a = s ∨ ((step c s a).phase k).scans = false := by
  have hself : ∀ t p, (s.move k t p).phase k = p := fun t p => Function.update_self ..
  cases a with
  | acquireConn j conn =>
    cases ha
    exact absurd rfl (hnot conn)
  | probe j =>
    cases ha
    exact absurd rfl hprobe
  | wake j =>
    cases ha
    exact absurd rfl hwake
  | probeFails j _ _ _ | cancel j _ | innerReturns j _ | unlock j _ _ | release j _ =>
    cases ha
    simp only [step]
    split
    · rw [hself]
      exact Or.inr rfl
    · exact Or.inl rfl
  | otherLock _ _ | otherUnlock _ _ | otherEnds _ => cases ha

theorem ScanAt.leave (h : ScanAt c w k) {a : Action n} (ha : a.call? = some k)
    (hnot : ∀ conn, a ≠ .acquireConn k conn) (hprobe : a ≠ .probe k) (hwake : a ≠ .wake k)
    (hround : w.nextRound c a = w.round) (hentry : w.nextEntry a = w.entry) :
    ScanAt c (watch c w a) k := by
  rcases step_leaves (c := c) (s := w.cluster) ha hnot hprobe hwake with hsame | hleft
  · have hcluster : (watch c w a).cluster = w.cluster := hsame
    refine h.of_same (by rw [hcluster]) (congrFun hround k) (congrFun hentry k) ?_
    rw [hcluster]
    exact fun _ _ => .refl _ _
  · exact scanAt_of_not_scans hleft

/-- What a run keeps. -/
structure ScanInv (c : CapConfig n) (w : Watched n) : Prop where
  cap : CapInv c w.cluster
  scan : ∀ k, ScanAt c w k

theorem ScanInv.step (h : ScanInv c w) (a : Action n) : ScanInv c (watch c w a) := by
  refine ⟨h.cap.step a, ?_⟩
  intro k
  by_cases ha : a.call? = some k
  · cases a with
    | acquireConn j conn =>
      cases ha
      exact (h.scan k).acquireConn conn
    | probe j =>
      cases ha
      exact (h.scan k).probe
    | wake j =>
      cases ha
      exact (h.scan k).wake
    | _ => exact (h.scan k).leave ha (by simp) (by simp) (by simp) rfl rfl
  · exact (h.scan k).other h.cap ha

theorem watched_inv (c : CapConfig n) (locks : Locks Nat Int) (as : List (Action n)) :
    ScanInv c (watched c locks as) :=
  foldl_invariant (ScanInv c) (fun _ a h => h.step a)
    ⟨capInv_reach c locks [], fun _ => scanAt_of_not_scans rfl⟩ as

/-! ## What `acquireSlot` returns -/

theorem ScanInv.got (h : ScanInv c w) {a : Action n} {slot : Nat}
    (hans : slotAnswer c w.cluster k a = some (session, .ok slot)) :
    slot < (wrapCap c.cap).toNat ∧
    ∀ key, holdCount (Hostcap.step c w.cluster a).locks session key =
      holdCount (w.entry k) session key +
        if key = c.lockKey (c.host k) slot then 1 else 0 := by
  cases a with
  | probe j =>
    simp only [slotAnswer] at hans
    split at hans
    · rename_i hj
      subst hj
      split at hans
      · rename_i session' start i hphase
        split at hans
        · rename_i hgot
          cases hans
          refine ⟨probedSlot_lt .., ?_⟩
          intro key
          simp only [Hostcap.step, hphase]
          rw [probe_locks, holdCount_tryLock_got hgot, ((h.scan j).scanning hphase).2.holds key]
        · cases hans
      · cases hans
    · cases hans
  | probeFails j _ _ _ | cancel j _ =>
    simp only [slotAnswer] at hans
    split at hans
    · split at hans <;> cases hans
    · cases hans
  | _ => cases hans

theorem holdCount_closeIf_le (closed : Bool) (t : Locks Nat Int) (session : Nat) (key : Int) :
    holdCount (closeIf closed t session) session key ≤ holdCount t session key := by
  unfold closeIf
  split
  · rw [holdCount_endSession_self]
    exact Nat.zero_le _
  · exact le_rfl

theorem ScanInv.failed (h : ScanInv c w) {a : Action n} {err : GoString}
    (htakes : a.takesNothing = true)
    (hans : slotAnswer c w.cluster k a = some (session, .error err)) (key : Int) :
    holdCount (Hostcap.step c w.cluster a).locks session key ≤
      holdCount (w.entry k) session key := by
  cases a with
  | probe j =>
    simp only [slotAnswer] at hans
    split at hans
    · split at hans
      · split at hans <;> cases hans
      · cases hans
    · cases hans
  | probeFails j err' taken closed =>
    simp only [slotAnswer] at hans
    split at hans
    · rename_i hj
      subst hj
      split at hans
      · rename_i session' start i hphase
        cases hans
        obtain rfl : taken = false := by simpa [Action.takesNothing] using htakes
        simp only [Hostcap.step, hphase]
        refine (holdCount_closeIf_le closed _ session key).trans ?_
        exact (((h.scan j).scanning hphase).2.holds key).le
      · cases hans
    · cases hans
  | cancel j err' =>
    simp only [slotAnswer] at hans
    split at hans
    · rename_i hj
      subst hj
      split at hans
      · rename_i session' start hphase
        cases hans
        simp only [Hostcap.step, hphase]
        exact (((h.scan j).waiting hphase).holds key).le
      · cases hans
    · cases hans
  | _ => cases hans

end Round

/-- The watched cluster is the cluster. -/
theorem watched_cluster (c : CapConfig n) (locks : Locks Nat Int) (as : List (Action n)) :
    (watched c locks as).cluster = reach c locks as :=
  (List.foldl_hom Watched.cluster fun _ _ => rfl).symm

/-- The scan of `acquireSlot`, for every destination, every lock table and every
run.  It does not panic.  A call that waits has probed every slot once in the
round behind it, and each key was held by another session then.  A slot that is
returned is below `cap` and its lock is one more hold of the session; after an
error the session has no hold that it did not come with. -/
theorem slot_scan (c : CapConfig n) (hpos : 1 ≤ c.cap) (hbound : c.cap < 2 ^ 31)
    (locks : Locks Nat Int) (as : List (Action n)) (k : Fin n) :
    (∃ start, startSlot (c.host k) (c.dst k) c.cap = some start ∧ (start : Int) < c.cap) ∧
    (∀ session start, (reach c locks as).phase k = .waiting session start →
      (((watched c locks as).round k).map Probe.slot).Perm (List.range c.cap.toNat) ∧
      ∀ p ∈ (watched c locks as).round k, ∃ other, p.holder = some other ∧ other ≠ session) ∧
    (∀ a session slot, slotAnswer c (reach c locks as) k a = some (session, .ok slot) →
      (slot : Int) < c.cap ∧
      ∀ key, holdCount (step c (reach c locks as) a).locks session key =
        holdCount ((watched c locks as).entry k) session key +
          if key = c.lockKey (c.host k) slot then 1 else 0) ∧
    (∀ a session err, a.takesNothing = true →
      slotAnswer c (reach c locks as) k a = some (session, .error err) →
      ∀ key, holdCount (step c (reach c locks as) a).locks session key ≤
        holdCount ((watched c locks as).entry k) session key) := by
  have hinv := watched_inv c locks as
  have hwrap : wrapCap c.cap = c.cap := if_neg (by omega)
  rw [← watched_cluster]
  refine ⟨startSlot_lt _ _ hpos hbound, ?_, ?_, ?_⟩
  · intro session start hphase
    have hs := (hinv.scan k).waiting hphase
    rw [hwrap] at hs
    refine ⟨?_, hs.met⟩
    rw [hs.round, hwrap]
    exact probedSlot_perm start c.cap
  · intro a session slot hans
    obtain ⟨hlt, hholds⟩ := hinv.got hans
    rw [hwrap] at hlt
    exact ⟨by omega, hholds⟩
  · intro a session err htakes hans
    exact hinv.failed htakes hans

/-- Two slots that another session holds. -/
def busyHost : CapConfig 1 where
  cap := 2
  cfgHost := fun _ => goString "h"
  dst := fun _ => goString "ftp://h/a"
  urlHost := fun _ => none
  hashtext := fun key => (key.map UInt8.toNat).sum

/-- The call meets the other session at both slots, and waits. -/
theorem slot_scan_busy_host :
    let as : List (Action 1) := [.acquireConn 0 (.ok 7), .probe 0, .probe 0]
    (reach busyHost (fun _ => some (9, 1)) as).phase 0 = .waiting 7 1 ∧
    (((watched busyHost (fun _ => some (9, 1)) as).round 0).map Probe.slot).Perm [0, 1] := by
  have hphase : (reach busyHost (fun _ => some (9, 1))
      [.acquireConn 0 (.ok 7), .probe 0, .probe 0]).phase 0 = .waiting 7 1 := by
    rfl
  exact ⟨hphase, ((slot_scan busyHost (by decide) (by decide) _ _ 0).2.1 7 1 hphase).1⟩

end ImgSync.Hostcap
