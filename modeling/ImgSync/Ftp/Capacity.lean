import ImgSync.Ftp.Pool

/-!
# The pool never exceeds its cap

`Capacity` is the invariant of one host.  `inUse` counts the calls that
occupy a slot, and every open connection is idle or owned by such a call.
Taking an idle connection does not look at the cap, so the bound is on
`inUse + len(idle)`, not on `inUse`.

`Capacity.replace` reduces a step to the one call that takes it; the lemmas
after it go through the sections of `Acquire`, `release` and `Close`.
-/

namespace ImgSync.Ftp

open ImgSync.Lib

/-- The bookkeeping of a host whose cap is `m`. -/
structure Capacity (m : Int) (closed : Bool) (s : Host) : Prop where
  inUse : s.inUse = s.calls.countP Phase.occupies
  cap : s.inUse + s.idle.length ≤ m
  /-- An open connection is idle or owned by one call. -/
  places : (s.idle.map IdleEntry.c ++ s.calls.filterMap Phase.conn?).Perm s.conns
  drained : closed = true → s.idle = []
  created : s.created = false → s.calls.countP Phase.occupies = 0

section Host

variable {cfg : PoolConfig} {m : Int} {closed : Bool} {s s' : Host} {i : Nat} {ph ph' : Phase}

theorem capacity_init (hm : 0 ≤ m) : Capacity m closed Host.init where
  inUse := rfl
  cap := by
    show (0 : Int) + 0 ≤ m
    omega
  places := List.Perm.nil
  drained := fun _ => rfl
  created := fun _ => rfl

/-- A step of one call.  `C` stands for the connections of the other
calls. -/
theorem Capacity.replace (h : Capacity m closed s) (hi : s.calls[i]? = some ph)
    (hcalls : s'.calls = s.calls.set i ph')
    (huse : s'.inUse + (if ph.occupies then 1 else 0) =
      s.inUse + (if ph'.occupies then 1 else 0))
    (hcap : s'.inUse + s'.idle.length ≤ m)
    (hplaces : ∀ C, (s.idle.map IdleEntry.c ++ (ph.conn?.toList ++ C)).Perm s.conns →
      (s'.idle.map IdleEntry.c ++ (ph'.conn?.toList ++ C)).Perm s'.conns)
    (hdrained : closed = true → s'.idle = [])
    (hcreated : s'.created = false → s.created = false ∧ ph'.occupies = false) :
    Capacity m closed s' := by
  have hold := countP_slot Phase.occupies hi
  have hnew := countP_set_slot Phase.occupies hi ph'
  have hinUse := h.inUse
  refine ⟨?_, hcap, ?_, hdrained, ?_⟩
  · rw [hcalls]
    split at hold <;> split at hnew <;> simp_all
  · rw [hcalls]
    have hslot := (filterMap_slot Phase.conn? hi).append_left (s.idle.map IdleEntry.c)
    have hset := (filterMap_set_slot Phase.conn? hi ph').append_left (s'.idle.map IdleEntry.c)
    exact hset.trans (hplaces _ (hslot.symm.trans h.places))
  · intro hc
    obtain ⟨hc, hocc⟩ := hcreated hc
    have hzero := h.created hc
    rw [hcalls]
    simp only [hocc, Bool.false_eq_true, if_false] at hnew
    omega

/-- A call that occupies a slot keeps the host in the map. -/
theorem Capacity.created_of_occupies (h : Capacity m closed s) (hi : s.calls[i]? = some ph)
    (hocc : ph.occupies = true) : s.created = true := by
  by_contra hcr
  have hzero := h.created (Bool.eq_false_of_not_eq_true hcr)
  rw [List.countP_eq_zero] at hzero
  exact hzero ph (List.mem_of_getElem? hi) hocc

/-- Waking a waiter touches the queue of waiters and the channels only. -/
theorem Capacity.wake (h : Capacity m closed s) : Capacity m closed s.wakeOneWaiter := by
  unfold Host.wakeOneWaiter
  split
  · exact h
  · exact ⟨h.inUse, h.cap, h.places, h.drained, h.created⟩

theorem scanIdle_spec (cfg : PoolConfig) (clock : Nat → Int) (l : List IdleEntry) :
    l.map IdleEntry.c = (scanIdle cfg clock l).1 ++
      (((scanIdle cfg clock l).2.1.map Prod.fst).toList ++
        (scanIdle cfg clock l).2.2.map IdleEntry.c) ∧
    ((scanIdle cfg clock l).2.1 = none → (scanIdle cfg clock l).2.2 = []) := by
  induction l generalizing clock with
  | nil => exact ⟨rfl, fun _ => rfl⟩
  | cons ie rest ih =>
    unfold scanIdle
    split
    · obtain ⟨hmap, hnone⟩ := ih fun k => clock (k + 1)
      exact ⟨congrArg (ie.c :: ·) hmap, hnone⟩
    · exact ⟨rfl, fun h => by cases h⟩

/-- Closing the front part of a list of connections leaves the rest. -/
theorem append_diff_left (dead X : List Nat) : (dead ++ X).diff dead = X := by
  induction dead with
  | nil => rfl
  | cons a dead ih => rw [List.cons_append, List.diff_cons, List.erase_cons_head, ih]

/-- The connections after the scan: what the scan closed is gone, and what
it took moves to the call. -/
theorem scan_places {dead taken C conns : List Nat} {idle left : List IdleEntry}
    (hmap : idle.reverse.map IdleEntry.c = dead ++ (taken ++ left.map IdleEntry.c))
    (h : (idle.map IdleEntry.c ++ C).Perm conns) :
    (left.reverse.map IdleEntry.c ++ (taken ++ C)).Perm (conns.diff dead) := by
  have hidle : (idle.map IdleEntry.c).Perm (dead ++ (taken ++ left.map IdleEntry.c)) := by
    rw [← hmap, List.map_reverse]
    exact (List.reverse_perm _).symm
  have hleft : (left.reverse.map IdleEntry.c).Perm (left.map IdleEntry.c) := by
    rw [List.map_reverse]
    exact List.reverse_perm _
  have hall : (dead ++ (taken ++ (left.map IdleEntry.c ++ C))).Perm conns := by
    refine List.Perm.trans ?_ h
    simpa [List.append_assoc] using (hidle.append_right C).symm
  have hdiff := hall.diff_right dead
  rw [append_diff_left] at hdiff
  refine List.Perm.trans ?_ hdiff
  refine (hleft.append_right _).trans ?_
  exact List.perm_append_comm_assoc ..

theorem Capacity.enter (h : Capacity cfg.maxPerHost closed s) (hi : s.calls[i]? = some ph)
    (hocc : ph.occupies = false) (hconn : ph.conn? = none) (clock : Nat → Int) :
    Capacity cfg.maxPerHost closed (s.enter cfg closed clock i) := by
  have hcap := h.cap
  unfold Host.enter
  split
  · refine h.replace hi rfl ?_ hcap ?_ h.drained ?_
    · rw [hocc]
      rfl
    · intro C hC
      rw [hconn] at hC
      exact hC
    · exact fun hc => ⟨hc, rfl⟩
  · rename_i hopen
    obtain ⟨hmap, hnone⟩ := scanIdle_spec cfg clock s.idle.reverse
    have hlen := congrArg List.length hmap
    simp only [List.length_map, List.length_reverse, List.length_append] at hlen
    split
    · rename_i dead c needsPing left heq
      simp only [heq, Option.map_some, Option.toList_some, List.length_singleton] at hmap hlen
      have hph : (if needsPing then Phase.pinging c else .holding c).occupies = true ∧
          (if needsPing then Phase.pinging c else .holding c).conn? = some c := by
        cases needsPing <;> exact ⟨rfl, rfl⟩
      refine h.replace hi rfl ?_ ?_ ?_ ?_ ?_
      · simp [hocc, hph.1]
      · simp only [List.length_reverse]
        omega
      · intro C hC
        simp only [hconn, Option.toList_none, List.nil_append] at hC
        rw [hph.2]
        exact scan_places hmap hC
      · exact fun hc => absurd hc hopen
      · exact fun hc => by cases hc
    · rename_i dead left heq
      simp only [heq, Option.map_none, Option.toList_none, List.nil_append] at hmap
      obtain rfl : left = [] := by simpa [heq] using hnone
      have hplaces : ∀ C, (s.idle.map IdleEntry.c ++ (ph.conn?.toList ++ C)).Perm s.conns →
          ([].map IdleEntry.c ++ ([] ++ C)).Perm (s.conns.diff dead) := by
        intro C hC
        simp only [hconn, Option.toList_none, List.nil_append] at hC
        have htaken : s.idle.reverse.map IdleEntry.c = dead ++ ([] ++ [].map IdleEntry.c) := by
          simpa using hmap
        exact scan_places htaken hC
      split
      · refine h.replace hi rfl ?_ ?_ hplaces (fun _ => rfl) ?_
        · rw [hocc]
          show s.inUse + 1 + 0 = s.inUse + 1
          omega
        · simp only [List.reverse_nil, List.length_nil]
          omega
        · exact fun hc => by cases hc
      · refine h.replace hi rfl ?_ ?_ hplaces (fun _ => rfl) ?_
        · rw [hocc]
          rfl
        · simp only [List.reverse_nil, List.length_nil]
          omega
        · exact fun hc => by cases hc

/-- A step that changes only the phase of the call, between two phases with
the same account. -/
theorem Capacity.setCall (h : Capacity m closed s) (hi : s.calls[i]? = some ph)
    (hocc : ph'.occupies = ph.occupies) (hconn : ph'.conn? = ph.conn?) :
    Capacity m closed (s.setCall i ph') := by
  refine h.replace hi rfl ?_ h.cap ?_ h.drained ?_
  · rw [hocc]
    rfl
  · intro C hC
    rw [hconn]
    exact hC
  · intro (hc : s.created = false)
    refine ⟨hc, hocc.trans (Bool.eq_false_of_not_eq_true fun hph => ?_)⟩
    rw [h.created_of_occupies hi hph] at hc
    cases hc

/-- Closing the connection that the call owns. -/
theorem quit_places {c : Nat} {I C conns : List Nat} (h : (I ++ ([c] ++ C)).Perm conns) :
    (I ++ ([] ++ C)).Perm (conns.erase c) := by
  have hfront : (c :: (I ++ C)).Perm conns := List.perm_middle.symm.trans h
  have herase := hfront.erase c
  rw [List.erase_cons_head] at herase
  exact herase

/-- A call that owns a connection closes it and keeps its slot. -/
theorem Capacity.quit {c : Nat} (h : Capacity m closed s) (hi : s.calls[i]? = some ph)
    (hold : ph.occupies = true) (hc : ph.conn? = some c) (hocc : ph'.occupies = true)
    (hconn : ph'.conn? = none) : Capacity m closed ((s.quit c).setCall i ph') := by
  refine h.replace hi rfl ?_ h.cap ?_ h.drained ?_
  · rw [hocc, hold]
    rfl
  · intro C hC
    rw [hc] at hC
    rw [hconn]
    exact quit_places hC
  · intro (hcr : s.created = false)
    rw [h.created_of_occupies hi hold] at hcr
    cases hcr

/-- A call gives its slot back after it has lost its connection. -/
theorem Capacity.freeSlot (h : Capacity m closed s) (hi : s.calls[i]? = some ph)
    (hold : ph.occupies = true) (hc : ph.conn? = none) (hocc : ph'.occupies = false)
    (hconn : ph'.conn? = none) : Capacity m closed (s.setCall i ph').freeSlot := by
  have hcap := h.cap
  apply Capacity.wake
  refine h.replace hi rfl ?_ ?_ ?_ h.drained ?_
  · rw [hocc, hold]
    show s.inUse - 1 + 1 = s.inUse + 0
    omega
  · show s.inUse - 1 + (s.idle.length : Int) ≤ m
    omega
  · intro C hC
    rw [hc] at hC
    rw [hconn]
    exact hC
  · exact fun hcr => ⟨hcr, hocc⟩

theorem Capacity.release {c : Nat} (h : Capacity m closed s)
    (hi : s.calls[i]? = some (.holding c)) (now : Int) (broken : Bool) :
    Capacity m closed ((s.setCall i .done).release closed now c broken) := by
  have hcap := h.cap
  unfold Host.release
  split
  · apply Capacity.wake
    split
    · refine h.replace hi rfl ?_ ?_ ?_ h.drained fun hcr => ⟨hcr, rfl⟩
      · show s.inUse - 1 + 1 = s.inUse + 0
        omega
      · show s.inUse - 1 + (s.idle.length : Int) ≤ m
        omega
      · exact fun C hC => quit_places hC
    · rename_i hkeep
      refine h.replace hi rfl ?_ ?_ ?_ ?_ fun hcr => ⟨hcr, rfl⟩
      · show s.inUse - 1 + 1 = s.inUse + 0
        omega
      · show s.inUse - 1 + ((s.idle ++ [_]).length : Int) ≤ m
        rw [List.length_append, List.length_singleton]
        omega
      · intro C hC
        show ((s.idle ++ [_]).map IdleEntry.c ++ ([] ++ C)).Perm s.conns
        rw [List.map_append, List.append_assoc]
        exact hC
      · intro hc
        simp [hc] at hkeep
  · rename_i hcr
    exact absurd (h.created_of_occupies hi rfl) hcr

theorem Capacity.evict (h : Capacity m closed s) (ch : Nat) : Capacity m closed (s.evict ch) := by
  unfold Host.evict
  split
  · split
    · exact ⟨h.inUse, h.cap, h.places, h.drained, h.created⟩
    · exact Capacity.wake ⟨h.inUse, h.cap, h.places, h.drained, h.created⟩
  · exact h

theorem Capacity.dial (h : Capacity m closed s) (hi : s.calls[i]? = some .dialing) :
    Capacity m closed
      { s with conns := s.nextConn :: s.conns, nextConn := s.nextConn + 1,
               calls := s.calls.set i (.loggingIn s.nextConn) } := by
  refine h.replace hi rfl rfl h.cap ?_ h.drained ?_
  · intro C hC
    exact List.perm_middle.trans (hC.cons s.nextConn)
  · intro (hcr : s.created = false)
    rw [h.created_of_occupies hi rfl] at hcr
    cases hcr

theorem Capacity.callStep (h : Capacity cfg.maxPerHost closed s) (hi : s.calls[i]? = some ph)
    (st : CallStep) : Capacity cfg.maxPerHost closed (s.callStep cfg closed i ph st) := by
  cases st with
  | enter clock => cases ph <;> first | exact h.enter hi rfl rfl clock | exact h
  | noop ok =>
    cases ph with
    | pinging c =>
      cases ok
      · exact h.quit hi rfl rfl rfl rfl
      · exact h.setCall hi rfl rfl
    | _ => exact h
  | dial ok =>
    cases ph with
    | dialing =>
      cases ok
      · exact h.setCall hi rfl rfl
      · exact h.dial hi
    | _ => exact h
  | login ok =>
    cases ph with
    | loggingIn c =>
      cases ok
      · exact h.quit hi rfl rfl rfl rfl
      · exact h.setCall hi rfl rfl
    | _ => exact h
  | unwind => cases ph <;> first | exact h.freeSlot hi rfl rfl rfl rfl | exact h
  | take =>
    cases ph with
    | parked ch =>
      show Capacity _ _ (if ch ∈ s.tokens then _ else s)
      split
      · have ht : Capacity cfg.maxPerHost closed { s with tokens := s.tokens.erase ch } :=
          ⟨h.inUse, h.cap, h.places, h.drained, h.created⟩
        exact ht.setCall hi rfl rfl
      · exact h
    | _ => exact h
  | cancel => cases ph <;> first | exact h.setCall hi rfl rfl | exact h
  | evict =>
    cases ph with
    | cancelling ch =>
      have hdone : Capacity cfg.maxPerHost closed (s.setCall i .done) := h.setCall hi rfl rfl
      exact hdone.evict ch
    | _ => exact h
  | release broken now => cases ph <;> first | exact h.release hi now broken | exact h

theorem Capacity.step (h : Capacity cfg.maxPerHost closed s) (a : HostAction) :
    Capacity cfg.maxPerHost closed (s.step cfg closed a) := by
  cases a with
  | acquire =>
    refine ⟨?_, h.cap, ?_, h.drained, ?_⟩
    · simpa [Host.step, Phase.occupies] using h.inUse
    · show (s.idle.map IdleEntry.c ++
        (s.calls ++ [Phase.entering]).filterMap Phase.conn?).Perm s.conns
      rw [List.filterMap_append]
      exact (List.append_nil (s.calls.filterMap Phase.conn?)).symm ▸ h.places
    · simpa [Host.step, Phase.occupies] using h.created
  | call i st =>
    cases hi : s.calls[i]? with
    | none =>
      rw [Host.step_call_none hi]
      exact h
    | some ph =>
      rw [Host.step_call hi]
      exact h.callStep hi st

theorem Capacity.close (h : Capacity m closed s) : Capacity m true s.close where
  inUse := h.inUse
  cap := by
    have hcap := h.cap
    show s.inUse + 0 ≤ m
    omega
  places := by
    have hdiff := h.places.diff_right (s.idle.map IdleEntry.c)
    rw [append_diff_left] at hdiff
    exact hdiff
  drained := fun _ => rfl
  created := h.created

/-- Every owned connection takes a slot, so the open connections are within
the count. -/
theorem Capacity.conns_le (h : Capacity m closed s) :
    (s.conns.length : Int) ≤ s.inUse + s.idle.length := by
  have hlen := h.places.length_eq
  rw [List.length_append, List.length_map] at hlen
  have howned : (s.calls.filterMap Phase.conn?).length ≤ s.calls.countP Phase.occupies := by
    induction s.calls with
    | nil => exact le_rfl
    | cons ph l ih =>
      rw [filterMap_cons_toList, List.length_append, List.countP_cons]
      have hone : ph.conn?.toList.length ≤ if ph.occupies then 1 else 0 := by
        cases ph <;> simp [Phase.conn?, Phase.occupies]
      omega
  have hinUse := h.inUse
  omega

end Host

/-! ## The pool -/

section Pool

variable {cfg : PoolConfig} {p : Pool}

/-- Every host keeps its bookkeeping. -/
def PoolCapacity (cfg : PoolConfig) (p : Pool) : Prop :=
  ∀ host, Capacity cfg.maxPerHost p.closed (p.hosts host)

theorem PoolCapacity.step (h : PoolCapacity cfg p) (a : Action) :
    PoolCapacity cfg (Ftp.step cfg p a) := by
  intro host
  rcases step_host cfg p a host with ⟨b, _, hc, hs⟩ | ⟨_, hc, hs⟩ | ⟨hc, hs⟩
  · rw [hc, hs]
    exact (h host).step b
  · rw [hc, hs]
    exact (h host).close
  · rw [hc, hs]
    exact h host

theorem newPool_maxPerHost_pos (cfg : PoolConfig) : 0 < (newPool cfg).maxPerHost := by
  show 0 < if cfg.maxPerHost ≤ 0 then 4 else cfg.maxPerHost
  split <;> omega

theorem reach_capacity (cfg : PoolConfig) (as : List Action) :
    PoolCapacity (newPool cfg) (reach cfg as) :=
  foldl_invariant (PoolCapacity (newPool cfg)) (fun _ a h => h.step a)
    (fun _ => capacity_init (newPool_maxPerHost_pos cfg).le) as

/-- `closed` is never reset. -/
theorem step_closed (a : Action) (h : p.closed = true) : (step cfg p a).closed = true := by
  cases a with
  | onHost host a => exact h
  | close => rfl

end Pool

/-- The cap of the pool in every state that a run reaches, and the empty idle
lists in every state after a `Close`. -/
theorem pool_capacity (cfg : PoolConfig) (as bs : List Action) (host : String) :
    0 ≤ ((reach cfg as).hosts host).inUse ∧
    ((reach cfg as).hosts host).inUse + ((reach cfg as).hosts host).idle.length ≤
      (newPool cfg).maxPerHost ∧
    (((reach cfg as).hosts host).conns.length : Int) ≤
      ((reach cfg as).hosts host).inUse + ((reach cfg as).hosts host).idle.length ∧
    ((reach cfg (as ++ .close :: bs)).hosts host).idle = [] := by
  have hcap := reach_capacity cfg as host
  refine ⟨?_, hcap.cap, hcap.conns_le, ?_⟩
  · rw [hcap.inUse]
    exact Int.natCast_nonneg _
  · have hclosed : (reach cfg (as ++ .close :: bs)).closed = true := by
      show ((as ++ .close :: bs).foldl (step (newPool cfg)) Pool.init).closed = true
      rw [List.foldl_append, List.foldl_cons]
      exact foldl_invariant (fun p : Pool => p.closed = true) (fun _ a h => step_closed a h) rfl bs
    exact (reach_capacity cfg (as ++ .close :: bs) host).drained hclosed

end ImgSync.Ftp
