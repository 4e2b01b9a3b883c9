import ImgSync.Ftp.Capacity

/-!
# Every connection has one owner

`Capacity.places` accounts for the open connections of a host: each is idle or
belongs to a call.  Here the account becomes exact, because no connection is
listed twice, and permanent, because the number of a closed connection is not
given out again.

There are three groups.

* What one step does to the connections.  `Host.step_conns` says how the open
  connections change, and `Host.step_moves` where a call gets a connection and
  where an idle entry gets it from.  No later proof looks into the steps.
* Connections that are gone.  `Discards` lists the ways in which the pool
  closes a connection for good, and `Host.Gone` is what they leave behind.
* Connections that are too old.  A scan closes an expired entry only when it
  gets to it, so `Host.Stale` follows an entry that is expired but still idle.
-/

namespace ImgSync.Ftp

open ImgSync.Lib

/-- The connections that calls and handles of the host own. -/
def Host.owned (s : Host) : List Nat := s.calls.filterMap Phase.conn?

/-- Where the connections of the host are: one entry for each place. -/
def Host.places (s : Host) : List Nat := s.idle.map IdleEntry.c ++ s.owned

/-- The call, or the handle that it returned, owns the connection. -/
def Host.Owns (s : Host) (i c : Nat) : Prop := ∃ ph, s.calls[i]? = some ph ∧ ph.conn? = some c

section Steps

variable {cfg : PoolConfig} {closed : Bool} {s : Host} {i c : Nat} {ph : Phase}

theorem Host.mem_owned : c ∈ s.owned ↔ ∃ i, s.Owns i c := by
  unfold Host.owned Host.Owns
  rw [List.mem_filterMap]
  constructor
  · rintro ⟨ph, hph, hc⟩
    obtain ⟨i, hi⟩ := List.mem_iff_getElem?.mp hph
    exact ⟨i, ph, hi, hc⟩
  · rintro ⟨i, ph, hi, hc⟩
    exact ⟨ph, List.mem_of_getElem? hi, hc⟩

/-- A connection that is owned after one call has changed its phase. -/
theorem owned_set {l : List Phase} (h : c ∈ (l.set i ph).filterMap Phase.conn?) :
    c ∈ l.filterMap Phase.conn? ∨ ph.conn? = some c := by
  obtain ⟨ph', hph', hc⟩ := List.mem_filterMap.mp h
  rcases List.mem_or_eq_of_mem_set hph' with hmem | rfl
  · exact Or.inl (List.mem_filterMap.mpr ⟨ph', hmem, hc⟩)
  · exact Or.inr hc

/-! ## What one step does to the connections -/

/-- Waking a waiter leaves the connections alone. -/
theorem wakeOneWaiter_conns (s : Host) :
    s.wakeOneWaiter.conns = s.conns ∧ s.wakeOneWaiter.nextConn = s.nextConn ∧
      s.wakeOneWaiter.idle = s.idle := by
  unfold Host.wakeOneWaiter
  split <;> exact ⟨rfl, rfl, rfl⟩

theorem freeSlot_conns (s : Host) :
    s.freeSlot.conns = s.conns ∧ s.freeSlot.nextConn = s.nextConn ∧ s.freeSlot.idle = s.idle :=
  wakeOneWaiter_conns _

/-- What the steps do to the open connections: some are closed, or a new one
is opened. -/
def ConnStep (s s' : Host) : Prop :=
  s'.conns.Sublist s.conns ∧ s'.nextConn = s.nextConn ∨
    s'.conns = s.nextConn :: s.conns ∧ s'.nextConn = s.nextConn + 1

theorem ConnStep.same {s' : Host} (hc : s'.conns = s.conns) (hn : s'.nextConn = s.nextConn) :
    ConnStep s s' :=
  Or.inl ⟨by rw [hc], hn⟩

theorem ConnStep.enter (clock : Nat → Int) : ConnStep s (s.enter cfg closed clock i) := by
  unfold Host.enter
  split
  · exact .same rfl rfl
  · split
    · exact Or.inl ⟨List.diff_sublist _ _, rfl⟩
    · split
      · exact Or.inl ⟨List.diff_sublist _ _, rfl⟩
      · exact Or.inl ⟨List.diff_sublist _ _, rfl⟩

theorem ConnStep.evict (ch : Nat) : ConnStep s (s.evict ch) := by
  unfold Host.evict
  split
  · split
    · exact .same rfl rfl
    · obtain ⟨hc, hn, _⟩ := wakeOneWaiter_conns { s with tokens := s.tokens.erase ch }
      exact .same hc hn
  · exact .same rfl rfl

theorem ConnStep.freeSlot {s' : Host} (h : ConnStep s s') : ConnStep s s'.freeSlot := by
  obtain ⟨hc, hn, _⟩ := freeSlot_conns s'
  unfold ConnStep at *
  rw [hc, hn]
  exact h

theorem ConnStep.release (now : Int) (broken : Bool) :
    ConnStep s (s.release closed now c broken) := by
  have hquit : ConnStep s (s.quit c) := Or.inl ⟨List.erase_sublist .., rfl⟩
  unfold Host.release
  split
  · apply ConnStep.freeSlot
    split
    · exact hquit
    · exact .same rfl rfl
  · exact hquit

theorem ConnStep.callStep (st : CallStep) : ConnStep s (s.callStep cfg closed i ph st) := by
  have hid : ConnStep s s := .same rfl rfl
  have hset : ∀ ph', ConnStep s (s.setCall i ph') := fun _ => .same rfl rfl
  have hquit : ∀ c ph', ConnStep s ((s.quit c).setCall i ph') :=
    fun _ _ => Or.inl ⟨List.erase_sublist .., rfl⟩
  cases st with
  | enter clock => cases ph <;> first | exact ConnStep.enter clock | exact hid
  | noop ok =>
    cases ph with
    | pinging c =>
      cases ok
      · exact hquit c _
      · exact hset _
    | _ => exact hid
  | dial ok =>
    cases ph with
    | dialing =>
      cases ok
      · exact hset _
      · exact Or.inr ⟨rfl, rfl⟩
    | _ => exact hid
  | login ok =>
    cases ph with
    | loggingIn c =>
      cases ok
      · exact hquit c _
      · exact hset _
    | _ => exact hid
  | unwind => cases ph <;> first | exact (hset _).freeSlot | exact hid
  | take =>
    cases ph with
    | parked ch =>
      show ConnStep s (if ch ∈ s.tokens then _ else s)
      split
      · exact .same rfl rfl
      · exact hid
    | _ => exact hid
  | cancel => cases ph <;> first | exact hset _ | exact hid
  | evict =>
    cases ph with
    | cancelling ch => exact @ConnStep.evict (s.setCall i .done) ch
    | _ => exact hid
  | release broken now =>
    cases ph with
    | holding c => exact @ConnStep.release closed (s.setCall i .done) c now broken
    | _ => exact hid

theorem Host.step_conns (a : HostAction) : ConnStep s (s.step cfg closed a) := by
  cases a with
  | acquire => exact .same rfl rfl
  | call i st =>
    cases hi : s.calls[i]? with
    | none =>
      rw [Host.step_call_none hi]
      exact .same rfl rfl
    | some ph =>
      rw [Host.step_call hi]
      exact ConnStep.callStep st

/-- The connection that a scan takes is that of an entry that is not expired,
and the entries that stay were there. -/
theorem scanIdle_taken (clock : Nat → Int) (l : List IdleEntry) :
    (∀ c needsPing, (scanIdle cfg clock l).2.1 = some (c, needsPing) →
      ∃ k, ∃ ie ∈ l, ie.c = c ∧ clock k - ie.enqueue ≤ cfg.idleTTL) ∧
    ∀ ie ∈ (scanIdle cfg clock l).2.2, ie ∈ l := by
  induction l generalizing clock with
  | nil =>
    refine ⟨?_, fun _ h => h⟩
    intro c needsPing h
    cases h
  | cons ie rest ih =>
    unfold scanIdle
    split
    · obtain ⟨htaken, hleft⟩ := ih fun k => clock (k + 1)
      refine ⟨?_, fun e he => List.mem_cons_of_mem _ (hleft e he)⟩
      intro c needsPing h
      obtain ⟨k, e, he, hc, hage⟩ := htaken c needsPing h
      exact ⟨k + 1, e, List.mem_cons_of_mem _ he, hc, hage⟩
    · rename_i hfresh
      refine ⟨?_, fun e he => List.mem_cons_of_mem _ he⟩
      intro c needsPing h
      obtain ⟨rfl, _⟩ := Prod.mk.inj (Option.some.inj h)
      exact ⟨0, ie, List.mem_cons_self, rfl, not_lt.mp hfresh⟩

/-- Where a call gets a connection from: it dials, or takes an idle entry that
is not expired when it looks. -/
def Takes (cfg : PoolConfig) (s : Host) (c : Nat) (a : HostAction) : Prop :=
  c = s.nextConn ∨ ∃ i clock k, a = .call i (.enter clock) ∧
    ∃ ie ∈ s.idle, ie.c = c ∧ clock k - ie.enqueue ≤ cfg.idleTTL

/-- Where the connections of the calls and the idle entries come from in one
step. -/
structure Moves (cfg : PoolConfig) (s : Host) (a : HostAction) (s' : Host) : Prop where
  owned : ∀ c ∈ s'.owned, c ∈ s.owned ∨ Takes cfg s c a
  idle : ∀ ie ∈ s'.idle, ie ∈ s.idle ∨ ie.c ∈ s.owned

theorem Moves.refl (a : HostAction) : Moves cfg s a s :=
  ⟨fun _ => Or.inl, fun _ => Or.inl⟩

/-- One call changes its phase. -/
theorem Moves.set {a : HostAction} {s' : Host} {ph' : Phase}
    (hcalls : s'.calls = s.calls.set i ph')
    (hconn : ∀ c, ph'.conn? = some c → c ∈ s.owned ∨ Takes cfg s c a)
    (hidle : ∀ ie ∈ s'.idle, ie ∈ s.idle ∨ ie.c ∈ s.owned) : Moves cfg s a s' := by
  refine ⟨?_, hidle⟩
  intro c hc
  unfold Host.owned at hc
  rw [hcalls] at hc
  rcases owned_set hc with hold | hnew
  · exact Or.inl hold
  · exact hconn c hnew

theorem Moves.enter {a : HostAction} (clock : Nat → Int) (ha : a = .call i (.enter clock)) :
    Moves cfg s a (s.enter cfg closed clock i) := by
  obtain ⟨htaken, hleft⟩ := @scanIdle_taken cfg clock s.idle.reverse
  have hidle : ∀ ie ∈ (scanIdle cfg clock s.idle.reverse).2.2.reverse,
      ie ∈ s.idle ∨ ie.c ∈ s.owned := by
    intro ie hie
    exact Or.inl (List.mem_reverse.mp (hleft ie (List.mem_reverse.mp hie)))
  unfold Host.enter
  split
  · exact .set rfl (by simp [Phase.conn?]) fun _ => Or.inl
  · split
    · rename_i dead c needsPing left heq
      rw [heq] at htaken hidle
      refine .set rfl ?_ hidle
      intro c' hc'
      obtain rfl : c = c' := by
        cases needsPing <;> exact Option.some.inj hc'
      obtain ⟨k, ie, hie, hc, hage⟩ := htaken c needsPing rfl
      exact Or.inr (Or.inr ⟨i, clock, k, ha, ie, List.mem_reverse.mp hie, hc, hage⟩)
    · rename_i dead left heq
      rw [heq] at hidle
      split
      · exact .set rfl (by simp [Phase.conn?]) hidle
      · exact .set rfl (by simp [Phase.conn?]) hidle

/-- The idle list after a release has at most the released connection more. -/
theorem release_idle (now : Int) (broken : Bool) {ie : IdleEntry}
    (h : ie ∈ (s.release closed now c broken).idle) : ie ∈ s.idle ∨ ie.c = c := by
  unfold Host.release at h
  split at h
  · rw [(freeSlot_conns _).2.2] at h
    split at h
    · exact Or.inl h
    · rcases List.mem_append.mp h with h | h
      · exact Or.inl h
      · obtain rfl := List.mem_singleton.mp h
        exact Or.inr rfl
  · exact Or.inl h

theorem evict_idle (ch : Nat) : (s.evict ch).idle = s.idle := by
  unfold Host.evict
  split
  · split
    · rfl
    · exact (wakeOneWaiter_conns _).2.2
  · rfl

theorem Moves.callStep (hi : s.calls[i]? = some ph) (st : CallStep) :
    Moves cfg s (.call i st) (s.callStep cfg closed i ph st) := by
  have hid : Moves cfg s (.call i st) s := .refl _
  have hown : ∀ c, ph.conn? = some c → c ∈ s.owned :=
    fun c hc => Host.mem_owned.mpr ⟨i, ph, hi, hc⟩
  cases st with
  | enter clock => cases ph <;> first | exact Moves.enter clock rfl | exact hid
  | noop ok =>
    cases ph with
    | pinging c =>
      cases ok
      · exact .set rfl (by simp [Phase.conn?]) fun _ => Or.inl
      · exact .set rfl (fun c' hc' => Or.inl (hown c' hc')) fun _ => Or.inl
    | _ => exact hid
  | dial ok =>
    cases ph with
    | dialing =>
      cases ok
      · exact .set rfl (by simp [Phase.conn?]) fun _ => Or.inl
      · refine .set rfl ?_ fun _ => Or.inl
        intro c' hc'
        exact Or.inr (Or.inl (Option.some.inj hc').symm)
    | _ => exact hid
  | login ok =>
    cases ph with
    | loggingIn c =>
      cases ok
      · exact .set rfl (by simp [Phase.conn?]) fun _ => Or.inl
      · exact .set rfl (fun c' hc' => Or.inl (hown c' hc')) fun _ => Or.inl
    | _ => exact hid
  | unwind =>
    have hfree : ∀ ph', ph'.conn? = none →
        Moves cfg s (.call i .unwind) (s.setCall i ph').freeSlot := by
      intro ph' hnone
      refine .set (freeSlot_calls _) ?_ ?_
      · intro c hc
        rw [hnone] at hc
        cases hc
      · intro ie hie
        rw [(freeSlot_conns _).2.2] at hie
        exact Or.inl hie
    cases ph <;> first | exact hfree _ rfl | exact hid
  | take =>
    cases ph with
    | parked ch =>
      show Moves _ _ _ (if ch ∈ s.tokens then _ else s)
      split
      · exact .set rfl (by simp [Phase.conn?]) fun _ => Or.inl
      · exact hid
    | _ => exact hid
  | cancel =>
    cases ph <;> first | exact .set rfl (by simp [Phase.conn?]) fun _ => Or.inl | exact hid
  | evict =>
    cases ph with
    | cancelling ch =>
      refine .set (evict_calls _ _) (by simp [Phase.conn?]) ?_
      intro ie hie
      have hidle : ((s.setCall i .done).evict ch).idle = s.idle := evict_idle ch
      exact Or.inl (hidle ▸ hie)
    | _ => exact hid
  | release broken now =>
    cases ph with
    | holding c =>
      refine .set (release_calls _ _ _ _) (by simp [Phase.conn?]) ?_
      intro ie hie
      rcases release_idle now broken hie with hold | rfl
      · exact Or.inl hold
      · exact Or.inr (hown _ rfl)
    | _ => exact hid

theorem Host.step_moves (a : HostAction) : Moves cfg s a (s.step cfg closed a) := by
  cases a with
  | acquire =>
    refine ⟨?_, fun _ => Or.inl⟩
    intro c hc
    unfold Host.owned Host.step at hc
    rw [List.filterMap_append] at hc
    exact Or.inl ((List.mem_append.mp hc).resolve_right List.not_mem_nil)
  | call i st =>
    cases hi : s.calls[i]? with
    | none =>
      rw [Host.step_call_none hi]
      exact .refl _
    | some ph =>
      rw [Host.step_call hi]
      exact Moves.callStep hi st

/-! ## Connections that are gone -/

/-- No open connection is listed twice, and every number is from the past. -/
structure Fresh (s : Host) : Prop where
  nodup : s.conns.Nodup
  past : ∀ c ∈ s.conns, c < s.nextConn

theorem Fresh.connStep {s' : Host} (h : Fresh s) (hs : ConnStep s s') : Fresh s' := by
  rcases hs with ⟨hsub, hnext⟩ | ⟨hconns, hnext⟩
  · refine ⟨h.nodup.sublist hsub, ?_⟩
    intro c hc
    rw [hnext]
    exact h.past c (hsub.subset hc)
  · refine ⟨?_, ?_⟩
    · rw [hconns, List.nodup_cons]
      exact ⟨fun hmem => lt_irrefl _ (h.past _ hmem), h.nodup⟩
    · intro c hc
      rw [hconns] at hc
      rw [hnext]
      rcases List.mem_cons.mp hc with rfl | hc
      · exact Nat.lt_succ_self _
      · exact Nat.lt_succ_of_lt (h.past c hc)

/-- The connection was open once and is closed. -/
def Host.Gone (s : Host) (c : Nat) : Prop := c < s.nextConn ∧ c ∉ s.conns

theorem Host.Gone.connStep {s' : Host} (h : s.Gone c) (hs : ConnStep s s') : s'.Gone c := by
  obtain ⟨hlt, hnot⟩ := h
  rcases hs with ⟨hsub, hnext⟩ | ⟨hconns, hnext⟩
  · exact ⟨hnext ▸ hlt, fun hc => hnot (hsub.subset hc)⟩
  · refine ⟨by omega, ?_⟩
    intro hc
    rw [hconns] at hc
    rcases List.mem_cons.mp hc with rfl | hc
    · exact lt_irrefl _ hlt
    · exact hnot hc

/-- The steps with which the pool closes the connection `c` for good: it is
released as broken, it is released after `Close`, it fails its NOOP, or a scan
finds it expired. -/
inductive Discards (cfg : PoolConfig) (closed : Bool) (s : Host) (c : Nat) : HostAction → Prop where
  | broken {i : Nat} (now : Int) (hi : s.calls[i]? = some (.holding c)) :
      Discards cfg closed s c (.call i (.release true now))
  | afterClose {i : Nat} (broken : Bool) (now : Int) (hclosed : closed = true)
      (hi : s.calls[i]? = some (.holding c)) :
      Discards cfg closed s c (.call i (.release broken now))
  | noopFailed {i : Nat} (hi : s.calls[i]? = some (.pinging c)) :
      Discards cfg closed s c (.call i (.noop false))
  | expired {i : Nat} {ph : Phase} (clock : Nat → Int) (hopen : closed = false)
      (hi : s.calls[i]? = some ph) (hph : ph = .entering ∨ ph = .woken)
      (hc : c ∈ (scanIdle cfg clock s.idle.reverse).1) :
      Discards cfg closed s c (.call i (.enter clock))

variable {m : Int}

theorem Capacity.perm_places (h : Capacity m closed s) : s.places.Perm s.conns := h.places

theorem Capacity.mem_conns (h : Capacity m closed s) (hi : s.calls[i]? = some ph)
    (hc : ph.conn? = some c) : c ∈ s.conns :=
  h.perm_places.mem_iff.mp (List.mem_append_right _ (Host.mem_owned.mpr ⟨i, ph, hi, hc⟩))

/-- Releasing a connection as broken or after `Close` closes it. -/
theorem Host.Gone.of_release (hfresh : Fresh s) (hmem : c ∈ s.conns) (now : Int) {broken : Bool}
    (h : (broken || closed) = true) : (s.release closed now c broken).Gone c := by
  have hquit : c ∉ s.conns.erase c := hfresh.nodup.not_mem_erase
  have hlt := hfresh.past c hmem
  unfold Host.release
  split
  · obtain ⟨hconns, hnext, _⟩ := freeSlot_conns (s.quit c)
    unfold Host.Gone
    rw [hconns, hnext]
    exact ⟨hlt, hquit⟩
  · exact ⟨hlt, hquit⟩

/-- The connections that the scan of `Acquire` closes. -/
theorem Host.Gone.of_enter (hfresh : Fresh s) (hcap : Capacity m closed s) (hopen : closed = false)
    {clock : Nat → Int} (hc : c ∈ (scanIdle cfg clock s.idle.reverse).1) :
    (s.enter cfg closed clock i).Gone c := by
  have hmem : c ∈ s.conns := by
    obtain ⟨hmap, _⟩ := scanIdle_spec cfg clock s.idle.reverse
    have hidle : c ∈ s.idle.reverse.map IdleEntry.c := by
      rw [hmap]
      exact List.mem_append_left _ hc
    rw [List.map_reverse, List.mem_reverse] at hidle
    exact hcap.perm_places.mem_iff.mp (List.mem_append_left _ hidle)
  have hlt := hfresh.past c hmem
  have hnot : c ∉ s.conns.diff (scanIdle cfg clock s.idle.reverse).1 := by
    rw [hfresh.nodup.mem_sdiff_iff]
    exact fun h => h.2 hc
  unfold Host.enter
  rw [if_neg (by simp [hopen])]
  split
  · rename_i heq
    rw [heq] at hnot
    exact ⟨hlt, hnot⟩
  · rename_i heq
    rw [heq] at hnot
    split
    · exact ⟨hlt, hnot⟩
    · exact ⟨hlt, hnot⟩

theorem Discards.gone {a : HostAction} (h : Discards cfg closed s c a) (hfresh : Fresh s)
    (hcap : Capacity m closed s) : (s.step cfg closed a).Gone c := by
  cases h with
  | broken now hi =>
    rw [Host.step_call hi]
    exact @Host.Gone.of_release closed (s.setCall _ .done) c ⟨hfresh.nodup, hfresh.past⟩
      (hcap.mem_conns hi rfl) now true rfl
  | afterClose broken now hclosed hi =>
    rw [Host.step_call hi]
    exact @Host.Gone.of_release closed (s.setCall _ .done) c ⟨hfresh.nodup, hfresh.past⟩
      (hcap.mem_conns hi rfl) now broken (by rw [hclosed, Bool.or_true])
  | noopFailed hi =>
    rw [Host.step_call hi]
    exact ⟨hfresh.past c (hcap.mem_conns hi rfl), hfresh.nodup.not_mem_erase⟩
  | expired clock hopen hi hph hc =>
    rw [Host.step_call hi]
    rcases hph with rfl | rfl
    · exact Host.Gone.of_enter hfresh hcap hopen hc
    · exact Host.Gone.of_enter hfresh hcap hopen hc

theorem Host.Gone.not_owns (h : s.Gone c) (hcap : Capacity m closed s) (i : Nat) : ¬s.Owns i c :=
  fun ⟨_, hi, hc⟩ => h.2 (hcap.mem_conns hi hc)

/-! ## Connections that are too old -/

/-- Every idle entry of the connection is expired at the instant `T`, and no
call owns the connection. -/
structure Host.Stale (cfg : PoolConfig) (T : Int) (c : Nat) (s : Host) : Prop where
  past : c < s.nextConn
  expired : ∀ ie ∈ s.idle, ie.c = c → T - ie.enqueue > cfg.idleTTL
  unowned : c ∉ s.owned

/-- The clock of the step does not read less than `T`. -/
def HostAction.After (T : Int) : HostAction → Prop
  | .call _ (.enter clock) => ∀ k, T ≤ clock k
  | _ => True

theorem Host.Stale.step {T : Int} (h : s.Stale cfg T c) {a : HostAction} (ha : a.After T) :
    (s.step cfg closed a).Stale cfg T c := by
  have hmoves := @Host.step_moves cfg closed s a
  refine ⟨?_, ?_, ?_⟩
  · have hlt := h.past
    rcases @Host.step_conns cfg closed s a with ⟨_, hnext⟩ | ⟨_, hnext⟩ <;> omega
  · intro ie hie hc
    rcases hmoves.idle ie hie with hold | hown
    · exact h.expired ie hold hc
    · exact absurd (hc ▸ hown) h.unowned
  · intro hown
    rcases hmoves.owned c hown with hold | hdial | ⟨i, clock, k, rfl, ie, hie, hc, hage⟩
    · exact h.unowned hold
    · exact (hdial ▸ h.past).ne rfl
    · have hk : T ≤ clock k := ha k
      have hexp := h.expired ie hie hc
      omega

theorem Host.Stale.close {T : Int} (h : s.Stale cfg T c) : s.close.Stale cfg T c where
  past := h.past
  expired := by
    intro ie hie
    cases hie
  unowned := h.unowned

/-- An expired entry of the idle list. -/
theorem stale_of_idle (hfresh : Fresh s) (hcap : Capacity m closed s) {ie : IdleEntry}
    (hie : ie ∈ s.idle) {T : Int} (hage : T - ie.enqueue > cfg.idleTTL) :
    s.Stale cfg T ie.c := by
  have hnodup : s.places.Nodup := hcap.perm_places.nodup_iff.mpr hfresh.nodup
  obtain ⟨hidle, howned, hdisj⟩ := List.nodup_append.mp hnodup
  have hmem : ie.c ∈ s.idle.map IdleEntry.c := List.mem_map_of_mem hie
  refine ⟨?_, ?_, ?_⟩
  · exact hfresh.past _ (hcap.perm_places.mem_iff.mp (List.mem_append_left _ hmem))
  · intro ie' hie' hc
    rwa [List.inj_on_of_nodup_map hidle hie' hie hc]
  · exact fun hown => hdisj _ hmem _ hown rfl

end Steps

/-! ## The pool -/

section Pool

variable {cfg : PoolConfig} {p : Pool} {host : String} {c : Nat}

theorem fresh_reach (cfg : PoolConfig) (as : List Action) (host : String) :
    Fresh ((reach cfg as).hosts host) := by
  refine foldl_invariant (fun p : Pool => Fresh (p.hosts host)) ?_ ?_ as
  · intro p a h
    rcases step_host (newPool cfg) p a host with ⟨b, _, _, hs⟩ | ⟨_, _, hs⟩ | ⟨_, hs⟩
    · rw [hs]
      exact h.connStep (Host.step_conns b)
    · rw [hs]
      exact h.connStep (Or.inl ⟨List.diff_sublist _ _, rfl⟩)
    · rwa [hs]
  · exact ⟨List.nodup_nil, fun c hc => absurd hc List.not_mem_nil⟩

/-- A connection that is gone stays gone. -/
theorem gone_foldl (h : (p.hosts host).Gone c) (bs : List Action) :
    ((bs.foldl (step cfg) p).hosts host).Gone c := by
  refine foldl_invariant (fun p : Pool => (p.hosts host).Gone c) ?_ h bs
  intro p a h
  rcases step_host cfg p a host with ⟨b, _, _, hs⟩ | ⟨_, _, hs⟩ | ⟨_, hs⟩
  · rw [hs]
    exact h.connStep (Host.step_conns b)
  · rw [hs]
    exact h.connStep (Or.inl ⟨List.diff_sublist _ _, rfl⟩)
  · rwa [hs]

/-- The clocks that calls for the host read in the step show at least `T`. -/
def Action.After (host : String) (T : Int) (a : Action) : Prop :=
  ∀ b, a = .onHost host b → b.After T

theorem stale_foldl {T : Int} (h : (p.hosts host).Stale cfg T c) {bs : List Action}
    (hbs : ∀ a ∈ bs, a.After host T) : ((bs.foldl (step cfg) p).hosts host).Stale cfg T c := by
  refine foldl_mem (fun p : Pool => (p.hosts host).Stale cfg T c) ?_ h hbs
  intro p a h ha
  rcases step_host cfg p a host with ⟨b, heq, _, hs⟩ | ⟨_, _, hs⟩ | ⟨_, hs⟩
  · rw [hs]
    exact h.step (ha b heq)
  · rw [hs]
    exact h.close
  · rwa [hs]

end Pool

/-- An account without repetitions gives every connection one owner. -/
theorem Host.Owns.unique {s : Host} {i j c : Nat} (h : s.owned.Nodup) (hi : s.Owns i c)
    (hj : s.Owns j c) : i = j := by
  obtain ⟨ph, hi, hc⟩ := hi
  obtain ⟨ph', hj, hc'⟩ := hj
  by_contra hne
  have hslot := filterMap_slot Phase.conn? hi
  rw [hc, Option.toList_some] at hslot
  have hnodup := hslot.nodup_iff.mp h
  refine (List.nodup_cons.mp hnodup).1 (List.mem_filterMap.mpr ⟨ph', ?_, hc'⟩)
  exact List.mem_eraseIdx_iff_getElem?.mpr ⟨j, Ne.symm hne, hj⟩

/-- Ownership of the connections in every state that a run reaches.  An open
connection is in one place and a closed one in none, no two calls own the same
connection, and a connection that the pool has discarded, or that has been
idle for longer than `IdleTTL`, never gets an owner again. -/
theorem ftp_connection_ownership (cfg : PoolConfig) (as : List Action) (host : String) :
    (∀ c, ((reach cfg as).hosts host).places.count c =
      if c ∈ ((reach cfg as).hosts host).conns then 1 else 0) ∧
    (∀ i j c, ((reach cfg as).hosts host).Owns i c → ((reach cfg as).hosts host).Owns j c →
      i = j) ∧
    (∀ c a, Discards (newPool cfg) (reach cfg as).closed ((reach cfg as).hosts host) c a →
      ∀ bs i, ¬((reach cfg (as ++ .onHost host a :: bs)).hosts host).Owns i c) ∧
    ∀ ie ∈ ((reach cfg as).hosts host).idle, ∀ T, T - ie.enqueue > (newPool cfg).idleTTL →
      ∀ bs : List Action, (∀ b ∈ bs, b.After host T) →
        ∀ i, ¬((reach cfg (as ++ bs)).hosts host).Owns i ie.c := by
  have hfresh := fresh_reach cfg as host
  have hcap := reach_capacity cfg as host
  have hnodup : ((reach cfg as).hosts host).places.Nodup :=
    hcap.perm_places.nodup_iff.mpr hfresh.nodup
  refine ⟨?_, ?_, ?_, ?_⟩
  · intro c
    rw [hcap.perm_places.count_eq]
    split
    · rename_i hmem
      exact List.count_eq_one_of_mem hfresh.nodup hmem
    · rename_i hmem
      exact List.count_eq_zero.mpr hmem
  · intro i j c hi hj
    exact hi.unique (List.nodup_append.mp hnodup).2.1 hj
  · intro c a hdis bs i
    have hgone : ((step (newPool cfg) (reach cfg as) (.onHost host a)).hosts host).Gone c := by
      show (Function.update (reach cfg as).hosts host _ host).Gone c
      rw [Function.update_self]
      exact hdis.gone hfresh hcap
    have hrun : reach cfg (as ++ .onHost host a :: bs) =
        bs.foldl (step (newPool cfg)) (step (newPool cfg) (reach cfg as) (.onHost host a)) := by
      unfold reach
      rw [List.foldl_append, List.foldl_cons]
    refine Host.Gone.not_owns ?_ (reach_capacity cfg _ host) i
    rw [hrun]
    exact gone_foldl hgone bs
  · intro ie hie T hage bs hbs i howns
    have hstale := stale_of_idle hfresh hcap hie hage
    have hrun : reach cfg (as ++ bs) = bs.foldl (step (newPool cfg)) (reach cfg as) := by
      unfold reach
      rw [List.foldl_append]
    rw [hrun] at howns
    exact (stale_foldl hstale hbs).unowned (Host.mem_owned.mpr ⟨i, howns⟩)

end ImgSync.Ftp
