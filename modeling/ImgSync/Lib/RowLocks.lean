import ImgSync.Lib.Table

/-!
# Updates under row locks

Several `UPDATE ... SET f WHERE p` statements run at once, the way a database runs
them at READ COMMITTED.  A statement takes a snapshot and goes through the rows of
the snapshot that its condition picks.  It locks each of them, which has to wait
while another statement has the row locked, and then checks the condition again
on the row as it is committed by now.  What it has locked it rewrites at its
commit.

The rows are known by a key.  `Scan` is the progress of one statement, and `Covers`
what the locks promise it: the rows that it has locked still qualify, and a row
that qualifies is locked or yet to be visited.

* `Covers.keep`: other changes of the table keep the promise as long as they leave
  the locked rows alone and make no further row qualify;
* `Covers.commit_other`: the commit of another statement is such a change;
* `Covers.commit_eq`: at the end of the scan the commit is the atomic
  `updateWhere`, whatever has been committed since the snapshot.
-/

namespace ImgSync.Lib

variable {α κ : Type*}

/-- The keys that a statement has yet to visit, and those that it has locked. -/
structure Scan (κ : Type*) where
  todo : List κ
  locked : List κ

/-- The scan of a statement with the condition `hits` on the present rows. -/
def Scan.start (key : α → κ) (hits : α → Bool) (rows : List α) : Scan κ :=
  ⟨(rows.filter hits).map key, []⟩

section Keys

variable [DecidableEq κ]

/-- Whether there is a row under the key that the condition picks. -/
def qualifies (key : α → κ) (hits : α → Bool) (rows : List α) (k : κ) : Bool :=
  rows.any fun r => key r == k && hits r

/-- The scan gets the lock of its next row: it keeps the lock if the row still
qualifies. -/
def Scan.visit (key : α → κ) (hits : α → Bool) (rows : List α) (s : Scan κ) : Scan κ :=
  match s.todo with
  | [] => s
  | k :: rest =>
    if qualifies key hits rows k then ⟨rest, s.locked ++ [k]⟩ else { s with todo := rest }

/-- The commit rewrites the locked rows. -/
def Scan.commit (key : α → κ) (set : α → α) (s : Scan κ) (rows : List α) : List α :=
  updateWhere (fun r => s.locked.contains (key r)) set rows

end Keys

/-- What the locks promise a statement. -/
structure Covers (key : α → κ) (hits : α → Bool) (rows : List α) (s : Scan κ) : Prop where
  hit : ∀ k ∈ s.locked, ∃ r ∈ rows, key r = k ∧ hits r = true
  found : ∀ r ∈ rows, hits r = true → key r ∈ s.todo ∨ key r ∈ s.locked
  once : (s.locked ++ s.todo).Nodup

variable {key : α → κ} {hits : α → Bool} {rows : List α} {s : Scan κ}

theorem covers_start (hkeys : (rows.map key).Nodup) :
    Covers key hits rows (.start key hits rows) where
  hit := fun _ hk => absurd hk List.not_mem_nil
  found := fun _ hr hhit => Or.inl (List.mem_map_of_mem (List.mem_filter.mpr ⟨hr, hhit⟩))
  once := hkeys.sublist (List.filter_sublist.map key)

/-- A change of the table that leaves the locked rows alone and makes no further row
qualify. -/
theorem Covers.keep (h : Covers key hits rows s) {rows' : List α}
    (hlocked : ∀ r ∈ rows, key r ∈ s.locked → hits r = true → r ∈ rows')
    (hfound : ∀ r ∈ rows', hits r = true → r ∈ rows) : Covers key hits rows' s where
  hit := by
    intro k hk
    obtain ⟨r, hr, rfl, hhit⟩ := h.hit k hk
    exact ⟨r, hlocked r hr hk hhit, rfl, hhit⟩
  found := fun r hr hhit => h.found r (hfound r hr hhit) hhit
  once := h.once

theorem Covers.hits_of_locked (h : Covers key hits rows s) (hkeys : (rows.map key).Nodup) {r : α}
    (hr : r ∈ rows) (hlocked : key r ∈ s.locked) : hits r = true := by
  obtain ⟨x, hx, hkey, hhit⟩ := h.hit _ hlocked
  rwa [← eq_of_key_eq hkeys hx hr hkey]

variable [DecidableEq κ]

theorem qualifies_iff {k : κ} :
    qualifies key hits rows k = true ↔ ∃ r ∈ rows, key r = k ∧ hits r = true := by
  simp only [qualifies, List.any_eq_true, Bool.and_eq_true, beq_iff_eq]

theorem Covers.visit (h : Covers key hits rows s) :
    Covers key hits rows (s.visit key hits rows) := by
  rw [Scan.visit]
  split
  · exact h
  · rename_i k rest htodo
    have honce : (s.locked ++ k :: rest).Nodup := htodo ▸ h.once
    split
    · rename_i hq
      refine ⟨?_, ?_, by simpa using honce⟩
      · intro k' hk'
        rcases List.mem_append.mp hk' with hold | hnew
        · exact h.hit k' hold
        · rw [List.mem_singleton.mp hnew]
          exact qualifies_iff.mp hq
      · intro r hr hhit
        rcases h.found r hr hhit with hmem | hmem
        · rw [htodo] at hmem
          rcases List.mem_cons.mp hmem with heq | hrest
          · exact Or.inr (List.mem_append_right _ (by simp [heq]))
          · exact Or.inl hrest
        · exact Or.inr (List.mem_append_left _ hmem)
    · rename_i hq
      refine ⟨h.hit, ?_, honce.sublist ((List.sublist_cons_self k rest).append_left s.locked)⟩
      intro r hr hhit
      rcases h.found r hr hhit with hmem | hmem
      · rw [htodo] at hmem
        rcases List.mem_cons.mp hmem with heq | hrest
        · exact absurd (qualifies_iff.mpr ⟨r, hr, heq, hhit⟩) hq
        · exact Or.inl hrest
      · exact Or.inr hmem

/-- The commit of another statement, which has other rows locked and after which its
rows do not qualify. -/
theorem Covers.commit_other (h : Covers key hits rows s) (hkeys : (rows.map key).Nodup)
    {hits' : α → Bool} {set' : α → α} {s' : Scan κ} (h' : Covers key hits' rows s')
    (happart : ∀ k ∈ s.locked, k ∉ s'.locked)
    (hset : ∀ r, hits' r = true → hits (set' r) = false) :
    Covers key hits (s'.commit key set' rows) s := by
  refine h.keep ?_ ?_
  · intro r hr hk _
    have hnot : ¬s'.locked.contains (key r) = true := by simpa using happart _ hk
    exact List.mem_map.mpr ⟨r, hr, if_neg hnot⟩
  · intro r hr hhit
    obtain ⟨x, hx, hxr⟩ := List.mem_map.mp hr
    by_cases hlocked : key x ∈ s'.locked
    · rw [if_pos (by simpa using hlocked)] at hxr
      have hno := hset x (h'.hits_of_locked hkeys hx hlocked)
      rw [hxr, hhit] at hno
      cases hno
    · rw [if_neg (by simpa using hlocked)] at hxr
      rwa [← hxr]

/-- At the end of the scan the locked rows are those that qualify. -/
theorem Covers.locked_iff (h : Covers key hits rows s) (hkeys : (rows.map key).Nodup)
    (hend : s.todo = []) {r : α} (hr : r ∈ rows) : s.locked.contains (key r) = hits r := by
  rw [Bool.eq_iff_iff, List.contains_iff_mem]
  refine ⟨h.hits_of_locked hkeys hr, fun hhit => ?_⟩
  rcases h.found r hr hhit with hmem | hmem
  · rw [hend] at hmem
    exact absurd hmem List.not_mem_nil
  · exact hmem

/-- The commit is the atomic statement on the rows as they are by then. -/
theorem Covers.commit_eq (h : Covers key hits rows s) (hkeys : (rows.map key).Nodup)
    (hend : s.todo = []) (set : α → α) : s.commit key set rows = updateWhere hits set rows := by
  rw [Scan.commit, updateWhere, updateWhere]
  refine List.map_congr_left fun r hr => ?_
  rw [h.locked_iff hkeys hend hr]

/-- It rewrites as many rows as the statement has locked. -/
theorem Covers.length_locked (h : Covers key hits rows s) (hkeys : (rows.map key).Nodup)
    (hend : s.todo = []) : s.locked.length = (rows.filter hits).length := by
  have honce : s.locked.Nodup := by
    have := h.once
    rwa [hend, List.append_nil] at this
  have hperm : s.locked.Perm ((rows.filter hits).map key) := by
    refine (List.perm_ext_iff_of_nodup honce (hkeys.sublist (List.filter_sublist.map key))).mpr ?_
    intro k
    rw [List.mem_map]
    constructor
    · intro hk
      obtain ⟨r, hr, hkey, hhit⟩ := h.hit k hk
      exact ⟨r, List.mem_filter.mpr ⟨hr, hhit⟩, hkey⟩
    · rintro ⟨r, hr, rfl⟩
      obtain ⟨hmem, hhit⟩ := List.mem_filter.mp hr
      have hlocked := h.locked_iff hkeys hend hmem
      rw [hhit] at hlocked
      exact List.contains_iff_mem.mp hlocked
  rw [hperm.length_eq, List.length_map]

end ImgSync.Lib
