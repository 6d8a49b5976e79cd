import ConfinedFs.Proofs.Os.Sound
import ConfinedFs.Proofs.Triple
import ConfinedFs.Rooted.Root

/-!
Emptying a directory takes as many levels as there are directories below one
another in it. A tree has more nodes than that, so the number of its nodes is a
bound that is never reached, and any larger one gives the same result.
-/

namespace ConfinedFs.Os.Tree

/-- Less than so many directories lie below one another from a directory on. -/
def Shallow (t : Tree) : Nat → NodeId → Prop
  | 0, _ => False
  | levels + 1, dir => ∀ d n i, t.dir? dir = some d → (n, i) ∈ d.entries → t.isDir i = true →
    t.Shallow levels i

/-- The second tree is the first one with fewer entries. -/
def Shrinks (t u : Tree) : Prop :=
  ∀ dir d, u.dir? dir = some d → ∃ s, t.dir? dir = some s ∧ d.entries ⊆ s.entries

theorem Shrinks.refl (t : Tree) : t.Shrinks t := fun _ d hd => ⟨d, hd, fun _ he => he⟩

theorem Shrinks.trans {t u v : Tree} (h : t.Shrinks u) (h' : u.Shrinks v) : t.Shrinks v := by
  intro dir d hd
  obtain ⟨s, hs, hsubset⟩ := h' dir d hd
  obtain ⟨s', hs', hsubset'⟩ := h dir s hs
  exact ⟨s', hs', fun _ he => hsubset' (hsubset he)⟩

theorem Shrinks.isDir {t u : Tree} (h : t.Shrinks u) {i : NodeId} (hi : u.isDir i = true) :
    t.isDir i = true := by
  obtain ⟨d, hd⟩ := isDir_iff.1 hi
  obtain ⟨s, hs, _⟩ := h i d hd
  exact isDir_iff.2 ⟨s, hs⟩

theorem Shrinks.modifyDir (t : Tree) (i : NodeId) {f : Directory → Directory}
    (hf : ∀ d, (f d).entries ⊆ d.entries) : t.Shrinks (t.modifyDir i f) := by
  intro dir d hd
  rw [dir?_modifyDir] at hd
  split at hd
  · next heq =>
    obtain ⟨s, hs, rfl⟩ := Option.map_eq_some_iff.1 hd
    exact ⟨s, heq ▸ hs, hf s⟩
  · exact ⟨d, hd, fun _ he => he⟩

theorem Shrinks.unlink (t : Tree) (dir : NodeId) (n : Name) : t.Shrinks (t.unlink dir n) :=
  modifyDir t dir fun _ _ he => (Association.mem_erase.1 he).1

theorem Shrinks.retire (t : Tree) (i : NodeId) : t.Shrinks (t.retire i) :=
  modifyDir t i fun _ _ he => he

/-- Taking entries away makes nothing deeper. -/
theorem Shallow.mono {t u : Tree} (hu : t.Shrinks u) {levels more : Nat} {dir : NodeId}
    (h : t.Shallow levels dir) (hle : levels ≤ more) : u.Shallow more dir := by
  induction levels generalizing more dir with
  | zero => exact h.elim
  | succ levels ih =>
    cases more with
    | zero => exact absurd hle (Nat.not_succ_le_zero levels)
    | succ more =>
      intro d n i hd hn hi
      obtain ⟨s, hs, hsubset⟩ := hu dir d hd
      exact ih (h s n i hs (hsubset hn) (hu.isDir hi)) (Nat.le_of_succ_le_succ hle)

/-- The further down a directory is, the less deep it is. -/
theorem Sound.shallow {t : Tree} (h : t.Sound) {levels : Nat} {i : NodeId} {l : List NodeId}
    (hl : t.Ascends i l) (hlevels : t.nodes.length < l.length + levels) : t.Shallow levels i := by
  induction levels generalizing i l with
  | zero => exact absurd (h.length_le_of_ascends hl) (Nat.not_le.2 hlevels)
  | succ levels ih =>
    intro d n j hd hn hj
    obtain ⟨s, hs⟩ := isDir_iff.1 hj
    obtain ⟨htop, hparent⟩ := h.entry_parent hd hn hs
    refine ih (.up hs htop (hparent ▸ hl)) ?_
    rw [List.length_cons]
    omega

/-- A directory that has an entry is less deep than there are nodes. -/
theorem Sound.shallow_of_entry {t : Tree} (h : t.Sound) {dir i : NodeId} {d : Directory} {n : Name}
    (hd : t.dir? dir = some d) (hn : (n, i) ∈ d.entries) (hi : t.isDir i = true) :
    t.Shallow t.nodes.length i := by
  obtain ⟨s, hs⟩ := isDir_iff.1 hi
  obtain ⟨htop, hparent⟩ := h.entry_parent hd hn hs
  obtain ⟨l, hl⟩ := h.grounded hd
  refine h.shallow (.up hs htop (hparent ▸ hl)) ?_
  have hpos := List.length_pos_of_mem hl.mem_self
  rw [List.length_cons]
  omega

end ConfinedFs.Os.Tree

namespace ConfinedFs.Os.Call

variable {t : Tree}

theorem keeps_shrinks_unlink (place : Place) : Action.Keeps t.Shrinks (unlink place) := by
  cases place with
  | directory i => exact .throw _
  | entry dir n =>
    refine .bind (.query _) fun i => .bind (.query _) fun _ => .bind (.look _) fun isDir => ?_
    exact .when (.throw _) (.update fun s hs => hs.trans (.unlink s dir n))

theorem keeps_shrinks_rmdir (place : Place) : Action.Keeps t.Shrinks (rmdir place) := by
  cases place with
  | directory i => exact .throw _
  | entry dir n =>
    refine .bind (.query _) fun i => .bind (.query _) fun _ => .bind (.look _) fun isDir => ?_
    refine .when (.throw _) (.bind ?_ fun _ => ?_)
    · exact .bind (.look _) fun entries => .when (.throw _) (.pure _)
    · exact .update fun s hs => (hs.trans (.unlink s dir n)).trans (.retire _ i)

end ConfinedFs.Os.Call

namespace ConfinedFs.Root

open ConfinedFs.Os

variable {t : Tree}

/-- What is done about one name in a directory that is to be emptied. -/
def clearEntry (levels : Nat) (dir : NodeId) (n : Name) : Work Unit := do
  let place : Place := .entry dir n
  let s ← Host.ask (Tree.statAt · place)
  if s.isDir then
    clearDir levels (← Host.ask (Tree.openDirAt · place))
    Host.call (Call.rmdir place)
  else Host.call (Call.unlink place)

theorem clearDir_succ (levels : Nat) (dir : NodeId) :
    clearDir (levels + 1) dir =
      Host.ask (Tree.names · dir) >>= fun names => names.forM (clearEntry levels dir) := rfl

section Clearing

variable {P : Tree → Prop} (hunlink : ∀ place, Action.Keeps P (Call.unlink place))
  (hrmdir : ∀ place, Action.Keeps P (Call.rmdir place))

include hunlink hrmdir

theorem keeps_clearDir (levels : Nat) (dir : NodeId) : Action.Keeps P (clearDir levels dir) := by
  induction levels generalizing dir with
  | zero => exact .throw _
  | succ levels ih =>
    refine .bind (.mapError (.query _)) fun names => .forM fun n _ => ?_
    refine .bind (.mapError (.query _)) fun s => ?_
    split
    · exact .bind (.mapError (.query _)) fun child => .bind (ih child) fun _ =>
        .mapError (hrmdir _)
    · exact .mapError (hunlink _)

theorem keeps_clearEntry (levels : Nat) (dir : NodeId) (n : Name) :
    Action.Keeps P (clearEntry levels dir n) := by
  refine .bind (.mapError (.query _)) fun s => ?_
  split
  · exact .bind (.mapError (.query _)) fun child =>
      .bind (keeps_clearDir hunlink hrmdir levels child) fun _ => .mapError (hrmdir _)
  · exact .mapError (hunlink _)

end Clearing

/-- What is asked about a place says nothing about the tree afterwards. -/
theorem ask_eq_ok {α : Type} {f : Tree → Except Errno α} {t u : Tree} {a : α}
    (h : Host.ask f t = (.ok a, u)) : f t = .ok a ∧ u = t := by
  rw [Host.ask_apply] at h
  obtain ⟨hresult, rfl⟩ := Prod.mk.inj h
  refine ⟨?_, rfl⟩
  cases hf : f t with
  | error e =>
    rw [hf] at hresult
    cases hresult
  | ok b =>
    rw [hf] at hresult
    cases hresult
    rfl

/-- Any number of levels that is large enough gives the same result. -/
theorem clearDir_eq_of_shallow {levels more : Nat} {dir : NodeId} (h : t.Shallow levels dir)
    (hle : levels ≤ more) : clearDir more dir t = clearDir levels dir t := by
  induction levels generalizing more dir t with
  | zero => exact h.elim
  | succ levels ih =>
    cases more with
    | zero => exact absurd hle (Nat.not_succ_le_zero levels)
    | succ more =>
      have hle := Nat.le_of_succ_le_succ hle
      have hround : ∀ n u, t.Shrinks u → clearEntry more dir n u = clearEntry levels dir n u := by
        intro n u hu
        refine Action.bind_congr fun s v hs => ?_
        obtain ⟨_, rfl⟩ := ask_eq_ok hs
        split
        · refine Action.bind_congr fun child v hchild => Action.bind_congr_left ?_
          obtain ⟨hopen, rfl⟩ := ask_eq_ok hchild
          -- The directory that is emptied next has been an entry from the start.
          obtain ⟨d, hd, hmem, hisDir⟩ := Tree.mem_entries_of_openDirAt hopen
          obtain ⟨s, hs, hsubset⟩ := hu dir d hd
          have hshallow := h s n child hs (hsubset hmem) (hu.isDir hisDir)
          exact ih (hshallow.mono hu (Nat.le_refl levels)) hle
        · rfl
      rw [clearDir_succ, clearDir_succ]
      refine Action.bind_congr fun names u hnames => ?_
      obtain ⟨_, rfl⟩ := ask_eq_ok hnames
      exact Action.forM_congr hround
        (keeps_clearEntry Call.keeps_shrinks_unlink Call.keeps_shrinks_rmdir levels dir) (.refl u)

/-- Removing everything with a bound of its own on the levels. -/
def removeAllWithin (levels : Nat) (r : Root) (p : Path) : Work Unit := do
  let l ← Action.query (r.walk · p false)
  let (dir, n) ← Action.ofExcept (l.entry .baseDirRemove)
  match ← Action.query (statIn · dir n) with
  | none => return ()
  | some s =>
    let place ← placeOf l
    if s.isDir then
      clearDir levels (← Host.ask (Tree.openDirAt · place))
      Host.call (Call.rmdir place)
    else Host.call (Call.unlink place)

theorem query_eq_ok {α : Type} {f : Tree → Except FileError α} {t u : Tree} {a : α}
    (h : Action.query f t = (.ok a, u)) : f t = .ok a ∧ u = t := by
  obtain ⟨hresult, hstate⟩ := Prod.mk.inj h
  exact ⟨hresult, hstate.symm⟩

theorem placeOf_eq (l : Endpoint) :
    placeOf l = Action.ofExcept (l.place.mapError FileError.ofErrno) := by
  unfold placeOf
  cases l.place <;> rfl

/-- A location with an entry to act on has a place in its directory. -/
theorem place_of_entry {l : Endpoint} {onRoot : FileError} {entry : NodeId × Name} {place : Place}
    (hentry : l.entry onRoot = .ok entry)
    (hplace : l.place.mapError FileError.ofErrno = .ok place) :
    l.dir = entry.1 ∧ place = .entry entry.1 entry.2 := by
  unfold Endpoint.entry at hentry
  unfold Endpoint.place at hplace
  cases hname : l.name with
  | none =>
    rw [hname] at hentry
    cases hentry
  | some n =>
    rw [hname] at hentry hplace
    cases hentry
    refine ⟨rfl, ?_⟩
    cases hin : Tree.placeIn l.dir n with
    | error e =>
      simp only [hin] at hplace
      cases hplace
    | ok found =>
      simp only [hin] at hplace
      cases hplace
      exact Tree.eq_entry_of_placeIn hin

/-- In a tree of the operating system the number of nodes is as good a bound as
any larger one. -/
theorem removeAll_eq_within (h : t.Sound) {levels : Nat} (hlevels : t.nodes.length ≤ levels)
    (r : Root) (p : Path) : r.removeAll p t = r.removeAllWithin levels p t := by
  unfold removeAll removeAllWithin
  refine Action.bind_congr fun l u hl => ?_
  obtain ⟨_, rfl⟩ := query_eq_ok hl
  refine Action.bind_congr fun entry u hrun => ?_
  rw [Action.ofExcept_apply] at hrun
  obtain ⟨hentry, rfl⟩ := Prod.mk.inj hrun
  refine Action.bind_congr fun found u hfound => ?_
  obtain ⟨_, rfl⟩ := query_eq_ok hfound
  cases found with
  | none => rfl
  | some s =>
    rw [placeOf_eq]
    refine Action.bind_congr fun place v hrun => ?_
    rw [Action.ofExcept_apply] at hrun
    obtain ⟨hplace, rfl⟩ := Prod.mk.inj hrun
    by_cases hs : s.isDir = true
    · rw [if_pos hs, if_pos hs, Action.bind_apply_of_ok (Action.look_apply _ u)]
      refine Action.bind_congr fun child w hchild => Action.bind_congr_left ?_
      obtain ⟨hopen, rfl⟩ := ask_eq_ok hchild
      rw [(place_of_entry hentry hplace).2] at hopen
      obtain ⟨d, hd, hmem, hisDir⟩ := Tree.mem_entries_of_openDirAt hopen
      have hshallow := h.shallow_of_entry hd hmem hisDir
      exact (clearDir_eq_of_shallow hshallow hlevels).symm
    · rw [if_neg hs, if_neg hs]

end ConfinedFs.Root
