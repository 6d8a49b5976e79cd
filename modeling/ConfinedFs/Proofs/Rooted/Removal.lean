import ConfinedFs.Proofs.Os.Clearing
import ConfinedFs.Proofs.Rooted.Location

/-!
Removing a subtree. A directory is emptied before its entry is taken away, and the directories in it
are found by their entries, never by links. So what is removed is the entry that the walk has ended
at and what was below it, and if something is in the way, that is all there is to be missing.
-/

namespace ConfinedFs

open ConfinedFs.Os
open ConfinedFs.Action (Triple)

/-- Of the errors of the system one is that of too many links. -/
theorem FileError.ofErrno_ne_tooManySymlinks {e : Errno} (h : e ≠ .loop) :
    ofErrno e ≠ .tooManySymlinks := by
  have hnumber : e.number ≠ 40 := fun heq => h (congrArg Errno.mk heq)
  unfold ofErrno
  split
  · next found hfound =>
    rintro rfl
    unfold ofNumber? at hfound
    split at hfound
    all_goals first | exact hnumber ‹e.number = 40› | cases hfound
  · cases e.kind <;> simp [ofKind?]

namespace Root

variable {α : Type} {r : Root} {t u : Tree} {p : Path} {l : Endpoint} {n : Name} {i dir : NodeId}
  {P : Tree → Prop}

section ClearDir

theorem triple_ask {f : Tree → Except Errno α} (hf : ∀ u, Tree.FollowsNone (f u)) :
    Triple P (Host.ask f) (fun a u => P u ∧ f u = .ok a)
      fun e u => P u ∧ e ≠ .tooManySymlinks := by
  refine Triple.mapError (Triple.query (fun u a hu ha => ⟨hu, ha⟩) fun u e hu he => ⟨hu, ?_⟩)
  refine FileError.ofErrno_ne_tooManySymlinks ?_
  rintro rfl
  exact hf u he

theorem triple_call {x : Call α} {Q : α → Tree → Prop}
    (hx : Triple P x Q fun e u => P u ∧ e ≠ .loop) :
    Triple P (Host.call x) Q fun e u => P u ∧ e ≠ .tooManySymlinks :=
  Triple.mapError (hx.weaken (fun _ h => h) (fun _ _ h => h) fun _ _ h =>
    ⟨h.1, FileError.ofErrno_ne_tooManySymlinks h.2⟩)

/-- A directory is emptied by taking away what is below it, and the bound on the levels is not what
ends it. The induction is on the levels. -/
theorem triple_clearDir (ht : t.Sound) {levels : Nat} (hdir : t.Under i dir)
    (hshallow : t.Shallow levels dir) :
    Triple (t.Clears i) (clearDir levels dir) (fun _ => t.Clears i)
      fun e u => t.Clears i u ∧ e ≠ .tooManySymlinks := by
  induction levels generalizing dir with
  | zero => exact hshallow.elim
  | succ levels ih =>
    refine Triple.bind (triple_ask fun u => Tree.followsNone_names u dir) fun names => ?_
    refine (Triple.forM fun n _ => ?_).weaken (fun _ h => h.1) (fun _ _ h => h) fun _ _ h => h
    refine Triple.bind (triple_ask fun u => Tree.followsNone_statAt u dir n) fun s => ?_
    refine Triple.ite (fun _ => ?_) fun _ => ?_
    · refine Triple.bind (Triple.weaken (triple_ask fun u => Tree.followsNone_openDirAt u dir n)
        (fun _ h => h.1) (fun _ _ h => h) fun _ _ h => h) fun child => ?_
      refine Triple.bind (Q := fun _ => t.Clears i) ?_ fun _ =>
        triple_call (Call.triple_clears_rmdir ht hdir n)
      rintro u ⟨hu, hopen⟩
      -- The directory that is emptied next has been an entry from the start.
      obtain ⟨d', hd', hmem, hisDir⟩ := Tree.mem_entries_of_openDirAt hopen
      obtain ⟨d, hd, hthinned⟩ := hu.thinned hd'
      obtain ⟨s', hs'⟩ := Tree.isDir_iff.1 hisDir
      obtain ⟨s, hs, _⟩ := hu.thinned hs'
      have hold := hthinned.entries.subset hmem
      exact ih (.entry hdir hd hold) (hshallow d n child hd hold (Tree.isDir_iff.2 ⟨s, hs⟩)) u hu
    · exact (triple_call (Call.triple_clears_unlink ht hdir n)).weaken (fun _ h => h.1)
        (fun _ _ h => h) fun _ _ h => h

end ClearDir

section RemoveAll

theorem isDir_of_statAt {s : Stat} (hs : t.statAt (.entry dir n) = .ok s)
    (hi : t.lookup dir n = .ok i) : s.isDir = t.isDir i := by
  obtain ⟨j, hj, hstat⟩ := Tree.statAt_eq_ok hs
  cases (Tree.existing_of_lookup hi).symm.trans hj
  exact Tree.isDir_eq_of_stat hstat

/-- What a removal does once the system has said what is at the end of the walk. -/
def removeTold (l : Endpoint) : Option Stat → Work Unit
  | none => pure ()
  | some s => do
    let place ← placeOf l
    if s.isDir then
      let levels ← Action.look (·.nodes.length)
      clearDir levels (← Host.ask (Tree.openDirAt · place))
      Host.call (Call.rmdir place)
    else Host.call (Call.unlink place)

theorem removeAll_of_walk {found : Option Stat} (hl : r.walk t p false = .ok l)
    (hname : l.name = some n) (hfound : statIn t l.dir n = .ok found) :
    r.removeAll p t = removeTold l found t := by
  have hwalk : Action.query (r.walk · p false) t = (.ok l, t) := Prod.ext hl rfl
  have hentry : l.entry .baseDirRemove = .ok (l.dir, n) := by
    rw [Endpoint.entry, hname]
  have hasked : Action.query (statIn · l.dir n) t = (.ok found, t) := Prod.ext hfound rfl
  rw [removeAll, Action.bind_apply_of_ok hwalk, hentry]
  show (Action.query (statIn · l.dir n) >>= _) t = _
  rw [Action.bind_apply_of_ok hasked]
  cases found <;> rfl

/-- What is done about an entry. -/
theorem removeAll_of_entry (hl : r.walk t p false = .ok l) (hname : l.name = some n)
    (hi : t.lookup l.dir n = .ok i) :
    r.removeAll p t = (if t.isDir i then do
      clearDir t.nodes.length (← Host.ask (Tree.openDirAt · (.entry l.dir n)))
      Host.call (Call.rmdir (.entry l.dir n))
    else Host.call (Call.unlink (.entry l.dir n)) : Work Unit) t := by
  obtain ⟨found, hfound, _⟩ := answered_of_walk hl n hname
  cases found with
  | none =>
    have hmissing := lookup_of_statIn_none hfound
    rw [hi] at hmissing
    cases hmissing
  | some s =>
    obtain ⟨hplace, hstat⟩ := Tree.of_placeIn_bind (statAt_of_statIn hfound)
    have hlocated : placeOf l t = (.ok (.entry l.dir n), t) := by
      rw [placeOf_eq, Endpoint.place, hname]
      simp only [hplace]
      rfl
    rw [removeAll_of_walk hl hname hfound, removeTold, Action.bind_apply_of_ok hlocated,
      isDir_of_statAt hstat hi]
    cases t.isDir i <;> rfl

/-- An entry is removed with everything below it, or the entry stays and only what was below it may
be missing. -/
theorem triple_removeAll (ht : t.Sound) (hl : r.walk t p false = .ok l) (hname : l.name = some n)
    (hi : t.lookup l.dir n = .ok i) :
    Triple (· = t) (r.removeAll p) (fun _ u => t.Uproots l.dir n i u)
      fun e u => t.Clears i u ∧ e ≠ .tooManySymlinks := by
  rintro s rfl
  rw [removeAll_of_entry hl hname hi]
  refine (?_ : Triple (· = s) _ _ _) s rfl
  refine Triple.ite (fun hdir => ?_) fun hdir => ?_
  · refine Triple.bind (Triple.weaken (triple_ask (P := (· = s)) fun u =>
      Tree.followsNone_openDirAt u l.dir n) (fun _ h => h) (fun _ _ h => h) ?_) fun child => ?_
    · rintro e _ ⟨rfl, he⟩
      exact ⟨.refl _ i, he⟩
    · refine Triple.bind (Q := fun _ => s.Clears i) ?_ fun _ => ?_
      · rintro _ ⟨rfl, hopen⟩
        obtain ⟨d, hd, hmem, _⟩ := Tree.mem_entries_of_openDirAt hopen
        obtain ⟨hexisting, _⟩ := Tree.existing_of_openDirAt hopen
        cases (Tree.lookup_of_existing hexisting).symm.trans hi
        exact triple_clearDir ht .base (ht.shallow_of_entry hd hmem hdir) _ (.refl _ _)
      · refine triple_call (Triple.of_fixed fun u hu => ?_)
        refine (Call.triple_rmdir u l.dir n).weaken (fun _ h => h) ?_ ?_
        · rintro _ _ ⟨k, hk, hempty, rfl⟩
          cases (hu.lookup_eq ht hdir hi).symm.trans hk
          exact hu.uproots ht hdir hi hempty
        · rintro e _ ⟨rfl, he⟩
          exact ⟨hu, he⟩
  · have hnot : s.isDir i = false := Bool.eq_false_iff.2 hdir
    refine (triple_call (P := (· = s)) (Call.triple_unlink s l.dir n)).weaken (fun _ h => h) ?_ ?_
    · rintro _ _ ⟨k, _, _, rfl⟩
      exact Tree.uproots_unlink hnot (Tree.isDir_of_lookup hi) n
    · rintro e _ ⟨rfl, he⟩
      exact ⟨.refl _ i, he⟩

/-- An entry that is removed is gone with everything below it, and the paths that are left are those
that do not lead through it. If something is in the way, only entries below it may be missing. The
bound on the levels is out of reach. -/
theorem removeAll_uproots (ht : t.Sound) (hl : r.walk t p false = .ok l) (hname : l.name = some n)
    (hi : t.lookup l.dir n = .ok i) :
    (∀ u, r.removeAll p t = (.ok (), u) → t.Uproots l.dir n i u ∧
      ∀ above j, u.Named above j ↔ t.Named above j ∧ ¬ t.GoesThrough l.dir n above) ∧
    (∀ e u, r.removeAll p t = (.error e, u) → t.Clears i u ∧ e ≠ .tooManySymlinks ∧
      (∀ above j, u.Named above j → t.Named above j) ∧
      ∀ above j, t.Named above j → u.Named above j ∨ t.GoesThrough l.dir n above) ∧
    ∀ levels, t.nodes.length ≤ levels → r.removeAllWithin levels p t = r.removeAll p t := by
  obtain ⟨d, hd, hn⟩ := Tree.mem_entries_of_lookup hi
  have hrun := triple_removeAll ht hl hname hi t rfl
  refine ⟨fun u hu => ?_, fun e u hu => ?_, fun levels hle => ?_⟩
  · rw [hu] at hrun
    exact ⟨hrun, fun above j => hrun.named_iff ht hd hn⟩
  · rw [hu] at hrun
    obtain ⟨hclears, hnotLinks⟩ := hrun
    exact ⟨hclears, hnotLinks, fun above j => hclears.named ht,
      fun above j => hclears.named_or_goesThrough ht hd hn⟩
  · exact (removeAll_eq_within ht hle r p).symm

end RemoveAll

section Scene

private def shedName : Name := ⟨[115, 104], rfl⟩

private def rackName : Name := ⟨[114, 97], rfl⟩

private def yardName : Name := ⟨[121, 97], rfl⟩

private def shed : NodeId := Tree.top.child 0

private def rack : NodeId := shed.child 0

/-- A directory with another one in it. In that one are links to the directory above and to a third
directory beside. -/
private def plantShed : Call Unit := do
  Call.mkdir (.entry Tree.top shedName) 0o755
  Call.mkdir (.entry shed rackName) 0o755
  Call.symlink ⟨[46, 46]⟩ (.entry rack ⟨[117, 112], rfl⟩)
  Call.mkdir (.entry Tree.top yardName) 0o755
  Call.symlink ⟨[46, 46, 47, 46, 46, 47, 121, 97]⟩ (.entry rack ⟨[98, 121], rfl⟩)

private def shedTree : Tree := (plantShed .fresh).2

/-- Both links go with the directory they are in, and what they lead to stays. -/
theorem removeAll_uproots_shed :
    shedTree.Sound ∧
    let r : Root := ⟨Tree.top, Path.top⟩
    let l : Endpoint := ⟨Tree.top, [], some shedName⟩
    r.walk shedTree ⟨[115, 104]⟩ false = .ok l ∧ l.name = some shedName ∧
    shedTree.lookup l.dir shedName = .ok shed ∧
    ∃ u, r.removeAll ⟨[115, 104]⟩ shedTree = (.ok (), u) ∧ shedTree.Uproots l.dir shedName shed u ∧
      u.Named [yardName] (Tree.top.child 1) ∧
      ∀ above j, u.Named above j → ¬ shedTree.GoesThrough l.dir shedName above := by
  have ht : shedTree.Sound := by
    have hkeeps : Action.Keeps Tree.Sound plantShed :=
      .bind (Call.keeps_sound_mkdir _ _) fun _ => .bind (Call.keeps_sound_mkdir _ _) fun _ =>
        .bind (Call.keeps_sound_symlink _ _) fun _ => .bind (Call.keeps_sound_mkdir _ _) fun _ =>
          Call.keeps_sound_symlink _ _
    exact hkeeps.apply Tree.sound_fresh
  let r : Root := ⟨Tree.top, Path.top⟩
  have hl : r.walk shedTree ⟨[115, 104]⟩ false = .ok ⟨Tree.top, [], some shedName⟩ := rfl
  have hi : shedTree.lookup Tree.top shedName = .ok shed := rfl
  have hrun : (r.removeAll ⟨[115, 104]⟩ shedTree).1 = .ok () := rfl
  obtain ⟨hremoved, -, -⟩ := removeAll_uproots ht hl rfl hi
  obtain ⟨huproots, hpaths⟩ := hremoved _ (Prod.ext hrun rfl)
  have hyard : shedTree.Named [yardName] (Tree.top.child 1) := .entry .top rfl rfl
  have hbeside : ¬ shedTree.GoesThrough Tree.top shedName [yardName] := by
    rintro ⟨way, -, hends⟩
    obtain ⟨heq, -⟩ := List.cons.inj (hends.eq_of_length_le (by simp))
    cases heq
  exact ⟨ht, hl, rfl, hi, _, Prod.ext hrun rfl, huproots, (hpaths _ _).2 ⟨hyard, hbeside⟩,
    fun above j hj => ((hpaths above j).1 hj).2⟩

end Scene

end Root

end ConfinedFs
