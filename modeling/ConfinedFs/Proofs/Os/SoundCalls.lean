import ConfinedFs.Os.Descriptor
import ConfinedFs.Proofs.Os.SoundChanges
import ConfinedFs.Proofs.Triple

/-!
Every call of the system keeps its tree sound. So every tree that the system gets
to from the one that holds nothing but its top is sound.
-/

namespace ConfinedFs.Os

open ConfinedFs.Action (Keeps Triple)

/-- What holds of a tree whatever data its files have. -/
def BlindToData (P : Tree → Prop) : Prop :=
  ∀ {t : Tree} {i : NodeId} {perm perm' : Permissions} {data data' : Bytes},
    t.node? i = some (.file perm data) → P t → P (t.put i (.file perm' data'))

theorem blind_sound : BlindToData Tree.Sound := fun hnode h => h.put_file hnode _ _

namespace Call

variable {t : Tree} {dir : NodeId} {P : Tree → Prop}

theorem keeps_demand (a : Access) (i : NodeId) : Keeps P (demand a i) := .query _

theorem keeps_demandRemoval (dir i : NodeId) : Keeps P (demandRemoval dir i) := .query _

/-- Only a directory that has not been removed can get one more entry. -/
theorem triple_demandGrowth : Triple (· = t) (demandGrowth dir)
    (fun _ s => s = t ∧ ∃ d, t.dir? dir = some d ∧ d.removed = false) fun _ s => s = t := by
  apply Triple.look_bind
  apply Triple.guarded
  · rintro _ s rfl
    rfl
  · intro hremoved
    have hdir : ∃ d, t.dir? dir = some d ∧ d.removed = false := by
      cases hd : t.dir? dir with
      | none =>
        rw [hd] at hremoved
        exact absurd rfl hremoved
      | some d =>
        rw [hd] at hremoved
        exact ⟨d, rfl, Bool.eq_false_iff.2 hremoved⟩
    apply Triple.query
    · rintro s a rfl _
      exact ⟨rfl, hdir⟩
    · rintro s e rfl _
      rfl

theorem keeps_demandGrowth : Keeps P (demandGrowth dir) :=
  .bind (.look _) fun _ => .when (.throw _) (keeps_demand .write dir)

theorem keeps_sound_addEntry (dir : NodeId) (n : Name) {node : Inode}
    (hnode : ∀ d, node = .directory d → d.entries = [] ∧ d.parent = dir) :
    Keeps Tree.Sound (addEntry dir n node) := by
  apply Keeps.of_fixed
  intro t ht
  apply Triple.bind (triple_demandGrowth.onError ?_)
  · rintro _ s ⟨rfl, d, hd, _⟩
    exact ht.addEntry (Tree.isDir_iff.2 ⟨d, hd⟩) n hnode
  · rintro e s rfl
    exact ht

theorem keeps_vacancy (place : Place) : Keeps P (vacancy place) := by
  cases place with
  | directory i => exact .throw _
  | entry dir n => exact .bind (.query _) fun found => .when (.throw _) (.pure _)

theorem keeps_sound_mkdir (place : Place) (mode : UInt32) :
    Keeps Tree.Sound (mkdir place mode) := by
  refine .bind (keeps_vacancy place) ?_
  rintro ⟨dir, n⟩
  refine .bind (.look _) fun perm => .bind (keeps_sound_addEntry dir n ?_) fun _ => .pure _
  rintro d hd
  cases hd
  exact ⟨rfl, rfl⟩

theorem keeps_sound_symlink (target : Path) (place : Place) :
    Keeps Tree.Sound (symlink target place) := by
  have htarget : Keeps Tree.Sound (checkTarget target) :=
    .bind (.ofExcept _) fun _ => .when (.throw _) (.pure _)
  refine .bind htarget fun _ => .bind (keeps_vacancy place) ?_
  rintro ⟨dir, n⟩
  refine .bind (keeps_sound_addEntry dir n ?_) fun _ => .pure _
  rintro d hd
  cases hd

theorem keeps_sound_unlink (place : Place) : Keeps Tree.Sound (unlink place) := by
  cases place with
  | directory i => exact .throw _
  | entry dir n =>
    refine .bind (.query _) fun i => .bind (keeps_demandRemoval dir i) fun _ => .bind (.look _) ?_
    intro isDir
    exact .when (.throw _) (.update fun s hs => hs.unlink dir n)

theorem keeps_demandEmpty (i : NodeId) : Keeps P (demandEmpty i) :=
  .bind (.look _) fun _ => .when (.throw _) (.pure _)

/-- No directory with entries gets past this. -/
theorem triple_demandEmpty (i : NodeId) : Triple (· = t) (demandEmpty i)
    (fun _ s => s = t ∧ ∀ d, t.dir? i = some d → d.entries = []) fun _ s => s = t := by
  refine Triple.look_bind (Triple.guarded_fixed fun hempty => Triple.pure ?_)
  rintro s rfl
  refine ⟨rfl, fun d hd => ?_⟩
  simpa [hd] using hempty

theorem keeps_sound_rmdir (place : Place) : Keeps Tree.Sound (rmdir place) := by
  cases place with
  | directory i => exact .throw _
  | entry dir n =>
    refine .bind (.query _) fun i => .bind (keeps_demandRemoval dir i) fun _ => .bind (.look _) ?_
    intro isDir
    refine .when (.throw _) (.bind (keeps_demandEmpty i) fun _ => ?_)
    exact .update fun s hs => (hs.unlink dir n).retire i

/-- What a move does. Its entry goes where there is none, or takes the place of one that stands
for no directory with entries, and it never goes below its own node. -/
inductive Moved (t : Tree) (dir : NodeId) (n : Name) (newDir : NodeId) (newName : Name) :
    Tree → Prop where
  | free {i : NodeId} {d : Directory} (hi : t.lookup dir n = .ok i)
      (habove : t.isAbove i newDir = false) (hd : t.dir? newDir = some d)
      (hremoved : d.removed = false) (hfree : t.occupant (.entry newDir newName) = .ok none) :
      Moved t dir n newDir newName (t.relocate dir n newDir newName i)
  | taken {i j : NodeId} (hi : t.lookup dir n = .ok i) (habove : t.isAbove i newDir = false)
      (hj : t.lookup newDir newName = .ok j) (hempty : ∀ d, t.dir? j = some d → d.entries = []) :
      Moved t dir n newDir newName ((t.relocate dir n newDir newName i).retire j)

/-- A move that succeeds has been made, unless it is one to where the entry leads already. -/
theorem triple_rename {newDir : NodeId} {n newName : Name} :
    Triple (· = t) (rename (.entry dir n) (.entry newDir newName))
      (fun _ u => u = t ∨ Moved t dir n newDir newName u) fun _ u => u = t := by
  have hsame : ∀ (_ : Errno) s, s = t → s = t := fun _ _ hs => hs
  refine Triple.query_bind (fun i hexisting => ?_) fun _ _ => rfl
  have hi := Tree.lookup_of_existing hexisting
  refine Triple.query_bind (fun old hold => ?_) fun _ _ => rfl
  apply Triple.look_bind
  refine Triple.guarded_fixed fun hnot => ?_
  have habove := Bool.eq_false_iff.2 hnot
  cases old with
  | none =>
    refine (keeps_demandRemoval dir i).andThen hsame fun _ => Triple.look_bind ?_
    refine Triple.bind triple_demandGrowth ?_
    rintro _ s ⟨rfl, d, hd, hremoved⟩
    have hlast : Triple (· = s) (if s.isDir i && decide (newDir ≠ dir) then
        demand .write i >>= fun _ => Action.update fun t => t.relocate dir n newDir newName i
        else Action.update fun t => t.relocate dir n newDir newName i)
        (fun _ u => u = s ∨ Moved s dir n newDir newName u) fun _ u => u = s := by
      refine (keeps_demand .write i).whenThen hsame (Triple.update ?_)
      rintro u rfl
      exact .inr (.free hi habove hd hremoved hold)
    exact hlast s rfl
  | some j =>
    refine Triple.look_bind (Triple.guarded_fixed fun _ => ?_)
    by_cases heq : i = j
    · rw [if_pos heq]
      exact Triple.pure fun s hs => .inl hs
    · rw [if_neg heq]
      refine (keeps_demandRemoval dir i).andThen hsame fun _ => Triple.look_bind ?_
      refine (keeps_demandRemoval newDir j).andThen hsame fun _ => Triple.look_bind ?_
      refine Triple.guarded_fixed fun _ => Triple.guarded_fixed fun _ => ?_
      refine (keeps_demand .write i).whenThen hsame (Triple.bind (triple_demandEmpty j) fun _ => ?_)
      refine Triple.update ?_
      rintro s ⟨rfl, hempty⟩
      exact .inr (.taken hi habove (Tree.lookup_of_occupant hold) hempty)

/-- A directory is never moved below itself, so it stays below the top. -/
theorem Moved.sound {newDir : NodeId} {n newName : Name} {u : Tree}
    (hmoved : Moved t dir n newDir newName u) (h : t.Sound) : u.Sound := by
  cases hmoved with
  | free hi habove hd =>
    obtain ⟨d, hdir, hn⟩ := Tree.mem_entries_of_lookup hi
    exact h.move hdir hn (Tree.isDir_iff.2 ⟨_, hd⟩) habove newName
  | taken hi habove hj =>
    obtain ⟨d, hdir, hn⟩ := Tree.mem_entries_of_lookup hi
    obtain ⟨d', hnew, _⟩ := Tree.mem_entries_of_lookup hj
    exact (h.move hdir hn (Tree.isDir_iff.2 ⟨d', hnew⟩) habove newName).retire _

theorem keeps_sound_rename (source target : Place) : Keeps Tree.Sound (rename source target) := by
  cases source with
  | directory i => exact .throw _
  | entry dir n =>
    cases target with
    | directory j => exact .throw _
    | entry newDir newName =>
      refine Keeps.of_fixed fun t ht =>
        triple_rename.weaken (fun _ hs => hs) ?_ fun _ _ hs => hs ▸ ht
      rintro _ u (rfl | hmoved)
      · exact ht
      · exact hmoved.sound ht

theorem keeps_truncate (hP : BlindToData P) (i : NodeId) : Keeps P (truncate i) := by
  apply Keeps.update
  intro t ht
  split
  · next perm data hnode => exact hP hnode ht
  · exact ht

theorem keeps_granted (hP : BlindToData P) (f : OpenFlags) (i : NodeId) :
    Keeps P (granted f i) := by
  unfold granted
  refine .when (keeps_demand .read i) (.when (keeps_demand .write i) ?_)
  exact .bind (.look _) fun _ => .when (.throw _) (.when (keeps_truncate hP i) (.pure _))

/-- Opening a node that exists changes nothing but the data of a file. -/
theorem keeps_openNode (hP : BlindToData P) (f : OpenFlags) (i : NodeId) :
    Keeps P (openNode f i) := by
  have hopen := keeps_granted hP f i
  unfold openNode
  refine .when (.throw _) ?_
  refine .bind (.look _) fun node => ?_
  cases node with
  | none => exact hopen
  | some node =>
    cases node with
    | directory d => exact .when (.throw _) hopen
    | file perm data => exact hopen
    | symlink standing target => exact .bind (.throw _) fun _ => hopen
    | special perm => exact hopen

theorem keeps_sound_openAt (f : OpenFlags) (place : Place) (strict : Bool) :
    Keeps Tree.Sound (openAt f place strict) := by
  unfold openAt
  refine .when (.throw _) ?_
  refine .bind (.query _) fun found => ?_
  cases found with
  | some i =>
    exact .bind (.look _) fun isDir => .when (.throw _) (keeps_openNode blind_sound f i)
  | none =>
    cases place with
    | directory i => exact .throw _
    | entry dir n =>
      refine .when (.throw _) (.bind (.look _) fun perm =>
        .bind (keeps_sound_addEntry dir n ?_) fun i => .pure _)
      rintro d hd
      cases hd

end Call

namespace Descriptor

/-- The tree beside a descriptor is sound. -/
abbrev OnSound (s : Descriptor × Tree) : Prop := s.2.Sound

section

variable {P : Tree → Prop} (hP : BlindToData P)

include hP

theorem blind_putData (data : Bytes) {s : Descriptor × Tree} (h : P s.2) :
    P (putData data s).2 := by
  unfold putData
  split
  · next perm old hnode => exact hP hnode h
  · exact h

theorem keeps_write (bytes : Bytes) : Keeps (fun s => P s.2) (write bytes) := by
  refine .bind (.look _) fun position => .bind (.query _) fun data => ?_
  split
  · exact .pure _
  · exact .bind (.look _) fun offset =>
      .bind (.update fun _ hs => blind_putData hP _ hs) fun _ => .pure _

theorem keeps_pwrite (bytes : Bytes) (offset : Nat) :
    Keeps (fun s => P s.2) (pwrite bytes offset) := by
  unfold pwrite
  refine .when (.throw _) ?_
  refine .bind (.query _) fun data => .bind (.look _) fun start => ?_
  exact .bind (.update fun _ hs => blind_putData hP _ hs) fun _ => .pure _

theorem keeps_pwriteWithin (calls : Nat) (bytes : Bytes) (offset : Nat) :
    Keeps (fun s => P s.2) (pwriteWithin calls bytes offset) := by
  induction calls generalizing bytes offset with
  | zero => exact .pure _
  | succ calls ih =>
    exact .ite (.pure _) (.bind (keeps_pwrite hP bytes offset) fun count => ih _ _)

theorem keeps_pwriteAll (bytes : Bytes) (offset : Nat) :
    Keeps (fun s => P s.2) (pwriteAll bytes offset) :=
  keeps_pwriteWithin hP _ bytes offset

theorem keeps_resize (size : Nat) : Keeps (fun s => P s.2) (resize size) := by
  unfold resize
  refine .when (.throw _) ?_
  exact .bind (.query _) fun data => .update fun _ hs => blind_putData hP _ hs

end

end Descriptor

/-- The trees that the system can get to, whether its calls succeed or fail. Only
these calls change a tree. -/
inductive Tree.Reachable : Tree → Prop
  | fresh : Reachable fresh
  | mkdir {t : Tree} (h : Reachable t) (place : Place) (mode : UInt32) :
      Reachable (Call.mkdir place mode t).2
  | symlink {t : Tree} (h : Reachable t) (target : Path) (place : Place) :
      Reachable (Call.symlink target place t).2
  | unlink {t : Tree} (h : Reachable t) (place : Place) : Reachable (Call.unlink place t).2
  | rmdir {t : Tree} (h : Reachable t) (place : Place) : Reachable (Call.rmdir place t).2
  | rename {t : Tree} (h : Reachable t) (source target : Place) :
      Reachable (Call.rename source target t).2
  | openAt {t : Tree} (h : Reachable t) (f : OpenFlags) (place : Place) (strict : Bool) :
      Reachable (Call.openAt f place strict t).2
  | write {t : Tree} (h : Reachable t) (d : Descriptor) (bytes : Bytes) :
      Reachable (Descriptor.write bytes (d, t)).2.2
  | pwrite {t : Tree} (h : Reachable t) (d : Descriptor) (bytes : Bytes) (offset : Nat) :
      Reachable (Descriptor.pwrite bytes offset (d, t)).2.2
  | resize {t : Tree} (h : Reachable t) (d : Descriptor) (size : Nat) :
      Reachable (Descriptor.resize size (d, t)).2.2

theorem Tree.Reachable.sound {t : Tree} (h : t.Reachable) : t.Sound := by
  induction h with
  | fresh => exact sound_fresh
  | mkdir _ place mode ih => exact (Call.keeps_sound_mkdir place mode).apply ih
  | symlink _ target place ih => exact (Call.keeps_sound_symlink target place).apply ih
  | unlink _ place ih => exact (Call.keeps_sound_unlink place).apply ih
  | rmdir _ place ih => exact (Call.keeps_sound_rmdir place).apply ih
  | rename _ source target ih => exact (Call.keeps_sound_rename source target).apply ih
  | openAt _ f place strict ih => exact (Call.keeps_sound_openAt f place strict).apply ih
  | @write t _ d bytes ih =>
    have hstart : Descriptor.OnSound (d, t) := ih
    exact (Descriptor.keeps_write blind_sound bytes).apply hstart
  | @pwrite t _ d bytes offset ih =>
    have hstart : Descriptor.OnSound (d, t) := ih
    exact (Descriptor.keeps_pwrite blind_sound bytes offset).apply hstart
  | @resize t _ d size ih =>
    have hstart : Descriptor.OnSound (d, t) := ih
    exact (Descriptor.keeps_resize blind_sound size).apply hstart

end ConfinedFs.Os
