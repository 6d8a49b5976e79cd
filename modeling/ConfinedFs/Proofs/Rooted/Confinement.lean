import ConfinedFs.Proofs.Rooted.ClearDir
import ConfinedFs.Proofs.Rooted.ConfinedRoot

/-!
What is asked of a root is answered by what lies under its directory, and changes
nothing else. Stated with two trees of the operating system that agree under the
directory and may differ anywhere else: the answers are the same, the trees still
agree under the directory, and outside each of them is as it was.
-/

namespace ConfinedFs

open ConfinedFs.Os

namespace Os.Enclosure

variable {t t' u : Tree} {base : NodeId}

/-- A directory with everything under it, and with the identities that are not in
use. -/
def around (base : NodeId) (t t' : Tree) : Enclosure where
  base := base
  inside i := t.Under base i ∨ t.node? i = none ∧ t'.node? i = none

/-- Trees that agree under a directory look the same around it. -/
theorem twin_around (h : t.Sound) (h' : t'.Sound) (hbase : t.isDir base = true)
    (hagree : Tree.AgreeUnder base t t') : (around base t t').Twin t t' := by
  have hseen : ∀ {i}, (around base t t').inside i → t'.seen base i = t.seen base i := by
    intro i hi
    rcases hi with hunder | ⟨hnone, hnone'⟩
    · exact hagree.nodes i hunder
    · exact Tree.seen_congr base (hnone'.trans hnone.symm)
  refine ⟨hagree.umask, .inl .base, hbase, hseen, ?_, ?_⟩
  · intro dir d n i hdir hd hn
    rcases hdir with hunder | ⟨hnone, _⟩
    · exact .inl (.entry hunder hd hn)
    · rw [Tree.dir?_eq_some_iff, hnone] at hd
      cases hd
  · intro i count hi hcount
    have hnone := h.node?_child_eq_none i count hcount
    rw [← Tree.created_of_seen_eq (hseen hi)] at hcount
    exact ⟨.inr ⟨hnone, h'.node?_child_eq_none i count hcount⟩, hnone⟩

/-- Nothing that can be reached from the base is outside. -/
theorem Twin.agreeUnder {E : Enclosure} (h : E.Twin t t') : Tree.AgreeUnder E.base t t' := by
  refine ⟨h.umask, fun i hi => ?_⟩
  apply h.seen
  induction hi with
  | base => exact h.base_inside
  | entry _ hd hn ih => exact h.closed ih hd hn

/-- As long as everything inside is under the base or not in use, changes inside
leave what is outside of the base as it is. -/
theorem Local.sameOutside {E : Enclosure} (hlocal : E.Local t u) (h : t.Sound)
    (hsevered : t.Severed E.base)
    (hinside : ∀ i, E.inside i → t.Under E.base i ∨ t.node? i = none) :
    Tree.SameOutside E.base t u := by
  have hexists : ∀ i, t.Apart E.base i → (t.node? i).isSome := by
    intro i hi
    cases hi with
    | top _ =>
      obtain ⟨d, hd, _⟩ := h.top_dir
      exact Tree.node?_isSome_of_dir? hd
    | entry _ hd hn _ => exact h.entry_node hd hn
  have hnode : ∀ i, (t.node? i).isSome → t.Apart E.base i ∨ ¬ t.Under E.base i →
      u.node? i = t.node? i := by
    intro i hsome hi
    apply hlocal.outside
    intro hin
    rcases hinside i hin with hunder | hnone
    · rcases hi with hapart | hnot
      · exact hsevered i hunder hapart
      · exact hnot hunder
    · rw [hnone] at hsome
      cases hsome
  have hapart : ∀ i, t.Apart E.base i → u.node? i = t.node? i :=
    fun i hi => hnode i (hexists i hi) (.inl hi)
  refine ⟨?_, hnode, hlocal.place⟩
  intro i
  constructor
  · intro hi
    induction hi with
    | top hne => exact .top hne
    | entry _ hd hn hne ih => exact .entry ih (Tree.dir?_congr (hapart _ ih) ▸ hd) hn hne
  · intro hi
    induction hi with
    | top hne => exact .top hne
    | entry hdir hd hn hne ih =>
      rw [← Tree.dir?_congr (hapart _ hdir)] at hd
      exact .entry ih hd hn hne

/-- What is above what under a directory is the same in both trees. -/
theorem isAbove_around (h : t.Sound) (h' : t'.Sound) (hagree : Tree.AgreeUnder base t t')
    {i j : NodeId} (hi : (around base t t').inside i) (hne : i ≠ base)
    (hj : (around base t t').inside j) (hdir : t.isDir j = true)
    (hdir' : t'.isDir j = true) : t'.isAbove i j = t.isAbove i j := by
  obtain ⟨d, hd⟩ := Tree.isDir_iff.1 hdir
  obtain ⟨d', hd'⟩ := Tree.isDir_iff.1 hdir'
  obtain ⟨l, hl⟩ := h.grounded hd
  obtain ⟨l', hl'⟩ := h'.grounded hd'
  rw [Bool.eq_iff_iff, h'.isAbove_iff hl', h.isAbove_iff hl]
  have hunder : t.Under base j := by
    rcases hj with hunder | ⟨hnone, _⟩
    · exact hunder
    · rw [Tree.dir?_eq_some_iff, hnone] at hd
      cases hd
  rcases hi with hi | ⟨hnone, hnone'⟩
  · exact (h.mem_ascends_iff h' hagree hi hne hunder hl hl').symm
  · constructor
    · intro hmem
      obtain ⟨s, hs⟩ := h'.dir?_of_ascends hl' hmem
      rw [Tree.dir?_eq_some_iff, hnone'] at hs
      cases hs
    · intro hmem
      obtain ⟨s, hs⟩ := h.dir?_of_ascends hl hmem
      rw [Tree.dir?_eq_some_iff, hnone] at hs
      cases hs

end Os.Enclosure

namespace Root

open ConfinedFs.Os.Enclosure

variable {α : Type} {E : Enclosure} {t t' : Tree} {r : Root}

theorem confines_removeAllWithin (hr : E.inside r.dir) (levels : Nat) (p : Path) :
    E.Confines (r.removeAllWithin levels p) Any := by
  refine .bind (confines_walk hr p false) fun l hl => ?_
  have hentry : E.Confines (Action.ofExcept (l.entry .baseDirRemove)) fun entry =>
      E.inside entry.1 := by
    apply Confines.ofExcept
    intro entry hentry
    unfold Endpoint.entry at hentry
    split at hentry
    · cases hentry
      exact hl
    · cases hentry
  refine .bind hentry fun entry hdir => ?_
  have hstat : E.Confines (Action.query (statIn · entry.1 entry.2)) Any :=
    fun _ _ h => .query h (statIn_eq h hdir entry.2) fun _ _ => trivial
  refine .bind hstat fun found _ => ?_
  cases found with
  | none => exact .pure trivial
  | some s =>
    refine .bind (confines_placeOf hl) fun place hplace => ?_
    split
    · exact .bind (confines_openDirAt hplace) fun child hchild =>
        .bind (confines_clearDir levels hchild) fun _ _ => .mapError (confines_rmdir hplace) _
    · exact .mapError (confines_unlink hplace) _

/-- Removing everything takes the larger number of nodes for its bound on both
sides. -/
theorem agree_removeAll (h : t.Sound) (h' : t'.Sound) (htwin : E.Twin t t')
    (hr : E.inside r.dir) (p : Path) : E.Agree (r.removeAll p) Any t t' := by
  have hbound := confines_removeAllWithin hr (max t.nodes.length t'.nodes.length) p t t' htwin
  apply hbound.congr
  · exact removeAll_eq_within h (Nat.le_max_left ..) r p
  · exact removeAll_eq_within h' (Nat.le_max_right ..) r p

theorem agree_rename (h : t.Sound) (h' : t'.Sound) (hbase : t.isDir r.dir = true)
    (hagree : Tree.AgreeUnder r.dir t t') (source target : Path) :
    (around r.dir t t').Agree (r.rename source target) Any t t' := by
  have htwin := twin_around h h' hbase hagree
  have hr : (around r.dir t t').inside r.dir := .inl .base
  refine .query_bind htwin (walk_eq htwin hr source false) fun a ha => ?_
  refine .query_bind htwin (walk_eq htwin hr target false) fun b hb => ?_
  refine .ofExcept_bind htwin fun entry hentry => .ofExcept_bind htwin fun entry' hentry' => ?_
  rw [placeOf_eq, placeOf_eq]
  refine .ofExcept_bind htwin fun place hplace => .ofExcept_bind htwin fun place' hplace' => ?_
  obtain ⟨hdir, rfl⟩ := place_of_entry hentry hplace
  obtain ⟨hdir', rfl⟩ := place_of_entry hentry' hplace'
  have hsource : (around r.dir t t').inside entry.1 := hdir ▸ walk_inside htwin hr ha
  have htarget : (around r.dir t t').inside entry'.1 := hdir' ▸ walk_inside htwin hr hb
  apply Agree.mapError
  apply Enclosure.agree_rename htwin hsource htarget
  · intro i j hi hne hj hisDir
    have hisDir' : t'.isDir j = true := (htwin.isDir_eq hj).trans hisDir
    exact isAbove_around h h' hagree hi hne hj hisDir hisDir'
  · intro dir d n hin hd
    rcases hin with hunder | ⟨hnone, _⟩
    · exact h.not_mem_entries_of_under hbase hunder hd n
    · rw [Tree.dir?_eq_some_iff, hnone] at hd
      cases hd

/-- What can be asked of a root, with the type of the answer. -/
inductive Request : Type → Type
  | stat (p : Path) : Request Stat
  | lstat (p : Path) : Request Stat
  | openFile (p : Path) (o : OpenOptions) : Request FileHandle
  | mkdir (p : Path) (mode : UInt32) : Request Unit
  | mkdirAll (p : Path) (mode : UInt32) : Request Unit
  | remove (p : Path) : Request Unit
  | removeAll (p : Path) : Request Unit
  | rename (source target : Path) : Request Unit
  | symlink (target link : Path) : Request Unit
  | readlink (p : Path) : Request Path
  | readDir (p : Path) : Request (List (Name × Stat))
  | openRoot (p : Path) : Request Root

def perform (r : Root) : Request α → Work α
  | .stat p => r.stat p
  | .lstat p => r.lstat p
  | .openFile p o => r.openFile p o
  | .mkdir p mode => r.mkdir p mode
  | .mkdirAll p mode => r.ensureDirs p mode
  | .remove p => r.remove p
  | .removeAll p => r.removeAll p
  | .rename source target => r.rename source target
  | .symlink target link => r.symlink target link
  | .readlink p => r.readlink p
  | .readDir p => r.readDir p
  | .openRoot p => r.openRoot p

theorem agree_perform (h : t.Sound) (h' : t'.Sound) (hbase : t.isDir r.dir = true)
    (hagree : Tree.AgreeUnder r.dir t t') (request : Request α) :
    (around r.dir t t').Agree (r.perform request) Any t t' := by
  have htwin := twin_around h h' hbase hagree
  have hr : (around r.dir t t').inside r.dir := .inl .base
  cases request with
  | stat p => exact confines_stat hr p t t' htwin
  | lstat p => exact confines_lstat hr p t t' htwin
  | openFile p o => exact confines_openFile hr p o t t' htwin
  | mkdir p mode => exact confines_mkdir hr p mode t t' htwin
  | mkdirAll p mode => exact confines_ensureEach hr mode (stages p) t t' htwin
  | remove p => exact confines_remove hr p t t' htwin
  | removeAll p => exact agree_removeAll h h' htwin hr p
  | rename source target => exact agree_rename h h' hbase hagree source target
  | symlink target link => exact confines_symlink hr target link t t' htwin
  | readlink p => exact confines_readlink hr p t t' htwin
  | readDir p => exact confines_readDir hr p t t' htwin
  | openRoot p => exact (confines_openRoot hr p t t' htwin).weaken fun _ _ => trivial

/-- In two trees that agree under the directory of a root and have no hard links
across its border, every request has the same answer and leaves trees that agree
under the directory. Outside of it both trees are as they were. -/
theorem perform_confined (h : t.Sound) (h' : t'.Sound) (hbase : t.isDir r.dir = true)
    (hsevered : t.Severed r.dir) (hsevered' : t'.Severed r.dir)
    (hagree : Tree.AgreeUnder r.dir t t') (request : Request α) :
    (r.perform request t').1 = (r.perform request t).1 ∧
      Tree.AgreeUnder r.dir (r.perform request t).2 (r.perform request t').2 ∧
      Tree.SameOutside r.dir t (r.perform request t).2 ∧
      Tree.SameOutside r.dir t' (r.perform request t').2 := by
  obtain ⟨hresult, htwin, hfirst, hsecond, _⟩ := agree_perform h h' hbase hagree request
  refine ⟨hresult, htwin.agreeUnder, ?_, ?_⟩
  · apply hfirst.sameOutside h hsevered
    rintro i (hunder | ⟨hnone, _⟩)
    · exact .inl hunder
    · exact .inr hnone
  · apply hsecond.sameOutside h' hsevered'
    rintro i (hunder | ⟨_, hnone⟩)
    · exact .inl (hagree.under_iff.2 hunder)
    · exact .inr hnone

section HostileLink

private def jailName : Name := ⟨[106], by decide⟩

private def linkName : Name := ⟨[108], by decide⟩

private def secretName : Name := ⟨[115], by decide⟩

private def jail : NodeId := Tree.top.child 0

/-- A directory with a link to its parent, and something beside the directory. -/
private def scene (beside : Call Unit) : Call Unit := do
  Call.mkdir (.entry Tree.top jailName) 0o755
  Call.symlink Path.up (.entry jail linkName)
  beside

private theorem sound_scene {beside : Call Unit} (h : Action.Keeps Tree.Sound beside) :
    (scene beside Tree.fresh).2.Sound := by
  have hkeeps : Action.Keeps Tree.Sound (scene beside) :=
    .bind (Call.keeps_sound_mkdir _ _) fun _ => .bind (Call.keeps_sound_symlink _ _) fun _ => h
  exact hkeeps.apply Tree.sound_fresh

private def withDir : Tree :=
  (scene (Call.mkdir (.entry Tree.top secretName) 0o755) Tree.fresh).2

private def withLink : Tree :=
  (scene (Call.symlink Path.here (.entry Tree.top secretName)) Tree.fresh).2

/-- A link that leads out of the directory tells nothing of what is there. -/
theorem perform_confined_hostile_link :
    (withDir.Sound ∧ withLink.Sound ∧ withDir.isDir jail = true ∧ withDir.Severed jail ∧
        withLink.Severed jail ∧ Tree.AgreeUnder jail withDir withLink) ∧
      let r : Root := ⟨jail, Path.ofNames [jailName]⟩
      let request : Request Stat := .stat (Path.ofComponents [.name linkName, .name secretName])
      (r.perform request withLink).1 = (r.perform request withDir).1 ∧
        Tree.AgreeUnder jail (r.perform request withDir).2 (r.perform request withLink).2 ∧
        Tree.SameOutside jail withDir (r.perform request withDir).2 ∧
        Tree.SameOutside jail withLink (r.perform request withLink).2 := by
  have h : withDir.Sound := sound_scene (Call.keeps_sound_mkdir _ _)
  have h' : withLink.Sound := sound_scene (Call.keeps_sound_symlink _ _)
  have hbase : withDir.isDir jail = true := by decide
  have hunder : ∀ i, withDir.Under jail i → i ∈ [jail, jail.child 0] :=
    fun _ => Tree.mem_of_under (by decide) (by decide)
  have hunder' : ∀ i, withLink.Under jail i → i ∈ [jail, jail.child 0] :=
    fun _ => Tree.mem_of_under (by decide) (by decide)
  have hapart : ∀ i, withDir.Apart jail i → i ∈ [Tree.top, Tree.top.child 1] :=
    fun _ => Tree.mem_of_apart (by decide) (by decide)
  have hapart' : ∀ i, withLink.Apart jail i → i ∈ [Tree.top, Tree.top.child 1] :=
    fun _ => Tree.mem_of_apart (by decide) (by decide)
  have hdisjoint : ∀ i ∈ [jail, jail.child 0], i ∉ [Tree.top, Tree.top.child 1] := by decide
  have hsevered : withDir.Severed jail := fun i hi hi' =>
    hdisjoint i (hunder i hi) (hapart i hi')
  have hsevered' : withLink.Severed jail := fun i hi hi' =>
    hdisjoint i (hunder' i hi) (hapart' i hi')
  have hagree : Tree.AgreeUnder jail withDir withLink := by
    refine ⟨rfl, fun i hi => ?_⟩
    have hsame : ∀ i ∈ [jail, jail.child 0], withLink.seen jail i = withDir.seen jail i := by decide
    exact hsame i (hunder i hi)
  exact ⟨⟨h, h', hbase, hsevered, hsevered', hagree⟩,
    perform_confined (r := ⟨jail, _⟩) h h' hbase hsevered hsevered' hagree _⟩

end HostileLink

end Root

end ConfinedFs
