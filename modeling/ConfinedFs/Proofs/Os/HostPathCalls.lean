import ConfinedFs.Proofs.Os.Growth
import ConfinedFs.Proofs.Os.HostPath

/-!
What the calls of the system do to the directories. Those that create or open something, and
everything that is done with an open file, take nothing away. Those that remove something only
drop entries. A move does both, but it never puts anything in the place of a directory that is
not empty.
-/

namespace ConfinedFs.Os

open ConfinedFs.Action (Keeps Triple)

namespace Tree

variable {t u : Tree} {i dir newDir : NodeId} {d : Directory} {n newName : Name}

/-- What is put under a free name takes nothing away. -/
theorem Sound.adds_addEntry (h : t.Sound) (hd : t.dir? dir = some d)
    (hfree : d.entries.lookup n = none) (node : Inode) :
    t.Adds ((t.grow dir node).link dir n (t.nextId dir)) := by
  have hnode := node?_addEntry hd n node
  have hnew := h.node?_nextId_eq_none dir
  refine ⟨fun {i s} hs => ?_⟩
  by_cases hi : i = dir
  · subst hi
    rw [hd] at hs
    cases hs
    refine ⟨_, dir?_eq_some_iff.2 ((hnode i).trans (if_pos rfl)), rfl, rfl, ?_⟩
    intro m j hm
    rw [Association.lookup_insert, if_neg, hm]
    rintro rfl
    rw [hfree] at hm
    cases hm
  · refine ⟨s, dir?_eq_some_iff.2 ?_, rfl, rfl, id⟩
    rw [hnode, if_neg hi, if_neg, dir?_eq_some_iff.1 hs]
    rintro rfl
    rw [dir?_eq_some_iff, hnew] at hs
    cases hs

/-- The data of a file are no directory's business. -/
theorem adds_put_file {perm perm' : Permissions} {data data' : Bytes}
    (hnode : t.node? i = some (.file perm data)) : t.Adds (t.put i (.file perm' data')) := by
  refine ⟨fun {k d} hd => ⟨d, ?_, rfl, rfl, id⟩⟩
  rw [dir?_put_of_ne, hd]
  rintro rfl
  rw [dir?_eq_some_iff, hnode] at hd
  cases hd

/-- Only the new name stands for something else than before. -/
theorem dir?_relocate (hd : t.dir? i = some d) (dir : NodeId) (n : Name) (newDir : NodeId)
    (newName : Name) (moved : NodeId) :
    ∃ d', (t.relocate dir n newDir newName moved).dir? i = some d' ∧ d'.perm = d.perm ∧
      d'.removed = d.removed ∧ ∀ {m j}, d'.entries.lookup m = some j →
        d.entries.lookup m = some j ∨ i = newDir ∧ m = newName := by
  have hunlinked : ∃ d₁, (t.unlink dir n).dir? i = some d₁ ∧ d₁.perm = d.perm ∧
      d₁.removed = d.removed ∧
        ∀ {m j}, d₁.entries.lookup m = some j → d.entries.lookup m = some j := by
    by_cases hi : i = dir
    · subst hi
      exact ⟨_, dir?_modifyDir_self hd _, rfl, rfl, Association.lookup_of_lookup_erase⟩
    · exact ⟨d, (dir?_modifyDir_of_ne _ hi).trans hd, rfl, rfl, id⟩
  obtain ⟨d₁, hd₁, hperm, hremoved, hentries⟩ := hunlinked
  have hlinked : ∃ d₂, ((t.unlink dir n).link newDir newName moved).dir? i = some d₂ ∧
      d₂.perm = d.perm ∧ d₂.removed = d.removed ∧ ∀ {m j}, d₂.entries.lookup m = some j →
        d.entries.lookup m = some j ∨ i = newDir ∧ m = newName := by
    rw [dir?_link]
    by_cases hi : i = newDir
    · subst hi
      rw [if_pos rfl, hd₁]
      refine ⟨_, rfl, hperm, hremoved, ?_⟩
      intro m j hm
      rw [Association.lookup_insert] at hm
      split at hm
      · next heq => exact .inr ⟨rfl, heq⟩
      · exact .inl (hentries hm)
    · rw [if_neg hi]
      exact ⟨d₁, hd₁, hperm, hremoved, fun hm => .inl (hentries hm)⟩
  obtain ⟨d₂, hd₂, hlinked⟩ := hlinked
  rw [relocate, dir?_modifyDir]
  by_cases hi : i = moved
  · subst hi
    rw [if_pos rfl, hd₂]
    exact ⟨_, rfl, hlinked⟩
  · rw [if_neg hi]
    exact ⟨d₂, hd₂, hlinked⟩

theorem remakes_of_moved (h : Call.Moved t dir n newDir newName u) : t.Remakes u := by
  have hrelocate : ∀ i, (∀ d k s, t.dir? newDir = some d → d.entries.lookup newName = some k →
      t.dir? k = some s → s.entries = []) → t.Remakes (t.relocate dir n newDir newName i) := by
    refine fun i hempty => ⟨fun {k d} hd => ?_⟩
    obtain ⟨d', hd', hperm, hremoved, hentries⟩ := dir?_relocate hd dir n newDir newName i
    refine ⟨d', hd', hperm, fun hr => .inl (hremoved ▸ hr), fun hm => ?_⟩
    rcases hentries hm with hold | ⟨rfl, rfl⟩
    · exact .inl hold
    · exact .inr fun k s hk hs => hempty d k s hd hk hs
  cases h with
  | free _ _ hd hremoved hfree =>
    apply hrelocate
    rintro d' k s hd' hk
    rw [hd] at hd'
    cases hd'
    rw [(vacant_of_occupant hfree hd hremoved).2.2] at hk
    cases hk
  | @taken i j _ _ hj hempty =>
    have hmoved := hrelocate i fun d k s hd hk hs => by
      obtain ⟨d', hd', _, hentry⟩ := entry_of_lookup hj
      rw [hd] at hd'
      cases hd'
      rw [hk] at hentry
      cases hentry
      exact hempty s hs
    refine ⟨fun {k d} hd => ?_⟩
    obtain ⟨d', hd', hperm, hremoved, hentries⟩ := hmoved.dirs hd
    by_cases hk : k = j
    · subst hk
      exact ⟨_, dir?_modifyDir_self hd' _, hperm, fun _ => .inr (.inl (hempty d hd)), hentries⟩
    · exact ⟨d', (dir?_modifyDir_of_ne _ hk).trans hd', hperm, hremoved, hentries⟩

end Tree

namespace Call

variable {α : Type} {t : Tree} {dir : NodeId} {n : Name}

/-- What the calls may leave of a tree. Directories that are not empty stay where they are, or
lose their path. -/
def Remade (t u : Tree) : Prop := t.Remakes u ∧ u.Sound

/-- Nothing has been taken away from the directories, and the tree is sound. -/
def Grown (t u : Tree) : Prop := t.Adds u ∧ u.Sound

/-- Entries have been dropped from the directories at most, and the tree is sound. -/
def Dropped (t u : Tree) : Prop := t.Drops u ∧ u.Sound

section

variable {u v : Tree}

theorem Grown.refl (h : t.Sound) : Grown t t := ⟨.refl t, h⟩

theorem Dropped.refl (h : t.Sound) : Dropped t t := ⟨.refl t, h⟩

theorem Dropped.remade (h : Dropped t u) : Remade t u := ⟨h.1.remakes, h.2⟩

theorem Remade.refl (h : t.Sound) : Remade t t := (Dropped.refl h).remade

theorem Grown.then_remade (h : Grown t u) (h' : Remade u v) : Remade t v :=
  ⟨h.1.remakes h'.1, h'.2⟩

theorem Grown.remade (h : Grown t u) : Remade t u := h.then_remade (.refl h.2)

end

/-- It is enough to start from the tree itself. -/
theorem keeps_grown_of {x : Call α}
    (hx : ∀ s, s.Sound → Triple (· = s) x (fun _ => Grown s) fun _ => Grown s) :
    Keeps (Grown t) x := by
  apply Keeps.of_fixed
  rintro s ⟨hadds, hs⟩
  exact (hx s hs).weaken (fun _ h => h) (fun _ _ h => ⟨hadds.trans h.1, h.2⟩)
    fun _ _ h => ⟨hadds.trans h.1, h.2⟩

theorem triple_grown_addEntry (h : t.Sound) (hfree : t.occupant (.entry dir n) = .ok none)
    {node : Inode} (hnode : ∀ d, node = .directory d → d.entries = [] ∧ d.parent = dir) :
    Triple (· = t) (addEntry dir n node) (fun _ => Grown t) fun _ => Grown t := by
  refine Triple.bind (triple_demandGrowth.onError ?_) ?_
  · rintro _ _ rfl
    exact .refl h
  · rintro _ s ⟨rfl, d, hd, hremoved⟩
    have hvacant := (Tree.vacant_of_occupant hfree hd hremoved).2.2
    exact ⟨h.adds_addEntry hd hvacant node, h.addEntry (Tree.isDir_iff.2 ⟨d, hd⟩) n hnode⟩

/-- What is done with a free name only has to take nothing away if the name is free. -/
theorem keeps_grown_vacancy {f : NodeId × Name → Call α} (place : Place)
    (hf : ∀ s dir n, s.Sound → s.occupant (.entry dir n) = .ok none →
      Triple (· = s) (f (dir, n)) (fun _ => Grown s) fun _ => Grown s) :
    Keeps (Grown t) (vacancy place >>= f) := by
  apply keeps_grown_of
  intro s hs
  cases place with
  | directory i =>
    refine Triple.throw_bind ?_
    rintro _ rfl
    exact .refl hs
  | entry dir n =>
    refine Triple.bind (triple_vacancy.weaken (fun _ h => h) (fun _ _ h => h) ?_) ?_
    · rintro _ _ rfl
      exact .refl hs
    · rintro _ u ⟨rfl, rfl, hfree⟩
      exact hf u dir n hs hfree u rfl

theorem keeps_grown_mkdir (place : Place) (mode : UInt32) : Keeps (Grown t) (mkdir place mode) := by
  refine keeps_grown_vacancy place fun s dir n hs hfree => ?_
  refine Triple.look_bind ?_
  refine Triple.bind (triple_grown_addEntry hs hfree ?_) fun _ => Triple.pure fun _ h => h
  rintro d hd
  cases hd
  exact ⟨rfl, rfl⟩

theorem keeps_grown_symlink (target : Path) (place : Place) :
    Keeps (Grown t) (symlink target place) := by
  have htarget : Keeps (Grown t) (checkTarget target) :=
    .bind (.ofExcept _) fun _ => .when (.throw _) (.pure _)
  refine .bind htarget fun _ => keeps_grown_vacancy place fun s dir n hs hfree => ?_
  exact Triple.bind (triple_grown_addEntry hs hfree nofun) fun _ => Triple.pure fun _ h => h

theorem blind_grown (t : Tree) : BlindToData (Grown t) := fun hnode h =>
  ⟨h.1.trans (Tree.adds_put_file hnode), blind_sound hnode h.2⟩

theorem keeps_grown_openAt (f : OpenFlags) (place : Place) (strict : Bool) :
    Keeps (Grown t) (openAt f place strict) := by
  unfold openAt
  refine .when (.throw _) (keeps_grown_of fun s hs => ?_)
  have hstart : ∀ {β : Type} {y : Call β}, Keeps (Grown s) y →
      Triple (· = s) y (fun _ => Grown s) fun _ => Grown s := by
    intro β y hy
    refine hy.weaken ?_ (fun _ _ h => h) fun _ _ h => h
    rintro _ rfl
    exact .refl hs
  refine Triple.query_bind (fun found hfound => ?_) fun _ _ => .refl hs
  cases found with
  | some i =>
    exact hstart (.bind (.look _) fun isDir =>
      .when (.throw _) (keeps_openNode (blind_grown s) f i))
  | none =>
    cases place with
    | directory i => exact hstart (.throw _)
    | entry dir n =>
      refine Triple.guarded (fun _ => ?_) fun _ => ?_
      · rintro _ rfl
        exact .refl hs
      · refine Triple.look_bind ?_
        exact Triple.bind (triple_grown_addEntry hs hfound nofun) fun _ => Triple.pure fun _ h => h

theorem keeps_dropped_unlink (place : Place) : Keeps (Dropped t) (unlink place) := by
  cases place with
  | directory i => exact .throw _
  | entry dir n =>
    refine .bind (.query _) fun i => .bind (keeps_demandRemoval dir i) fun _ => .bind (.look _) ?_
    intro isDir
    exact .when (.throw _)
      (.update fun s hs => ⟨hs.1.trans (s.drops_unlink dir n), hs.2.unlink dir n⟩)

/-- Only an empty directory is removed. -/
theorem keeps_dropped_rmdir (place : Place) : Keeps (Dropped t) (rmdir place) := by
  cases place with
  | directory i => exact .throw _
  | entry dir n =>
    refine .bind (.query _) fun i => .bind (keeps_demandRemoval dir i) fun _ => .bind (.look _) ?_
    intro isDir
    refine .when (.throw _) (Keeps.of_fixed fun s hs => ?_)
    refine Triple.bind ((triple_demandEmpty i).weaken (fun _ h => h) (fun _ _ h => h) ?_)
      fun _ => ?_
    · rintro _ _ rfl
      exact hs
    · refine Triple.update ?_
      rintro u ⟨rfl, hempty⟩
      have hunlinked := u.drops_unlink dir n
      refine ⟨(hs.1.trans hunlinked).trans (Tree.drops_retire _ fun d hd => ?_),
        (hs.2.unlink dir n).retire i⟩
      have hdir : u.isDir i = true := (Tree.isDir_modifyDir u dir _ i).symm.trans
        (Tree.isDir_iff.2 ⟨d, hd⟩)
      obtain ⟨d₀, hd₀⟩ := Tree.isDir_iff.1 hdir
      obtain ⟨d', hd', _, _, hsubset, _⟩ := hunlinked.dirs hd₀
      rw [hd] at hd'
      cases hd'
      rw [hempty d₀ hd₀] at hsubset
      exact List.subset_nil.1 hsubset

theorem triple_remade_rename (h : t.Sound) (source target : Place) :
    Triple (· = t) (rename source target) (fun _ => Remade t) fun _ => Remade t := by
  have hsame : Remade t t := .refl h
  have hthrow : ∀ {e : Errno}, Triple (· = t) (throw e : Call Unit) (fun _ => Remade t)
      fun _ => Remade t := by
    refine Triple.throw ?_
    rintro _ rfl
    exact hsame
  cases source with
  | directory i => exact hthrow
  | entry dir n =>
    cases target with
    | directory j => exact hthrow
    | entry newDir newName =>
      refine triple_rename.weaken (fun _ hs => hs) ?_ ?_
      · rintro _ u (rfl | hmoved)
        · exact hsame
        · exact ⟨Tree.remakes_of_moved hmoved, hmoved.sound h⟩
      · rintro _ _ rfl
        exact hsame

end Call

end ConfinedFs.Os
