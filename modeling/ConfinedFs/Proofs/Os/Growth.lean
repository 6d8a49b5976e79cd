import ConfinedFs.Proofs.Os.SoundCalls

/-!
Trees that gain directories. Creating a directory leaves everything else as it was, so
what the system has found before, it finds again. What is new can only be reached by a
new name, and is all directories.
-/

namespace ConfinedFs.Os

open ConfinedFs.Action (Keeps Triple)

/-- A directory that has got entries for new nodes and has lost none. -/
structure Directory.Gains (fresh : NodeId → Prop) (d d' : Directory) : Prop where
  perm : d'.perm = d.perm
  parent : d'.parent = d.parent
  removed : d'.removed = d.removed
  kept : ∀ {n j}, d.entries.lookup n = some j → d'.entries.lookup n = some j
  gained : ∀ {n j}, d'.entries.lookup n = some j → d.entries.lookup n = some j ∨ fresh j

namespace Tree

variable {t u v : Tree} {i j dir : NodeId} {d : Directory} {n : Name} {place : Place}

/-- A tree that has gained directories. Files and links are as they were, and so are
the entries and permissions of the directories that were there; new entries lead to new
nodes, and these are directories that hold nothing else. -/
structure Gains (t u : Tree) : Prop where
  others : ∀ {i n}, t.node? i = some n → t.isDir i = false → u.node? i = some n
  dirs : ∀ {i d}, t.dir? i = some d → ∃ d', u.dir? i = some d' ∧ d.Gains (t.node? · = none) d'
  new : ∀ {i n}, t.node? i = none → u.node? i = some n →
    ∃ d, n = .directory d ∧ ∀ {m j}, d.entries.lookup m = some j → t.node? j = none

section Gains

theorem Gains.refl (t : Tree) : t.Gains t := by
  refine ⟨fun hi _ => hi, fun hd => ⟨_, hd, rfl, rfl, rfl, id, .inl⟩, ?_⟩
  intro i n hnone hsome
  rw [hnone] at hsome
  cases hsome

/-- A node stays as it is or is a directory that has gained entries. -/
theorem Gains.node?_cases (h : t.Gains u) {node : Inode} (hi : t.node? i = some node) :
    u.node? i = some node ∨ ∃ d d', node = .directory d ∧ u.node? i = some (.directory d') ∧
      d.Gains (t.node? · = none) d' := by
  cases node with
  | directory d =>
    obtain ⟨d', hd', hgains⟩ := h.dirs (dir?_eq_some_iff.2 hi)
    exact .inr ⟨d, d', rfl, dir?_eq_some_iff.1 hd', hgains⟩
  | file perm data => exact .inl (h.others hi (by simp [isDir, dir?, hi]))
  | symlink standing target => exact .inl (h.others hi (by simp [isDir, dir?, hi]))
  | special perm => exact .inl (h.others hi (by simp [isDir, dir?, hi]))

/-- No node is lost. -/
theorem Gains.node?_eq_none (h : t.Gains u) (hi : u.node? i = none) : t.node? i = none := by
  cases hnode : t.node? i with
  | none => rfl
  | some node =>
    rcases h.node?_cases hnode with hsame | ⟨d, d', _, hd', _⟩
    · rw [hi] at hsame
      cases hsame
    · rw [hi] at hd'
      cases hd'

theorem Gains.trans (h : t.Gains u) (h' : u.Gains v) : t.Gains v := by
  have hfresh : ∀ {d d' : Directory}, (∀ {m j}, d.entries.lookup m = some j → t.node? j = none) →
      d.Gains (u.node? · = none) d' → ∀ {m j}, d'.entries.lookup m = some j → t.node? j = none := by
    intro d d' hd hgains m j hm
    rcases hgains.gained hm with hold | hnew
    · exact hd hold
    · exact h.node?_eq_none hnew
  refine ⟨?_, ?_, ?_⟩
  · intro i n hi hdir
    have hu := h.others hi hdir
    refine h'.others hu ?_
    rw [Tree.isDir, dir?_congr (hu.trans hi.symm)]
    exact hdir
  · intro i d hd
    obtain ⟨d₁, hd₁, hgains⟩ := h.dirs hd
    obtain ⟨d₂, hd₂, hgains'⟩ := h'.dirs hd₁
    refine ⟨d₂, hd₂, hgains'.perm.trans hgains.perm, hgains'.parent.trans hgains.parent,
      hgains'.removed.trans hgains.removed, fun hn => hgains'.kept (hgains.kept hn), ?_⟩
    intro n j hn
    rcases hgains'.gained hn with hold | hnew
    · exact hgains.gained hold
    · exact .inr (h.node?_eq_none hnew)
  · intro i n hnone hi
    cases hu : u.node? i with
    | none =>
      obtain ⟨d, rfl, hd⟩ := h'.new hu hi
      exact ⟨d, rfl, fun hm => h.node?_eq_none (hd hm)⟩
    | some node =>
      obtain ⟨d, rfl, hd⟩ := h.new hnone hu
      rcases h'.node?_cases hu with hsame | ⟨d₁, d₂, heq, hd₂, hgains⟩
      · rw [hi] at hsame
        cases hsame
        exact ⟨d, rfl, hd⟩
      · rw [hi] at hd₂
        cases heq
        cases hd₂
        exact ⟨d₂, rfl, hfresh hd hgains⟩

end Gains

section Known

/-- What the system says about a node that was there, it says again. -/
theorem Gains.demand_eq (h : t.Gains u) (hi : (t.node? i).isSome) (a : Access) :
    u.demand a i = t.demand a i := by
  obtain ⟨node, hnode⟩ := Option.isSome_iff_exists.1 hi
  unfold Tree.demand
  rw [hnode]
  rcases h.node?_cases hnode with hsame | ⟨d, d', rfl, hd', hgains⟩
  · rw [hsame]
  · have hperm : (Inode.directory d').perm = (Inode.directory d).perm := hgains.perm
    rw [hd']
    dsimp only
    rw [hperm]

theorem Gains.stat_eq (h : t.Gains u) (hi : (t.node? i).isSome) : u.stat i = t.stat i := by
  obtain ⟨node, hnode⟩ := Option.isSome_iff_exists.1 hi
  unfold Tree.stat Tree.report
  rw [hnode]
  rcases h.node?_cases hnode with hsame | ⟨d, d', rfl, hd', hgains⟩
  · rw [hsame]
  · rw [hd']
    simp only [Report.ofInode, Inode.perm, hgains.perm]
    rfl

theorem Gains.link?_eq (h : t.Gains u) (hi : (t.node? i).isSome) : u.link? i = t.link? i := by
  obtain ⟨node, hnode⟩ := Option.isSome_iff_exists.1 hi
  unfold Tree.link?
  rw [hnode]
  rcases h.node?_cases hnode with hsame | ⟨d, d', rfl, hd', _⟩
  · rw [hsame]
  · rw [hd']

theorem Gains.isDir_eq (h : t.Gains u) (hi : (t.node? i).isSome) : u.isDir i = t.isDir i := by
  obtain ⟨node, hnode⟩ := Option.isSome_iff_exists.1 hi
  rcases h.node?_cases hnode with hsame | ⟨d, d', rfl, hd', _⟩
  · rw [Tree.isDir, Tree.isDir, dir?_congr (hsame.trans hnode.symm)]
  · rw [isDir_iff.2 ⟨d', dir?_eq_some_iff.2 hd'⟩, isDir_iff.2 ⟨d, dir?_eq_some_iff.2 hnode⟩]

/-- A directory that was there can be searched if it could be before. -/
theorem Gains.searched_cases (h : t.Gains u) (hi : (t.node? dir).isSome) :
    (∃ e, t.searched dir = .error e ∧ u.searched dir = .error e) ∨
    ∃ d d', t.searched dir = .ok d ∧ u.searched dir = .ok d' ∧
      d.Gains (t.node? · = none) d' := by
  unfold Tree.searched
  rw [h.demand_eq hi]
  cases hd : t.dir? dir with
  | none =>
    have hdir := h.isDir_eq hi
    rw [Tree.isDir, Tree.isDir, hd, Option.isSome_none, Option.isSome_eq_false_iff,
      Option.isNone_iff_eq_none] at hdir
    rw [hdir]
    exact .inl ⟨_, rfl, rfl⟩
  | some d =>
    obtain ⟨d', hd', hgains⟩ := h.dirs hd
    rw [hd']
    cases t.demand .search dir with
    | error e => exact .inl ⟨e, rfl, rfl⟩
    | ok => exact .inr ⟨d, d', rfl, rfl, hgains⟩

/-- In a directory that was there, a name stands for what it stood for, or it is the name
of something new. -/
theorem Gains.lookup_cases (h : t.Gains u) (hi : (t.node? dir).isSome) (n : Name) :
    u.lookup dir n = t.lookup dir n ∨ t.lookup dir n = .error .noEntry := by
  unfold Tree.lookup
  obtain ⟨e, ht, hu⟩ | ⟨d, d', ht, hu, hgains⟩ := h.searched_cases hi
  · rw [ht, hu]
    exact .inl rfl
  · simp only [ht, hu, bind, Except.bind]
    rw [hgains.removed]
    split
    · exact .inl rfl
    · split
      · exact .inl rfl
      · cases hentry : d.entries.lookup n with
        | none => exact .inr rfl
        | some j =>
          rw [hgains.kept hentry]
          exact .inl rfl

end Known

section Found

theorem Gains.demand (h : t.Gains u) {a : Access} (hi : t.demand a i = .ok ()) :
    u.demand a i = .ok () := by
  rwa [h.demand_eq (node?_isSome_of_demand hi)]

theorem Gains.stat (h : t.Gains u) {s : Stat} (hi : t.stat i = .ok s) : u.stat i = .ok s := by
  rwa [h.stat_eq (node?_isSome_of_stat hi)]

theorem Gains.link? (h : t.Gains u) {target : Path} (hi : t.link? i = some target) :
    u.link? i = some target := by
  rwa [h.link?_eq (node?_isSome_of_link? hi)]

theorem Gains.isDir (h : t.Gains u) (hi : t.isDir i = true) : u.isDir i = true := by
  obtain ⟨d, hd⟩ := isDir_iff.1 hi
  rwa [h.isDir_eq (node?_isSome_of_dir? hd)]

theorem Gains.lookup (h : t.Gains u) (hi : t.lookup dir n = .ok i) : u.lookup dir n = .ok i := by
  obtain ⟨d, hd, _⟩ := entry_of_lookup hi
  rcases h.lookup_cases (node?_isSome_of_dir? hd) n with hsame | hmissing
  · rwa [hsame]
  · rw [hmissing] at hi
    cases hi

theorem Gains.existing (h : t.Gains u) (hi : t.existing place = .ok i) :
    u.existing place = .ok i := by
  cases place with
  | directory j => exact hi
  | entry dir n =>
    have hlookup := h.lookup (lookup_of_existing hi)
    simp only [Tree.existing, occupant, hlookup]
    rfl

/-- What the system has said about a place it says again. -/
theorem Gains.statAt (h : t.Gains u) {s : Stat} (hs : t.statAt place = .ok s) :
    u.statAt place = .ok s := by
  obtain ⟨i, hi, hstat⟩ := statAt_eq_ok hs
  rw [Tree.statAt, h.existing hi]
  exact h.stat hstat

theorem Gains.readlinkAt (h : t.Gains u) {target : Path} (hs : t.readlinkAt place = .ok target) :
    u.readlinkAt place = .ok target := by
  obtain ⟨i, hi, hread⟩ := exists_of_bind_eq_ok hs
  cases hlink : t.link? i with
  | none =>
    simp only [hlink] at hread
    cases hread
  | some stored =>
    simp only [hlink] at hread
    simp only [Tree.readlinkAt, h.existing hi, h.link? hlink, bind, Except.bind]
    exact hread

theorem Gains.openDirAt (h : t.Gains u) (hs : t.openDirAt place = .ok i) :
    u.openDirAt place = .ok i := by
  obtain ⟨j, hj, hopen⟩ := exists_of_bind_eq_ok hs
  obtain ⟨rfl, hdir, hdemand⟩ := openDir_eq_ok_iff.1 hopen
  rw [Tree.openDirAt, h.existing hj]
  exact openDir_eq_ok_iff.2 ⟨rfl, h.isDir hdir, h.demand hdemand⟩

end Found

/-- In the second tree the name is that of a new node. -/
def Fresh (t u : Tree) (dir : NodeId) (n : Name) : Prop :=
  ∃ d j, u.dir? dir = some d ∧ d.entries.lookup n = some j ∧ t.node? j = none

theorem Fresh.gains (h : t.Fresh u dir n) (h' : u.Gains v) : t.Fresh v dir n := by
  obtain ⟨d, j, hd, hentry, hj⟩ := h
  obtain ⟨d', hd', hgains⟩ := h'.dirs hd
  exact ⟨d', j, hd', hgains.kept hentry, hj⟩

theorem Fresh.lookup (h : t.Fresh u dir n) (hj : u.lookup dir n = .ok j) : t.node? j = none := by
  obtain ⟨d, j', hd, hentry, hnew⟩ := h
  obtain ⟨d', hd', _, hentry'⟩ := entry_of_lookup hj
  rw [hd] at hd'
  cases hd'
  rw [hentry] at hentry'
  cases hentry'
  exact hnew

/-- A new directory holds what is new as well. -/
theorem Gains.node?_of_lookup (h : t.Gains u) (hdir : t.node? dir = none)
    (hj : u.lookup dir n = .ok j) : t.node? j = none := by
  obtain ⟨d, hd, _, hentry⟩ := entry_of_lookup hj
  obtain ⟨d', heq, hnew⟩ := h.new hdir (dir?_eq_some_iff.1 hd)
  cases heq
  exact hnew hentry

/-- The nodes after one has been created under a free name. -/
theorem node?_addEntry (hd : t.dir? dir = some d) (n : Name) (node : Inode)
    (j : NodeId) :
    ((t.grow dir node).link dir n (t.nextId dir)).node? j =
      if j = dir then some (.directory
        { d with created := d.created + 1
                 entries := Association.insert n (t.nextId dir) d.entries })
      else if j = t.nextId dir then some node else t.node? j := by
  have hne : dir ≠ t.nextId dir := (NodeId.child_ne_self dir _).symm
  rw [Tree.link, node?_modifyDir, Tree.grow, node?_modifyDir, node?_modifyDir, node?_put, node?_put]
  by_cases hj : j = dir
  · rw [if_pos hj, if_pos hj, if_pos rfl, if_neg hne, dir?_eq_some_iff.1 hd]
    rfl
  · rw [if_neg hj, if_neg hj, if_neg hj]

theorem demand_ne_noEntry {a : Access} : t.demand a i ≠ .error .noEntry := by
  unfold demand
  split
  · split
    · nofun
    · simp [Errno.accessDenied, Errno.noEntry]
  · simp [Errno.badDescriptor, Errno.noEntry]

theorem lookup_of_occupant_eq_none (h : t.occupant (.entry dir n) = .ok none) :
    t.lookup dir n = .error .noEntry := by
  simp only [occupant] at h
  split at h
  · cases h
  · next e hlookup =>
    split at h
    · next heq => rw [hlookup, heq]
    · cases h

/-- Where the system finds no entry it may look for one, and there is none. -/
theorem vacant_of_occupant (h : t.occupant (.entry dir n) = .ok none)
    (hd : t.dir? dir = some d) (hremoved : d.removed = false) :
    t.demand .search dir = .ok () ∧ n.bytes.length ≤ maxName ∧ d.entries.lookup n = none := by
  have hlookup := lookup_of_occupant_eq_none h
  simp only [lookup, searched, hd, bind, Except.bind] at hlookup
  cases hdemand : t.demand .search dir with
  | error e =>
    rw [hdemand] at hlookup
    cases hlookup
    exact absurd hdemand demand_ne_noEntry
  | ok =>
    by_cases hlong : n.bytes.length > maxName
    · simp [hdemand, hremoved, hlong, pure, Except.pure, throw, throwThe, MonadExceptOf.throw,
        Errno.nameTooLong, Errno.noEntry] at hlookup
    · cases hentry : d.entries.lookup n with
      | none => exact ⟨rfl, Nat.le_of_not_lt hlong, rfl⟩
      | some j => simp [hdemand, hremoved, hlong, hentry, pure, Except.pure] at hlookup

/-- A tree gains a directory where there was no entry. -/
theorem Sound.gains_addEntry (h : t.Sound) (hd : t.dir? dir = some d)
    (hfree : d.entries.lookup n = none) {made : Directory} (hmade : made.entries = []) :
    t.Gains ((t.grow dir (.directory made)).link dir n (t.nextId dir)) := by
  have hnode := node?_addEntry hd n (.directory made)
  have hnew := h.node?_nextId_eq_none dir
  have hdir := dir?_eq_some_iff.1 hd
  refine ⟨?_, ?_, ?_⟩
  · intro i node hi hother
    rw [hnode, if_neg, if_neg, hi]
    · rintro rfl
      rw [hnew] at hi
      cases hi
    · rintro rfl
      rw [isDir_iff.2 ⟨d, hd⟩] at hother
      cases hother
  · intro i s hs
    by_cases hi : i = dir
    · subst hi
      rw [hd] at hs
      cases hs
      refine ⟨_, dir?_eq_some_iff.2 ((hnode i).trans (if_pos rfl)), rfl, rfl, rfl, ?_, ?_⟩
      · intro m j hm
        rw [Association.lookup_insert, if_neg, hm]
        rintro rfl
        rw [hfree] at hm
        cases hm
      · intro m j hm
        rw [Association.lookup_insert] at hm
        split at hm
        · cases hm
          exact .inr hnew
        · exact .inl hm
    · refine ⟨s, dir?_eq_some_iff.2 ?_, rfl, rfl, rfl, id, .inl⟩
      rw [hnode, if_neg hi, if_neg, dir?_eq_some_iff.1 hs]
      rintro rfl
      rw [dir?_eq_some_iff, hnew] at hs
      cases hs
  · intro i node hnone hi
    rw [hnode] at hi
    split at hi
    · next heq =>
      rw [heq, hdir] at hnone
      cases hnone
    · split at hi
      · cases hi
        refine ⟨made, rfl, fun hm => ?_⟩
        rw [hmade] at hm
        cases hm
      · rw [hnone] at hi
        cases hi

/-- In the directory, the name is that of the node. -/
def HasEntry (t : Tree) (dir : NodeId) (n : Name) (i : NodeId) : Prop :=
  ∃ d, t.dir? dir = some d ∧ d.entries.lookup n = some i

/-- A tree that has gained one directory. Its entry is the only one that is new. -/
structure GainsDir (t u : Tree) (dir : NodeId) (n : Name) (i : NodeId) : Prop where
  gains : t.Gains u
  lookup : u.lookup dir n = .ok i
  isDir : u.isDir i = true
  new : t.node? i = none
  only : ∀ {dir' m j}, u.HasEntry dir' m j → t.HasEntry dir' m j ∨ dir' = dir ∧ m = n ∧ j = i

theorem GainsDir.fresh (h : t.GainsDir u dir n i) : t.Fresh u dir n := by
  obtain ⟨d, hd, _, hentry⟩ := entry_of_lookup h.lookup
  exact ⟨d, i, hd, hentry, h.new⟩

theorem Sound.gainsDir_addEntry (h : t.Sound) (hd : t.dir? dir = some d)
    (hremoved : d.removed = false) (hfree : t.occupant (.entry dir n) = .ok none)
    {made : Directory} (hmade : made.entries = []) :
    t.GainsDir ((t.grow dir (.directory made)).link dir n (t.nextId dir)) dir n (t.nextId dir) := by
  obtain ⟨hsearch, hlength, hvacant⟩ := vacant_of_occupant hfree hd hremoved
  have hgains := h.gains_addEntry hd hvacant hmade
  have hnode := node?_addEntry hd n (.directory made)
  have hdir := dir?_eq_some_iff.2 ((hnode dir).trans (if_pos rfl))
  have hchild := (hnode (t.nextId dir)).trans
    ((if_neg (NodeId.child_ne_self dir _)).trans (if_pos rfl))
  have hentry : (Association.insert n (t.nextId dir) d.entries).lookup n = some (t.nextId dir) := by
    rw [Association.lookup_insert, if_pos rfl]
  refine ⟨hgains, ?_, isDir_iff.2 ⟨made, dir?_eq_some_iff.2 hchild⟩, h.node?_nextId_eq_none dir, ?_⟩
  · exact lookup_eq_ok_iff.2
      ⟨_, searched_eq_ok_iff.2 ⟨hdir, hgains.demand hsearch⟩, hremoved, hlength, hentry⟩
  · rintro dir' m j ⟨d', hd', hm⟩
    rw [dir?_eq_some_iff, hnode] at hd'
    split at hd'
    · next heq =>
      cases hd'
      rw [Association.lookup_insert] at hm
      split at hm
      · next hname =>
        cases hm
        exact .inr ⟨heq, hname, rfl⟩
      · exact .inl ⟨d, heq ▸ hd, hm⟩
    · split at hd'
      · cases hd'
        rw [hmade] at hm
        cases hm
      · exact .inl ⟨d', dir?_eq_some_iff.2 hd', hm⟩

end Tree

namespace Call

/-- What was there has been kept, and the tree is sound. -/
def Gained (t u : Tree) : Prop := t.Gains u ∧ u.Sound

variable {t : Tree} {dir : NodeId} {n : Name}

theorem triple_vacancy : Triple (· = t) (vacancy (.entry dir n))
    (fun r s => s = t ∧ r = (dir, n) ∧ t.occupant (.entry dir n) = .ok none) fun _ s => s = t := by
  apply Triple.query_bind
  · intro found hfound
    apply Triple.guarded_fixed
    intro hnone
    apply Triple.pure
    rintro s rfl
    rw [Option.not_isSome_iff_eq_none] at hnone
    exact ⟨rfl, rfl, hnone ▸ hfound⟩
  · intro e _
    rfl

/-- A directory that is created is what the tree gains. -/
theorem triple_mkdir (h : t.Sound) (place : Place) (mode : UInt32) :
    Triple (· = t) (mkdir place mode)
      (fun _ u => u.Sound ∧ ∃ dir n i, place = .entry dir n ∧ t.GainsDir u dir n i)
      fun _ u => u = t := by
  cases place with
  | directory i => exact Triple.throw_bind fun _ hs => hs
  | entry dir n =>
    refine Triple.bind triple_vacancy ?_
    rintro _ s ⟨rfl, rfl, hfree⟩
    have hmade : Triple (· = s)
        (addEntry dir n (.directory { perm := s.dirPerm dir mode, parent := dir }))
        (fun i u => u.Sound ∧ s.GainsDir u dir n i) fun _ u => u = s := by
      refine Triple.bind triple_demandGrowth ?_
      rintro _ s ⟨rfl, d, hd, hremoved⟩
      refine ⟨?_, h.gainsDir_addEntry hd hremoved hfree rfl⟩
      refine h.addEntry (Tree.isDir_iff.2 ⟨d, hd⟩) n ?_
      rintro _ heq
      cases heq
      exact ⟨rfl, rfl⟩
    have hdone : Triple (· = s)
        (addEntry dir n (.directory { perm := s.dirPerm dir mode, parent := dir }) >>=
          fun _ => pure ())
        (fun _ u => u.Sound ∧ ∃ dir' n' i, Place.entry dir n = .entry dir' n' ∧
          s.GainsDir u dir' n' i) fun _ u => u = s := by
      refine Triple.bind hmade fun i => Triple.pure ?_
      exact fun u ⟨hu, hgains⟩ => ⟨hu, dir, n, i, rfl, hgains⟩
    exact hdone s rfl

/-- Creating a directory takes nothing away. -/
theorem keeps_gained_mkdir (t : Tree) (place : Place) (mode : UInt32) :
    Keeps (Gained t) (mkdir place mode) := by
  apply Keeps.of_fixed
  rintro s ⟨hgains, hs⟩
  refine (triple_mkdir hs place mode).weaken (fun _ h => h) ?_ ?_
  · rintro _ u ⟨hu, _, _, _, _, hgained⟩
    exact ⟨hgains.trans hgained.gains, hu⟩
  · rintro _ u rfl
    exact ⟨hgains, hs⟩

end Call

end ConfinedFs.Os
