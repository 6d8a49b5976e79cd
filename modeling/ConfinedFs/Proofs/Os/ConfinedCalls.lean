import ConfinedFs.Proofs.Os.ConfinedChanges
import ConfinedFs.Proofs.Os.SoundCalls

/-!
Every call of the system that is given a place inside of an enclosure stays
inside. Only moving an entry also asks what lies above two directories, so that
it needs to be known that the answers agree.
-/

namespace ConfinedFs.Os.Enclosure

variable {E : Enclosure} {t t' u : Tree} {i dir : NodeId} {place : Place}

theorem confines_demand (hi : E.inside i) (a : Access) : E.Confines (Call.demand a i) Any :=
  fun _ _ h => .query h (h.demand_eq hi a) fun _ _ => trivial

theorem confines_demandRemoval (hdir : E.inside dir) (hi : E.inside i) :
    E.Confines (Call.demandRemoval dir i) Any :=
  fun _ _ h => .query h (h.demandRemoval_eq hdir hi) fun _ _ => trivial

theorem confines_isDir (hi : E.inside i) :
    E.Confines (Action.look (Tree.isDir · i) : Call Bool) Any :=
  fun _ _ h => .look h (h.isDir_eq hi) trivial

theorem confines_occupant (hplace : E.Holds place) :
    E.Confines (Action.query (Tree.occupant · place)) fun found =>
      ∀ i, found = some i → E.inside i := by
  intro t t' h
  refine .query h (h.occupant_eq hplace) ?_
  rintro found hfound i rfl
  exact h.occupant_inside hplace hfound

theorem confines_existing (hplace : E.Holds place) :
    E.Confines (Action.query (Tree.existing · place)) E.inside :=
  fun _ _ h => .query h (h.existing_eq hplace) fun _ hfound => h.existing_inside hplace hfound

theorem confines_demandGrowth (hdir : E.inside dir) :
    E.Confines (Call.demandGrowth dir) Any := by
  have hremoved : E.Confines
      (Action.look fun t => ((t.dir? dir).map (·.removed)).getD true : Call Bool) Any := by
    intro t t' h
    exact .look h (congrArg (Option.getD · true) (h.dir?_map_eq hdir _ fun _ _ => rfl)) trivial
  refine .bind hremoved ?_
  intro removed _
  dsimp only
  split
  · exact .throw_bind _ _
  · exact confines_demand hdir .write

theorem confines_addEntry (hdir : E.inside dir) (n : Name) {node : Inode}
    (hnode : ∀ d, node = .directory d → d.entries = [] ∧ d.created = 0) :
    E.Confines (Call.addEntry dir n node) E.inside := by
  intro t t' h
  refine (confines_demandGrowth hdir t t' h).bind ?_
  intro _ u u' hgrowth _ _ hu
  obtain ⟨rfl, d, hd, _⟩ := Call.triple_demandGrowth.of_ok rfl hgrowth
  refine .look_bind (hu.nextId_eq hdir) ?_
  have hinside := (hu.nextId hdir).1
  refine Agree.bind (Q := Any) (.update ?_ ?_ ?_) fun _ w w' _ _ _ hw => .pure hw hinside
  · have hgrown := hu.grow hdir (Tree.isDir_iff.2 ⟨d, hd⟩) hnode
    have hlinked := hgrown.modifyDir hdir
      (f := fun d => { d with entries := Association.insert n (u.nextId dir) d.entries })
      (fun _ _ _ => rfl) ?_ fun d => Nat.le_refl _
    · rw [Tree.grow, Tree.grow, hu.nextId_eq hdir] at hlinked
      exact hlinked
    · intro d hd m j hmem
      rcases Association.mem_insert.1 hmem with heq | ⟨hmem, _⟩
      · cases heq
        exact hinside
      · exact hgrown.closed hdir hd hmem
  · exact (Local.grow hu hdir node).trans (.modifyDir hdir fun _ _ => rfl)
  · rw [← hu.nextId_eq hdir]
    exact (Local.grow hu.symm hdir node).trans (.modifyDir hdir fun _ _ => rfl)

theorem confines_vacancy (hplace : E.Holds place) :
    E.Confines (Call.vacancy place) fun free => E.inside free.1 := by
  cases place with
  | directory i => exact .throw _
  | entry dir n =>
    refine .bind (confines_occupant hplace) ?_
    intro found _
    dsimp only
    split
    · exact .throw_bind _ _
    · exact .pure hplace

theorem confines_mkdir (hplace : E.Holds place) (mode : UInt32) :
    E.Confines (Call.mkdir place mode) Any := by
  refine .bind (confines_vacancy hplace) ?_
  rintro ⟨dir, n⟩ hdir t t' h
  refine .look_bind (h.dirPerm_eq hdir mode) ?_
  refine Confines.bind (confines_addEntry hdir n ?_) (fun _ _ => .pure trivial) t t' h
  rintro d hd
  cases hd
  exact ⟨rfl, rfl⟩

theorem confines_symlink (hplace : E.Holds place) (target : Path) :
    E.Confines (Call.symlink target place) Any := by
  have htarget : E.Confines (Call.checkTarget target) Any := by
    refine .bind (.ofExcept fun _ _ => trivial) ?_
    intro _ _
    split
    · exact .throw _
    · exact .pure trivial
  refine .bind htarget fun _ _ => .bind (confines_vacancy hplace) ?_
  rintro ⟨dir, n⟩ hdir
  exact .bind (confines_addEntry hdir n fun d hd => by cases hd) fun _ _ => .pure trivial

/-- Taking an entry away leads to nothing new. -/
theorem Twin.unlink (h : E.Twin t t') (hdir : E.inside dir) (n : Name) :
    E.Twin (t.unlink dir n) (t'.unlink dir n) :=
  h.modifyDir hdir (fun _ _ _ => rfl)
    (fun _ hd _ _ hmem => h.closed hdir hd (Association.mem_erase.1 hmem).1) fun _ => Nat.le_refl _

theorem Twin.retire (h : E.Twin t t') (hi : E.inside i) : E.Twin (t.retire i) (t'.retire i) :=
  h.modifyDir hi (fun _ _ _ => rfl) (fun _ hd _ _ hmem => h.closed hi hd hmem)
    fun _ => Nat.le_refl _

theorem Local.unlink (hdir : E.inside dir) (n : Name) : E.Local t (t.unlink dir n) :=
  .modifyDir hdir fun _ _ => rfl

theorem Local.link (hdir : E.inside dir) (n : Name) (i : NodeId) :
    E.Local t (t.link dir n i) :=
  .modifyDir hdir fun _ _ => rfl

theorem Local.retire (hi : E.inside i) : E.Local t (t.retire i) := .modifyDir hi fun _ _ => rfl

theorem confines_unlink (hplace : E.Holds place) : E.Confines (Call.unlink place) Any := by
  cases place with
  | directory i => exact .throw _
  | entry dir n =>
    refine .bind (confines_existing hplace) fun i hi => ?_
    refine .bind (confines_demandRemoval hplace hi) fun _ _ => .bind (confines_isDir hi) ?_
    intro isDir _
    dsimp only
    split
    · exact .throw_bind _ _
    · exact fun t t' h => .update (h.unlink hplace n) (.unlink hplace n) (.unlink hplace n)

theorem confines_demandEmpty (hi : E.inside i) : E.Confines (Call.demandEmpty i) Any := by
  have hentries : E.Confines
      (Action.look fun t => ((t.dir? i).map (·.entries)).getD [] : Call _) Any := by
    intro t t' h
    exact .look h (congrArg (Option.getD · []) (h.dir?_map_eq hi _ fun _ _ => rfl)) trivial
  refine .bind hentries ?_
  intro entries _
  split
  · exact .throw _
  · exact .pure trivial

theorem confines_rmdir (hplace : E.Holds place) : E.Confines (Call.rmdir place) Any := by
  cases place with
  | directory i => exact .throw _
  | entry dir n =>
    refine .bind (confines_existing hplace) fun i hi => ?_
    refine .bind (confines_demandRemoval hplace hi) fun _ _ => .bind (confines_isDir hi) ?_
    intro isDir _
    dsimp only
    split
    · exact .throw_bind _ _
    · refine .bind (confines_demandEmpty hi) fun _ _ => ?_
      exact fun t t' h => .update ((h.unlink hplace n).retire hi)
        ((Local.unlink hplace n).trans (.retire hi)) ((Local.unlink hplace n).trans (.retire hi))

/-- A file stays at its place when its data is taken away. -/
theorem confines_truncate (hi : E.inside i) : E.Confines (Call.truncate i) Any := by
  intro t t' h
  have hchange : ∀ perm data, t.node? i = some (.file perm data) → i ≠ E.base →
      E.Twin (t.put i (.file perm.changed [])) (t'.put i (.file perm.changed [])) := by
    intro perm data hnode hne
    refine h.put hne ?_ (fun d hd => by cases hd) ?_
    · rintro j count hj hcount rfl
      rw [(h.vacant count hj hcount).2] at hnode
      cases hnode
    · rw [Tree.dir?, hnode]
      rfl
  refine .update ?_ ?_ ?_
  · rcases h.node?_cases hi with ⟨hne, heq⟩ | ⟨_, d, above, hnode, hnode'⟩
    · rw [heq]
      split
      · next perm data hnode => exact hchange perm data hnode hne
      · exact h
    · rw [hnode, hnode']
      exact h
  · rcases h.node?_cases hi with ⟨hne, heq⟩ | ⟨_, d, above, hnode, hnode'⟩
    · split
      · exact .put hi hne _
      · exact .refl E t
    · rw [hnode]
      exact .refl E t
  · rcases h.node?_cases hi with ⟨hne, heq⟩ | ⟨_, d, above, hnode, hnode'⟩
    · split
      · exact .put hi hne _
      · exact .refl E t'
    · rw [hnode']
      exact .refl E t'

theorem confines_granted (f : OpenFlags) (hi : E.inside i) :
    E.Confines (Call.granted f i) fun d => E.inside d.node := by
  have hspecial : E.Confines (Action.look (Tree.isSpecial · i) : Call Bool) Any :=
    fun _ _ h => .look h (h.isSpecial_eq hi) trivial
  unfold Call.granted
  refine .when (confines_demand hi .read) (.when (confines_demand hi .write) ?_)
  exact .bind hspecial fun _ _ => .when (.throw _) (.when (confines_truncate hi) (.pure hi))

theorem confines_openNode (f : OpenFlags) (hi : E.inside i) :
    E.Confines (Call.openNode f i) fun d => E.inside d.node := by
  have hopen := confines_granted f hi
  unfold Call.openNode
  refine .when (.throw _) ?_
  intro t t' h
  refine .node?_bind h hi (fun _ _ => rfl) ?_
  cases t.node? i with
  | none => exact hopen t t' h
  | some n =>
    cases n with
    | directory d => exact Confines.when (.throw _) hopen t t' h
    | file perm data => exact hopen t t' h
    | symlink standing target => exact Confines.throw_bind _ _ t t' h
    | special perm => exact hopen t t' h

theorem confines_openAt (f : OpenFlags) (hplace : E.Holds place) (strict : Bool) :
    E.Confines (Call.openAt f place strict) fun d => E.inside d.node := by
  unfold Call.openAt
  refine .when (.throw _) ?_
  refine .bind (confines_occupant hplace) ?_
  intro found hfound
  cases found with
  | some i =>
    have hi := hfound i rfl
    exact .bind (confines_isDir hi) fun isDir _ => .when (.throw _) (confines_openNode f hi)
  | none =>
    cases place with
    | directory i => exact .throw _
    | entry dir n =>
      refine .when (.throw _) fun t t' h => .look_bind (h.filePerm_eq hplace f.mode) ?_
      have hnode : ∀ d, Inode.file (t.filePerm dir f.mode) [] = .directory d →
          d.entries = [] ∧ d.created = 0 := by
        intro d hd
        cases hd
      exact (confines_addEntry hplace n hnode t t' h).bind fun i u u' _ _ hi hu => .pure hu hi

/-- The tree in which the node of one entry has come to stand under another
one, in the place of whatever had that name. -/
theorem Twin.move (h : E.Twin t t') {newDir : NodeId} (n newName : Name) (hdir : E.inside dir)
    (hnew : E.inside newDir) (hi : E.inside i) (hne : i ≠ E.base) :
    E.Twin
      (((t.unlink dir n).link newDir newName i).modifyDir i fun d => { d with parent := newDir })
      (((t'.unlink dir n).link newDir newName i).modifyDir i
        fun d => { d with parent := newDir }) := by
  have hunlinked := h.unlink hdir n
  have hlinked : E.Twin ((t.unlink dir n).link newDir newName i)
      ((t'.unlink dir n).link newDir newName i) := by
    refine hunlinked.modifyDir hnew (fun _ _ _ => rfl) ?_ fun _ => Nat.le_refl _
    intro d hd m k hmem
    rcases Association.mem_insert.1 hmem with heq | ⟨hmem, _⟩
    · cases heq
      exact hi
    · exact hunlinked.closed hnew hd hmem
  exact hlinked.modifyDir hi (fun hbase => absurd hbase hne)
    (fun _ hd _ _ hmem => hlinked.closed hi hd hmem) fun _ => Nat.le_refl _

theorem Local.move {newDir : NodeId} (n newName : Name) (hdir : E.inside dir)
    (hnew : E.inside newDir) (hi : E.inside i) (hne : i ≠ E.base) :
    E.Local t (((t.unlink dir n).link newDir newName i).modifyDir i
      fun d => { d with parent := newDir }) :=
  ((Local.unlink hdir n).trans (.link hnew newName i)).trans
    (.modifyDir hi fun hbase => absurd hbase hne)

/-- Moving an entry inside stays inside, provided that the answers about what is
above what agree and that no entry leads to the base. -/
theorem agree_rename (h : E.Twin t t') {newDir : NodeId} {n newName : Name} (hdir : E.inside dir)
    (hnew : E.inside newDir)
    (habove : ∀ {i j}, E.inside i → i ≠ E.base → E.inside j → t.isDir j = true →
      t'.isAbove i j = t.isAbove i j)
    (hloop : ∀ {dir d n}, E.inside dir → t.dir? dir = some d → (n, E.base) ∉ d.entries) :
    E.Agree (Call.rename (.entry dir n) (.entry newDir newName)) Any t t' := by
  have hfound : ∀ {place j}, E.Holds place → t.occupant place = .ok (some j) →
      (∃ dir n, place = .entry dir n) → E.inside j ∧ j ≠ E.base := by
    rintro _ j hplace hj ⟨dir, n, rfl⟩
    refine ⟨h.occupant_inside hplace hj, ?_⟩
    rintro rfl
    obtain ⟨d, hd, hmem⟩ := Tree.mem_entries_of_lookup (Tree.lookup_of_occupant hj)
    exact hloop hplace hd hmem
  have hsourceHolds : E.Holds (.entry dir n) := hdir
  have htargetHolds : E.Holds (.entry newDir newName) := hnew
  unfold Call.rename
  refine .query_bind h (h.existing_eq hsourceHolds) ?_
  intro i hexisting
  have hsource := Tree.occupant_of_existing hexisting
  obtain ⟨hi, hne⟩ := hfound hsourceHolds hsource ⟨dir, n, rfl⟩
  refine .query_bind h (h.occupant_eq htargetHolds) ?_
  intro old hold
  refine .look_bind (habove hi hne hnew (Tree.isDir_of_occupant hold)) (.guarded h fun _ => ?_)
  cases old with
  | none =>
    refine (Confines.bind (confines_demandRemoval hdir hi) fun _ _ => .bind (confines_isDir hi)
      fun isDir _ => .bind (confines_demandGrowth hnew) fun _ _ =>
        .when (confines_demand hi .write) ?_) t t' h
    exact fun u u' hu => .update (hu.move n newName hdir hnew hi hne)
      (.move n newName hdir hnew hi hne) (.move n newName hdir hnew hi hne)
  | some j =>
    obtain ⟨hj, hjne⟩ := hfound htargetHolds hold ⟨newDir, newName, rfl⟩
    have hsourceDir := Tree.isDir_of_occupant hsource
    refine .look_bind (habove hj hjne hdir hsourceDir) (.guarded h fun _ => ?_)
    by_cases hsame : i = j
    · rw [if_pos hsame]
      exact .pure h trivial
    · rw [if_neg hsame]
      refine (Confines.bind (confines_demandRemoval hdir hi) fun _ _ => .bind (confines_isDir hi)
        fun isDir _ => .bind (confines_demandRemoval hnew hj) fun _ _ => .bind (confines_isDir hj)
          fun replacesDir _ => .when (.throw _) (.when (.throw _)
            (.when (confines_demand hi .write) (.bind (confines_demandEmpty hj)
              fun _ _ => ?_)))) t t' h
      exact fun u u' hu => .update ((hu.move n newName hdir hnew hi hne).retire hj)
        ((Local.move n newName hdir hnew hi hne).trans (.retire hj))
        ((Local.move n newName hdir hnew hi hne).trans (.retire hj))

end ConfinedFs.Os.Enclosure
