import ConfinedFs.Proofs.Os.Subtree

/-!
Two trees side by side. An enclosure is a set of identities around a base
directory: those of the nodes under it and those that new nodes there may get.
Trees that look the same inside answer all questions about the inside in the
same way.
-/

namespace ConfinedFs.Os

/-- A base directory and the identities of everything that lies or may come to
lie under it. -/
structure Enclosure where
  base : NodeId
  inside : NodeId → Prop

namespace Enclosure

/-- Two trees that look the same inside of an enclosure. No entry leads out of
it, and the identities of new nodes are inside and not in use. -/
structure Twin (E : Enclosure) (t t' : Tree) : Prop where
  umask : t'.umask = t.umask
  base_inside : E.inside E.base
  base_dir : t.isDir E.base = true
  seen : ∀ {i}, E.inside i → t'.seen E.base i = t.seen E.base i
  closed : ∀ {dir d n i}, E.inside dir → t.dir? dir = some d → (n, i) ∈ d.entries → E.inside i
  vacant : ∀ {i} (count : Nat), E.inside i → ((t.dir? i).map (·.created)).getD 0 ≤ count →
    E.inside (i.child count) ∧ t.node? (i.child count) = none

/-- The second tree is the first one after changes inside of the enclosure. -/
structure Local (E : Enclosure) (t u : Tree) : Prop where
  outside : ∀ {i}, ¬ E.inside i → u.node? i = t.node? i
  place : (u.dir? E.base).map (·.parent) = (t.dir? E.base).map (·.parent)

theorem Local.refl (E : Enclosure) (t : Tree) : E.Local t t := ⟨fun _ => rfl, rfl⟩

theorem Local.trans {E : Enclosure} {t u v : Tree} (h : E.Local t u) (h' : E.Local u v) :
    E.Local t v :=
  ⟨fun hi => (h'.outside hi).trans (h.outside hi), h'.place.trans h.place⟩

/-- The place is looked up inside. -/
def Holds (E : Enclosure) : Place → Prop
  | .directory i => E.inside i
  | .entry dir _ => E.inside dir

namespace Twin

variable {E : Enclosure} {t t' : Tree} {i dir : NodeId} {place : Place}

/-- Inside the nodes are the same, but for the directory above the base. -/
theorem node?_cases (h : E.Twin t t') (hi : E.inside i) :
    i ≠ E.base ∧ t'.node? i = t.node? i ∨
      i = E.base ∧ ∃ d above, t.node? i = some (.directory d) ∧
        t'.node? i = some (.directory { d with parent := above }) := by
  have hseen := h.seen hi
  by_cases hbase : i = E.base
  · right
    subst hbase
    refine ⟨rfl, ?_⟩
    obtain ⟨d, hd⟩ := Tree.isDir_iff.1 h.base_dir
    obtain ⟨above, hd'⟩ := Tree.dir?_of_seen_eq hseen hd
    exact ⟨d, above, Tree.dir?_eq_some_iff.1 hd, Tree.dir?_eq_some_iff.1 hd'⟩
  · left
    rw [Tree.seen_of_ne _ hbase, Tree.seen_of_ne _ hbase] at hseen
    exact ⟨hbase, hseen⟩

theorem symm (h : E.Twin t t') : E.Twin t' t := by
  have hdir : ∀ {i d'}, E.inside i → t'.dir? i = some d' →
      ∃ above, t.dir? i = some { d' with parent := above } :=
    fun hi hd' => Tree.dir?_of_seen_eq (h.seen hi).symm hd'
  refine ⟨h.umask.symm, h.base_inside, ?_, fun hi => (h.seen hi).symm, ?_, ?_⟩
  · obtain ⟨d, hd⟩ := Tree.isDir_iff.1 h.base_dir
    obtain ⟨above, hd'⟩ := Tree.dir?_of_seen_eq (h.seen h.base_inside) hd
    exact Tree.isDir_iff.2 ⟨_, hd'⟩
  · intro dir d' n i hi hd' hn
    obtain ⟨above, hd⟩ := hdir hi hd'
    exact h.closed hi hd hn
  · intro i count hi hcount
    rw [Tree.created_of_seen_eq (h.seen hi)] at hcount
    obtain ⟨hinside, hnone⟩ := h.vacant count hi hcount
    refine ⟨hinside, ?_⟩
    rcases h.node?_cases hinside with ⟨_, heq⟩ | ⟨_, d, above, hnode, _⟩
    · rw [heq, hnone]
    · rw [hnone] at hnode
      cases hnode

section Questions

theorem isDir_eq (h : E.Twin t t') (hi : E.inside i) : t'.isDir i = t.isDir i := by
  rcases h.node?_cases hi with ⟨_, heq⟩ | ⟨_, d, above, hnode, hnode'⟩
  · simp only [Tree.isDir, Tree.dir?, heq]
  · simp only [Tree.isDir, Tree.dir?, hnode, hnode', Option.isSome_some]

theorem link?_eq (h : E.Twin t t') (hi : E.inside i) : t'.link? i = t.link? i := by
  rcases h.node?_cases hi with ⟨_, heq⟩ | ⟨_, d, above, hnode, hnode'⟩
  · simp only [Tree.link?, heq]
  · simp only [Tree.link?, hnode, hnode']

theorem demand_eq (h : E.Twin t t') (hi : E.inside i) (a : Access) :
    t'.demand a i = t.demand a i := by
  rcases h.node?_cases hi with ⟨_, heq⟩ | ⟨_, d, above, hnode, hnode'⟩
  · simp only [Tree.demand, heq]
  · simp only [Tree.demand, hnode, hnode']
    rfl

theorem isSpecial_eq (h : E.Twin t t') (hi : E.inside i) : t'.isSpecial i = t.isSpecial i := by
  rcases h.node?_cases hi with ⟨_, heq⟩ | ⟨_, d, above, hnode, hnode'⟩
  · simp only [Tree.isSpecial, heq]
  · simp only [Tree.isSpecial, hnode, hnode']

/-- Inside a node has the same permissions. -/
theorem perm?_eq (h : E.Twin t t') (hi : E.inside i) : t'.perm? i = t.perm? i := by
  unfold Tree.perm?
  rcases h.node?_cases hi with ⟨_, heq⟩ | ⟨_, d, above, hnode, hnode'⟩
  · rw [heq]
  · rw [hnode, hnode']
    rfl

theorem demandRemoval_eq (h : E.Twin t t') (hdir : E.inside dir) (hi : E.inside i) :
    t'.demandRemoval dir i = t.demandRemoval dir i := by
  rw [Tree.demandRemoval, Tree.demandRemoval, h.demand_eq hdir, Tree.guards, Tree.guards,
    h.perm?_eq hdir, h.perm?_eq hi]

theorem report_eq (h : E.Twin t t') (hi : E.inside i) : t'.report i = t.report i := by
  rcases h.node?_cases hi with ⟨_, heq⟩ | ⟨_, d, above, hnode, hnode'⟩
  · simp only [Tree.report, heq]
  · simp only [Tree.report, hnode, hnode']
    rfl

theorem stat_eq (h : E.Twin t t') (hi : E.inside i) : t'.stat i = t.stat i := by
  rw [Tree.stat, Tree.stat, h.report_eq hi]

/-- What is asked about a directory without its parent has the same answer. -/
theorem dir?_map_eq {α : Type} (h : E.Twin t t') (hi : E.inside i) (f : Directory → α)
    (hf : ∀ d above, f { d with parent := above } = f d) :
    (t'.dir? i).map f = (t.dir? i).map f := by
  rcases h.node?_cases hi with ⟨_, heq⟩ | ⟨_, d, above, hnode, hnode'⟩
  · rw [Tree.dir?_congr heq]
  · rw [Tree.dir?_eq_some_iff.2 hnode, Tree.dir?_eq_some_iff.2 hnode', Option.map_some,
      Option.map_some, hf]

theorem dirPerm_eq (h : E.Twin t t') (hdir : E.inside dir) (mode : UInt32) :
    t'.dirPerm dir mode = t.dirPerm dir mode := by
  rw [Tree.dirPerm, Tree.dirPerm, h.umask, h.perm?_eq hdir]

theorem filePerm_eq (h : E.Twin t t') (hdir : E.inside dir) (mode : UInt32) :
    t'.filePerm dir mode = t.filePerm dir mode := by
  rw [Tree.filePerm, Tree.filePerm, h.umask, h.perm?_eq hdir]

theorem nextId_eq (h : E.Twin t t') (hi : E.inside i) : t'.nextId i = t.nextId i := by
  rw [Tree.nextId, Tree.nextId, h.dir?_map_eq hi (·.created) fun _ _ => rfl]

theorem lookup_eq (h : E.Twin t t') (hdir : E.inside dir) (n : Name) :
    t'.lookup dir n = t.lookup dir n := by
  have hdemand := h.demand_eq hdir .search
  rcases h.node?_cases hdir with ⟨_, heq⟩ | ⟨_, d, above, hnode, hnode'⟩
  · simp only [Tree.lookup, Tree.searched, Tree.dir?_congr heq, hdemand]
  · simp only [Tree.lookup, Tree.searched, Tree.dir?_eq_some_iff.2 hnode,
      Tree.dir?_eq_some_iff.2 hnode', hdemand]
    cases t.demand .search dir <;> rfl

end Questions

theorem occupant_eq (h : E.Twin t t') (hplace : E.Holds place) :
    t'.occupant place = t.occupant place := by
  cases place with
  | directory i => rfl
  | entry dir n => simp only [Tree.occupant, h.lookup_eq hplace]

theorem existing_eq (h : E.Twin t t') (hplace : E.Holds place) :
    t'.existing place = t.existing place := by
  rw [Tree.existing, Tree.existing, h.occupant_eq hplace]

/-- What is found by a name inside is inside. -/
theorem lookup_inside (h : E.Twin t t') (hdir : E.inside dir) {n : Name}
    (hlookup : t.lookup dir n = .ok i) : E.inside i := by
  obtain ⟨d, hd, hmem⟩ := Tree.mem_entries_of_lookup hlookup
  exact h.closed hdir hd hmem

theorem occupant_inside (h : E.Twin t t') (hplace : E.Holds place)
    (hfound : t.occupant place = .ok (some i)) : E.inside i := by
  cases place with
  | directory j =>
    cases hfound
    exact hplace
  | entry dir n => exact h.lookup_inside hplace (Tree.lookup_of_occupant hfound)

theorem existing_inside (h : E.Twin t t') (hplace : E.Holds place)
    (hfound : t.existing place = .ok i) : E.inside i :=
  h.occupant_inside hplace (Tree.occupant_of_existing hfound)

theorem statAt_eq (h : E.Twin t t') (hplace : E.Holds place) :
    t'.statAt place = t.statAt place := by
  rw [Tree.statAt, Tree.statAt, h.existing_eq hplace]
  cases hfound : t.existing place with
  | error e => rfl
  | ok i => exact h.stat_eq (h.existing_inside hplace hfound)

theorem readlinkAt_eq (h : E.Twin t t') (hplace : E.Holds place) :
    t'.readlinkAt place = t.readlinkAt place := by
  rw [Tree.readlinkAt, Tree.readlinkAt, h.existing_eq hplace]
  cases hfound : t.existing place with
  | error e => rfl
  | ok i => simp only [bind, Except.bind, h.link?_eq (h.existing_inside hplace hfound)]

theorem openDir_eq (h : E.Twin t t') (hi : E.inside i) : t'.openDir i = t.openDir i := by
  rw [Tree.openDir, Tree.openDir, h.isDir_eq hi, h.demand_eq hi]

theorem openDirAt_eq (h : E.Twin t t') (hplace : E.Holds place) :
    t'.openDirAt place = t.openDirAt place := by
  rw [Tree.openDirAt, Tree.openDirAt, h.existing_eq hplace]
  cases hfound : t.existing place with
  | error e => rfl
  | ok i => exact h.openDir_eq (h.existing_inside hplace hfound)

theorem openDirAt_inside (h : E.Twin t t') (hplace : E.Holds place)
    (hfound : t.openDirAt place = .ok i) : E.inside i :=
  h.existing_inside hplace (Tree.existing_of_openDirAt hfound).1

theorem names_eq (h : E.Twin t t') (hi : E.inside i) : t'.names i = t.names i := by
  rcases h.node?_cases hi with ⟨_, heq⟩ | ⟨_, d, above, hnode, hnode'⟩
  · rw [Tree.names, Tree.names, Tree.dir?_congr heq]
  · rw [Tree.names, Tree.names, Tree.dir?_eq_some_iff.2 hnode, Tree.dir?_eq_some_iff.2 hnode']

theorem listing_eq (h : E.Twin t t') (hi : E.inside i) :
    t'.listing t'.statAt i = t.listing t.statAt i := by
  have hstat : ∀ n, t'.statAt (.entry i n) = t.statAt (.entry i n) := fun _ => h.statAt_eq hi
  simp only [Tree.listing, h.names_eq hi, hstat]

end Twin

end Enclosure

end ConfinedFs.Os
