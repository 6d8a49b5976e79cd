import ConfinedFs.Proofs.Memory.Growing

/-!
What there is after nodes have been made. A new node gets a slot that was free and a cell that
was not there; the directories on the way to it are made alike. Every other place keeps its
number and its node, and what is held by the nodes that were there is left alone.
-/

namespace ConfinedFs.Memory

open ConfinedFs.Action (Keeps Triple)

variable {m m' : Memory} {a j k : Key} {i : Nat} {n : Node} {c : CellId} {perm : UInt32}
  {kind : NodeKind} {content : Content}

/-- A node that was not there before: its slot was free, and its cell is a new one. -/
def Created (m m' : Memory) (k : Key) (kind : NodeKind) (content : Content) : Prop :=
  ∃ i c, m'.index.find? k = some i ∧ m'.nodes.get? i = some ⟨kind, c⟩ ∧
    m.nodes.get? i = none ∧ m.cells.length ≤ c ∧ m'.content c = content

/-- A place that has the number and the node it had, or is as free as it was. -/
def SameAt (m m' : Memory) (k : Key) : Prop :=
  m'.index.find? k = m.index.find? k ∧ m'.nodeAt k = m.nodeAt k

/-- What the nodes hold that were there. -/
def SameContent (m m' : Memory) : Prop := ∀ c < m.cells.length, m'.content c = m.content c

theorem Created.nodeAt (h : Created m m' k kind content) :
    ∃ c, m'.nodeAt k = some ⟨kind, c⟩ ∧ m.cells.length ≤ c ∧ m'.content c = content := by
  obtain ⟨i, c, hfind, hget, _, hnew, hcontent⟩ := h
  exact ⟨c, nodeAt_eq_some_iff.2 ⟨i, hfind, hget⟩, hnew, hcontent⟩

/-- A place with a node has the same number as before if it has the same node. -/
theorem SameAt.of_nodeAt (h : m.WellFormed) (hgrows : Grows m m') (hold : m.nodeAt k = some n)
    (hkept : m'.nodeAt k = some n) : SameAt m m' k := by
  obtain ⟨i, hfind, hget⟩ := nodeAt_eq_some_iff.1 hold
  obtain ⟨i', hfind', hget'⟩ := nodeAt_eq_some_iff.1 hkept
  refine ⟨?_, hkept.trans hold.symm⟩
  rcases hgrows.stored hget' with hstored | hnew
  · rw [hfind, hfind', h.cell_unique hget hstored rfl]
  · exact absurd (h.cell_lt hget) (Nat.not_lt.2 hnew)

theorem SameAt.of_find? (h : m.WellFormed) (hfind : m'.index.find? k = m.index.find? k)
    (hkept : ∀ n, m.nodeAt k = some n → m'.nodeAt k = some n) : SameAt m m' k := by
  refine ⟨hfind, ?_⟩
  cases hold : m.nodeAt k with
  | some n => exact hkept n hold
  | none =>
    rw [nodeAt, hfind, h.find?_eq_none hold]
    rfl

/-- A place that was free and is not any more has a new node, as long as the places with a node
have kept their numbers. -/
theorem created_of_nodeAt (h : m.WellFormed) (h' : m'.WellFormed) (hgrows : Grows m m')
    (hsame : ∀ {j n}, m.nodeAt j = some n → SameAt m m' j) (hfree : m.nodeAt k = none)
    (hk : m'.nodeAt k = some ⟨kind, c⟩) : Created m m' k kind (m'.content c) := by
  obtain ⟨i, hfind, hget⟩ := nodeAt_eq_some_iff.1 hk
  have hslot : m.nodes.get? i = none := by
    cases hget₀ : m.nodes.get? i with
    | none => rfl
    | some n =>
      obtain ⟨j, hj⟩ := h.placed hget₀
      have hnode : m.nodeAt j = some n := nodeAt_eq_some_iff.2 ⟨i, hj, hget₀⟩
      have hkj := h'.number_unique hfind ((hsame hnode).1.trans hj)
      rw [hkj, hnode] at hfree
      cases hfree
  refine ⟨i, c, hfind, hget, hslot, ?_, rfl⟩
  rcases hgrows.stored hget with hstored | hnew
  · rw [hslot] at hstored
    cases hstored
  · exact hnew

section Directories

/-- Directories have been made at the free places at and above a place. -/
structure Founded (m m' : Memory) (k : Key) (perm : UInt32) : Prop where
  wellFormed : m'.WellFormed
  made : ∀ {a}, a <+: k → m.nodeAt a = none → Created m m' a .directory ⟨[], perm⟩
  same : ∀ {a}, (a <+: k → m.nodeAt a ≠ none) → SameAt m m' a
  content : SameContent m m'

/-- Each directory that is made adds a cell with its permissions. -/
theorem keeps_cells_ensureEach (m : Memory) (perm : UInt32) (l : List Key) :
    Keeps (fun m' => ∃ r, m'.cells = m.cells ++ List.replicate r ⟨[], perm⟩)
      (ensureEach perm l) := by
  induction l with
  | nil => exact Keeps.pure _
  | cons k l ih =>
    apply Keeps.bind (Keeps.look _)
    intro found
    cases found with
    | some n => exact Keeps.ite ih (Keeps.throw _)
    | none =>
      refine Keeps.bind (Keeps.update ?_) fun _ => ih
      rintro s ⟨r, hr⟩
      refine ⟨r + 1, ?_⟩
      rw [addNode, hr, List.append_assoc, List.replicate_succ']

theorem content_of_replicate {r c : Nat} (hcells : m'.cells = m.cells ++ List.replicate r content)
    (hnew : m.cells.length ≤ c) (hlt : c < m'.cells.length) : m'.content c = content := by
  have hadded : c - m.cells.length < r := by
    rw [hcells, List.length_append, List.length_replicate] at hlt
    omega
  simp [Memory.content, hcells, List.getD_eq_getElem?_getD, List.getElem?_append_right hnew,
    hadded]

theorem founded_ensureDirs (h : m.WellFormed) (hk : m.Enterable k) (perm : UInt32) :
    ∃ m', ensureDirs k perm m = (.ok (), m') ∧ Founded m m' k perm := by
  obtain ⟨m', hrun, hextends, hdir⟩ := ensureDirs_eq h hk perm
  have hgrows := grows_ensureDirs h.slots hrun
  have hwf := hextends.wellFormed
  have hkept : ∀ {j n}, m.nodeAt j = some n → SameAt m m' j :=
    fun hold => .of_nodeAt h hgrows hold (hextends.kept hold)
  refine ⟨m', hrun, hwf, ?_, ?_, fun c hc => hgrows.content_eq hc⟩
  · intro a ha hfree
    obtain ⟨⟨kind, c⟩, hnode, hisDir⟩ := hwf.dir_of_prefix hdir ha
    have hkind : kind = .directory := of_decide_eq_true hisDir
    subst hkind
    have hmade := created_of_nodeAt h hwf hgrows hkept hfree hnode
    obtain ⟨c', hnode', hnew, -⟩ := hmade.nodeAt
    rw [hnode] at hnode'
    cases hnode'
    obtain ⟨r, hcells⟩ := (keeps_cells_ensureEach m perm k.chain).apply
      (⟨0, (List.append_nil _).symm⟩ : ∃ r, m.cells = m.cells ++ List.replicate r ⟨[], perm⟩)
    rw [← ensureDirs, congrArg Prod.snd hrun] at hcells
    rwa [content_of_replicate hcells hnew (hwf.cell_lt_of_nodeAt hnode)] at hmade
  · intro a ha
    by_cases hstarts : a <+: k
    · obtain ⟨n, hold⟩ := Option.ne_none_iff_exists'.1 (ha hstarts)
      exact hkept hold
    · exact .of_find? h (hextends.other hstarts) fun _ => hextends.kept

/-- Where all the directories are there, none is made. -/
theorem Founded.sameAt (h : Founded m m' k.parent perm) (hne : k ≠ []) (habove : m.Parented k)
    (a : Key) : SameAt m m' a := by
  refine h.same fun ha => ?_
  obtain ⟨hstarts, hneq⟩ := (prefix_parent_iff hne).1 ha
  obtain ⟨n, hn, _⟩ := habove a hstarts hneq
  rw [hn]
  nofun

end Directories

section Planting

/-- A new node at a place that was free, with the directories that were missing above it. -/
structure Planted (m m' : Memory) (k : Key) (kind : NodeKind) (content : Content) : Prop where
  here : Created m m' k kind content
  above : ∀ a, a <+: k → a ≠ k → m.nodeAt a = none →
    Created m m' a .directory ⟨[], defaultDirMode⟩
  same : ∀ a, (a <+: k → m.nodeAt a ≠ none) → SameAt m m' a
  content : SameContent m m'

/-- What is outside of a directory that the place is in has not changed, but for directories that
were missing above it. -/
theorem Planted.outside {b : Key}
    (h : Planted m m' k kind content) (hb : b <+: k) (hj : ¬ b <+: j) :
    SameAt m m' j ∨
      j <+: b ∧ m.nodeAt j = none ∧ Created m m' j .directory ⟨[], defaultDirMode⟩ := by
  by_cases habove : j <+: k ∧ m.nodeAt j = none
  · obtain ⟨hjk, hfree⟩ := habove
    have hjb : j <+: b := (List.prefix_or_prefix_of_prefix hjk hb).resolve_right hj
    have hne : j ≠ k := fun hjk => hj (hjk ▸ hb)
    exact .inr ⟨hjb, hfree, h.above j hjk hne hfree⟩
  · exact .inl (h.same j fun hjk hfree => habove ⟨hjk, hfree⟩)

theorem planted_createNode (h : m.WellFormed) (hpass : m.Passable k) (hk : m.nodeAt k = none)
    (kind : NodeKind) (content : Content) :
    ∃ c m', createNode k kind content m = (.ok c, m') ∧ m'.WellFormed ∧
      m'.nodeAt k = some ⟨kind, c⟩ ∧ Planted m m' k kind content := by
  have hne := h.ne_nil_of_nodeAt hk
  obtain ⟨m₁, hrun, hdirs, -, hfree, hwf⟩ := createNode_eq h hpass hk kind content
  obtain ⟨m₁', hdirs', hfounded⟩ :=
    founded_ensureDirs h (hpass.enterable_parent hne) defaultDirMode
  obtain rfl : m₁ = m₁' := congrArg Prod.snd (hdirs.symm.trans hdirs')
  have hgrows := (grows_ensureDirs h.slots hdirs).addNode k kind content
  have hcells : m.cells.length ≤ m₁.cells.length := (grows_ensureDirs h.slots hdirs).cells.length_le
  have hadded := hfounded.wellFormed.nodeAt_addNode k kind content
  have hother : ∀ {a}, a ≠ k → SameAt m₁ (m₁.addNode k kind content) a := by
    intro a ha
    refine ⟨?_, by rw [hadded, if_neg ha]⟩
    rw [WellFormed.find?_addNode, if_neg ha]
  have hsame : ∀ {a}, (a <+: k → m.nodeAt a ≠ none) → SameAt m (m₁.addNode k kind content) a := by
    intro a ha
    have hak : a ≠ k := by
      rintro rfl
      exact ha List.prefix_rfl hk
    have hbefore := hfounded.same fun hparent => ha ((prefix_parent_iff hne).1 hparent).1
    exact ⟨(hother hak).1.trans hbefore.1, (hother hak).2.trans hbefore.2⟩
  have hkept : ∀ {j n}, m.nodeAt j = some n → SameAt m (m₁.addNode k kind content) j := by
    intro j n hj
    refine hsame fun _ => ?_
    rw [hj]
    nofun
  have hhere : (m₁.addNode k kind content).nodeAt k = some ⟨kind, m₁.cells.length⟩ := by
    rw [hadded, if_pos rfl]
  refine ⟨_, _, hrun, hwf, hhere, ?_, ?_, fun _ => hsame, fun c hc => hgrows.content_eq hc⟩
  · have hcreated := created_of_nodeAt h hwf hgrows hkept hk hhere
    rwa [content_addNode] at hcreated
  · intro a ha hak hfreeAt
    have hmade := hfounded.made ((prefix_parent_iff hne).2 ⟨ha, hak⟩) hfreeAt
    obtain ⟨c, hnode, -, hcontent⟩ := hmade.nodeAt
    have hnode' := (hother hak).2.trans hnode
    have hcreated := created_of_nodeAt h hwf hgrows hkept hfreeAt hnode'
    have hlt := hfounded.wellFormed.cell_lt_of_nodeAt hnode
    have hadded := (Grows.refl hfounded.wellFormed.slots).addNode k kind content
    have hkeptContent := hadded.content_eq hlt
    rwa [hkeptContent, hcontent] at hcreated

end Planting

end ConfinedFs.Memory
