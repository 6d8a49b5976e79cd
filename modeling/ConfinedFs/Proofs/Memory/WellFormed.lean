import ConfinedFs.Proofs.Memory.Observations

/-!
What a tree in memory keeps to. The index and the slots hold the same nodes, and
every place above a stored one is stored as a directory. So there are no
directories that are only implied, and nothing lies below a file or a link.
-/

namespace ConfinedFs.Memory

/-- Every place strictly above the given one is stored as a directory. -/
def Parented (m : Memory) (k : Key) : Prop :=
  ∀ a, a <+: k → a ≠ k → ∃ n, m.nodeAt a = some n ∧ n.isDir = true

/-- Every place strictly above the given one is stored as a directory or free. -/
def Passable (m : Memory) (k : Key) : Prop :=
  ∀ a n, a <+: k → a ≠ k → m.nodeAt a = some n → n.isDir = true

/-- What every reachable tree keeps to. -/
structure WellFormed (m : Memory) : Prop where
  sorted : m.index.Sorted
  slots : m.nodes.WellFormed
  /-- The top has the number zero and is a directory. -/
  top : m.index.find? [] = some 0 ∧ ∃ n, m.nodes.get? 0 = some n ∧ n.isDir = true
  /-- No two places have one number. -/
  number_unique : ∀ {j k i}, m.index.find? j = some i → m.index.find? k = some i → j = k
  /-- No number dangles. -/
  stored : ∀ {k i}, m.index.find? k = some i → ∃ n, m.nodes.get? i = some n
  /-- No node is leaked. -/
  placed : ∀ {i n}, m.nodes.get? i = some n → ∃ k, m.index.find? k = some i
  parented : ∀ {k i}, m.index.find? k = some i → m.Parented k
  /-- Each node has a cell of its own. -/
  cell_lt : ∀ {i n}, m.nodes.get? i = some n → n.cell < m.cells.length
  cell_unique : ∀ {i j n n'}, m.nodes.get? i = some n → m.nodes.get? j = some n' →
    n.cell = n'.cell → i = j

variable {m : Memory} {j k a source target : Key} {i : Nat} {n : Node}

theorem nodeAt_eq_some_iff :
    m.nodeAt k = some n ↔ ∃ i, m.index.find? k = some i ∧ m.nodes.get? i = some n :=
  Option.bind_eq_some_iff

namespace WellFormed

theorem nodeAt_of_find? (h : m.WellFormed) (hfind : m.index.find? k = some i) :
    ∃ n, m.nodeAt k = some n := by
  obtain ⟨n, hn⟩ := h.stored hfind
  exact ⟨n, nodeAt_eq_some_iff.2 ⟨i, hfind, hn⟩⟩

theorem find?_eq_none (h : m.WellFormed) (hnode : m.nodeAt k = none) : m.index.find? k = none := by
  cases hfind : m.index.find? k with
  | none => rfl
  | some i =>
    obtain ⟨n, hn⟩ := h.nodeAt_of_find? hfind
    rw [hnode] at hn
    cases hn

theorem parented_of_nodeAt (h : m.WellFormed) (hnode : m.nodeAt k = some n) : m.Parented k := by
  obtain ⟨i, hfind, _⟩ := nodeAt_eq_some_iff.1 hnode
  exact h.parented hfind

/-- At a stored directory and above it there are directories. -/
theorem dir_of_prefix (h : m.WellFormed) (hdir : ∃ n, m.nodeAt k = some n ∧ n.isDir = true)
    (ha : a <+: k) : ∃ n, m.nodeAt a = some n ∧ n.isDir = true := by
  by_cases heq : a = k
  · exact heq ▸ hdir
  · obtain ⟨n, hnode, -⟩ := hdir
    exact h.parented_of_nodeAt hnode a ha heq

/-- Something is stored at a stored place and above it. -/
theorem stored_of_prefix (h : m.WellFormed) (hnode : m.nodeAt k = some n) (ha : a <+: k) :
    ∃ above, m.nodeAt a = some above := by
  by_cases heq : a = k
  · exact ⟨n, heq ▸ hnode⟩
  · obtain ⟨above, habove, -⟩ := h.parented_of_nodeAt hnode a ha heq
    exact ⟨above, habove⟩

/-- Below a free place everything is free. -/
theorem free_of_prefix (h : m.WellFormed) (ha : m.nodeAt a = none) (hk : a <+: k) :
    m.nodeAt k = none := by
  cases hnode : m.nodeAt k with
  | none => rfl
  | some n =>
    obtain ⟨above, habove⟩ := h.stored_of_prefix hnode hk
    cases habove.symm.trans ha

theorem nodeAt_of_get? (h : m.WellFormed) (hi : m.nodes.get? i = some n) :
    ∃ k, m.nodeAt k = some n := by
  obtain ⟨k, hk⟩ := h.placed hi
  exact ⟨k, nodeAt_eq_some_iff.2 ⟨i, hk, hi⟩⟩

theorem cell_lt_of_nodeAt (h : m.WellFormed) (hnode : m.nodeAt k = some n) :
    n.cell < m.cells.length := by
  obtain ⟨i, _, hi⟩ := nodeAt_eq_some_iff.1 hnode
  exact h.cell_lt hi

/-- No two places have nodes with one cell. -/
theorem key_unique (h : m.WellFormed) {n' : Node} (hj : m.nodeAt j = some n)
    (hk : m.nodeAt k = some n') (hcell : n.cell = n'.cell) : j = k := by
  obtain ⟨i, hi, hget⟩ := nodeAt_eq_some_iff.1 hj
  obtain ⟨i', hi', hget'⟩ := nodeAt_eq_some_iff.1 hk
  have hslot := h.cell_unique hget hget' hcell
  subst hslot
  exact h.number_unique hi hi'

theorem nodeAt_top (h : m.WellFormed) : ∃ n, m.nodeAt [] = some n ∧ n.isDir = true := by
  obtain ⟨hfind, n, hn, hdir⟩ := h.top
  exact ⟨n, nodeAt_eq_some_iff.2 ⟨0, hfind, hn⟩, hdir⟩

/-- What has something below it is a stored directory. -/
theorem isDir_of_hasDescendants (h : m.WellFormed) (hbelow : m.hasDescendants k = true) :
    ∃ n, m.nodeAt k = some n ∧ n.isDir = true := by
  obtain ⟨j, i, hfind, hstarts, hne⟩ := (Index.hasDescendants_iff h.sorted).1 hbelow
  exact h.parented hfind k hstarts hne.symm

/-- The places of the index are those where something is stored. -/
theorem contains_iff (h : m.WellFormed) :
    m.index.contains k = true ↔ ∃ n, m.nodeAt k = some n := by
  constructor
  · intro hcontains
    obtain ⟨i, hfind⟩ := Option.isSome_iff_exists.1 hcontains
    exact h.nodeAt_of_find? hfind
  · rintro ⟨n, hnode⟩
    obtain ⟨i, hfind, _⟩ := nodeAt_eq_some_iff.1 hnode
    rw [Index.contains, hfind]
    rfl

/-- A place exists if it is stored. -/
theorem exists?_iff (h : m.WellFormed) : m.exists? k = true ↔ ∃ n, m.nodeAt k = some n := by
  rw [exists?, Bool.or_eq_true, h.contains_iff]
  refine ⟨fun hexists => hexists.elim id fun hbelow => ?_, .inl⟩
  obtain ⟨n, hnode, _⟩ := h.isDir_of_hasDescendants hbelow
  exact ⟨n, hnode⟩

theorem free_of_not_exists (h : m.WellFormed) (hnot : ¬ m.exists? k = true) :
    m.nodeAt k = none := by
  cases hnode : m.nodeAt k with
  | none => rfl
  | some n => exact absurd (h.exists?_iff.2 ⟨n, hnode⟩) hnot

/-- Nothing is stored at or below a place that does not exist. -/
theorem find?_eq_none_of_prefix (h : m.WellFormed) (hnot : ¬ m.exists? k = true)
    (hstarts : k <+: j) : m.index.find? j = none :=
  h.find?_eq_none (h.free_of_prefix (h.free_of_not_exists hnot) hstarts)

theorem isDir_iff (h : m.WellFormed) :
    m.isDir k = true ↔ ∃ n, m.nodeAt k = some n ∧ n.isDir = true := by
  unfold isDir
  cases hnode : m.nodeAt k with
  | some n =>
    constructor
    · intro hdir
      exact ⟨n, rfl, hdir⟩
    · rintro ⟨n', hn', hdir⟩
      cases hn'
      exact hdir
  | none =>
    constructor
    · intro hbelow
      obtain ⟨n, hn, _⟩ := h.isDir_of_hasDescendants hbelow
      rw [hnode] at hn
      cases hn
    · rintro ⟨n, hn, _⟩
      cases hn

/-- The number of a new node is that of no place. -/
theorem find?_ne_nextSlot (h : m.WellFormed) (hfind : m.index.find? k = some i) :
    i ≠ m.nodes.nextSlot := by
  rintro rfl
  obtain ⟨n, hn⟩ := h.stored hfind
  rw [h.slots.laws.next] at hn
  cases hn

section AddNode

variable {kind : NodeKind} {c : Content}

theorem find?_addNode (m : Memory) (k : Key) (kind : NodeKind) (c : Content) (j : Key) :
    (m.addNode k kind c).index.find? j =
      if j = k then some m.nodes.nextSlot else m.index.find? j :=
  Index.find?_insert m.index k _ j

theorem get?_addNode (h : m.WellFormed) (k : Key) (kind : NodeKind) (c : Content) (i : Nat) :
    (m.addNode k kind c).nodes.get? i =
      if i = m.nodes.nextSlot then some ⟨kind, m.cells.length⟩ else m.nodes.get? i :=
  h.slots.laws.insert _ i

/-- A place has the new number or the one it had, which is another one. -/
theorem find?_addNode_eq_some (h : m.WellFormed)
    (hj : (m.addNode k kind c).index.find? j = some i) :
    j = k ∧ i = m.nodes.nextSlot ∨ m.index.find? j = some i ∧ i ≠ m.nodes.nextSlot := by
  rw [find?_addNode] at hj
  split at hj
  · next heq => exact .inl ⟨heq, (Option.some.inj hj).symm⟩
  · exact .inr ⟨hj, h.find?_ne_nextSlot hj⟩

/-- A slot holds the new node or the one it held, which has another cell. -/
theorem get?_addNode_eq_some (h : m.WellFormed)
    (hi : (m.addNode k kind c).nodes.get? i = some n) :
    i = m.nodes.nextSlot ∧ n.cell = m.cells.length ∨
      m.nodes.get? i = some n ∧ n.cell < m.cells.length := by
  rw [h.get?_addNode] at hi
  split at hi
  · next heq =>
    cases hi
    exact .inl ⟨heq, rfl⟩
  · exact .inr ⟨hi, h.cell_lt hi⟩

theorem get?_addNode_of_find? (h : m.WellFormed) (hj : m.index.find? j = some i) :
    (m.addNode k kind c).nodes.get? i = m.nodes.get? i := by
  rw [h.get?_addNode, if_neg (h.find?_ne_nextSlot hj)]

theorem nodeAt_addNode (h : m.WellFormed) (k : Key) (kind : NodeKind) (c : Content) (j : Key) :
    (m.addNode k kind c).nodeAt j =
      if j = k then some ⟨kind, m.cells.length⟩ else m.nodeAt j := by
  unfold nodeAt
  rw [find?_addNode]
  by_cases hj : j = k
  · rw [if_pos hj, if_pos hj, Option.bind_some, h.get?_addNode, if_pos rfl]
  · rw [if_neg hj, if_neg hj]
    cases hfind : m.index.find? j with
    | none => rfl
    | some i => exact h.get?_addNode_of_find? hfind

/-- A node is created at a free place in a stored directory. -/
theorem addNode (h : m.WellFormed) (hk : m.nodeAt k = none) (habove : m.Parented k)
    (kind : NodeKind) (c : Content) : (m.addNode k kind c).WellFormed := by
  have hfree := h.find?_eq_none hk
  have hkept : ∀ {j i}, m.index.find? j = some i →
      (m.addNode k kind c).index.find? j = some i := by
    intro j i hj
    rw [find?_addNode, if_neg, hj]
    rintro rfl
    rw [hfree] at hj
    cases hj
  constructor
  case sorted => exact Index.sorted_insert h.sorted k _
  case slots => exact h.slots.insert _
  case top =>
    obtain ⟨htop, n, hn, hdir⟩ := h.top
    refine ⟨hkept htop, n, ?_, hdir⟩
    rw [h.get?_addNode_of_find? htop, hn]
  case number_unique =>
    intro j j' i hj hj'
    rcases h.find?_addNode_eq_some hj with ⟨rfl, hnew⟩ | ⟨hold, hne⟩
    · rcases h.find?_addNode_eq_some hj' with ⟨rfl, _⟩ | ⟨_, hne'⟩
      · rfl
      · exact absurd hnew hne'
    · rcases h.find?_addNode_eq_some hj' with ⟨_, hnew'⟩ | ⟨hold', _⟩
      · exact absurd hnew' hne
      · exact h.number_unique hold hold'
  case stored =>
    intro j i hj
    rcases h.find?_addNode_eq_some hj with ⟨_, hnew⟩ | ⟨hold, _⟩
    · exact ⟨_, by rw [h.get?_addNode, if_pos hnew]⟩
    · obtain ⟨n, hn⟩ := h.stored hold
      exact ⟨n, by rw [h.get?_addNode_of_find? hold, hn]⟩
  case placed =>
    intro i n hi
    rcases h.get?_addNode_eq_some hi with ⟨rfl, _⟩ | ⟨hold, _⟩
    · exact ⟨k, by rw [find?_addNode, if_pos rfl]⟩
    · obtain ⟨j, hj⟩ := h.placed hold
      exact ⟨j, hkept hj⟩
  case parented =>
    intro j i hj a ha hne
    have hold : m.Parented j := by
      rcases h.find?_addNode_eq_some hj with ⟨rfl, _⟩ | ⟨hold, _⟩
      · exact habove
      · exact h.parented hold
    obtain ⟨n, hn, hdir⟩ := hold a ha hne
    refine ⟨n, ?_, hdir⟩
    rw [h.nodeAt_addNode, if_neg, hn]
    rintro rfl
    rw [hk] at hn
    cases hn
  case cell_lt =>
    intro i n hi
    have hlength : (m.addNode k kind c).cells.length = m.cells.length + 1 := List.length_append
    rw [hlength]
    rcases h.get?_addNode_eq_some hi with ⟨_, hcell⟩ | ⟨_, hlt⟩
    · rw [hcell]
      exact Nat.lt_succ_self _
    · exact Nat.lt_succ_of_lt hlt
  case cell_unique =>
    intro i i' n n' hi hi' hcell
    rcases h.get?_addNode_eq_some hi with ⟨rfl, hnew⟩ | ⟨hold, hlt⟩
    · rcases h.get?_addNode_eq_some hi' with ⟨rfl, _⟩ | ⟨_, hlt'⟩
      · rfl
      · rw [← hcell, hnew] at hlt'
        exact absurd hlt' (Nat.lt_irrefl _)
    · rcases h.get?_addNode_eq_some hi' with ⟨_, hnew'⟩ | ⟨hold', _⟩
      · rw [hcell, hnew'] at hlt
        exact absurd hlt (Nat.lt_irrefl _)
      · exact h.cell_unique hold hold' hcell

end AddNode

section Prune

theorem find?_prune_eq_some (h : m.WellFormed) :
    (m.prune k).index.find? j = some i ↔ m.index.find? j = some i ∧ ¬ k <+: j := by
  rw [find?_prune h.sorted]
  by_cases hstarts : k <+: j
  · rw [if_pos hstarts]
    exact ⟨nofun, fun hj => absurd hstarts hj.2⟩
  · rw [if_neg hstarts]
    exact ⟨fun hj => ⟨hj, hstarts⟩, And.left⟩

theorem find?_prune_eq_none (h : m.WellFormed) (hstarts : k <+: j) :
    (m.prune k).index.find? j = none := by
  rw [find?_prune h.sorted, if_pos hstarts]

/-- The node of a place that is left stays in its slot. -/
theorem get?_prune_of_find? (h : m.WellFormed) (hj : m.index.find? j = some i)
    (hnot : ¬ k <+: j) : (m.prune k).nodes.get? i = m.nodes.get? i := by
  apply get?_prune_of_forall h.sorted
  intro j' hj'
  rw [h.number_unique hj' hj]
  exact hnot

theorem nodeAt_prune (h : m.WellFormed) (k j : Key) :
    (m.prune k).nodeAt j = if k <+: j then none else m.nodeAt j := by
  unfold nodeAt
  rw [find?_prune h.sorted]
  by_cases hstarts : k <+: j
  · rw [if_pos hstarts, if_pos hstarts]
    rfl
  · rw [if_neg hstarts, if_neg hstarts]
    cases hfind : m.index.find? j with
    | none => rfl
    | some i => exact h.get?_prune_of_find? hfind hstarts

/-- What is left in the slots are the nodes of the places that are left. -/
theorem get?_prune (h : m.WellFormed) (hi : (m.prune k).nodes.get? i = some n) :
    m.nodes.get? i = some n ∧ ∃ j, m.index.find? j = some i ∧ ¬ k <+: j := by
  by_cases hgone : ∃ j, m.index.find? j = some i ∧ k <+: j
  · obtain ⟨j, hj, hstarts⟩ := hgone
    rw [get?_prune_eq_none h.sorted hj hstarts] at hi
    cases hi
  · have hstays : ∀ j, m.index.find? j = some i → ¬ k <+: j :=
      fun j hj hstarts => hgone ⟨j, hj, hstarts⟩
    rw [get?_prune_of_forall h.sorted hstays] at hi
    obtain ⟨j, hj⟩ := h.placed hi
    exact ⟨hi, j, hj, hstays j hj⟩

/-- Everything but the top can be dropped. -/
theorem prune (h : m.WellFormed) (hk : k ≠ []) : (m.prune k).WellFormed := by
  constructor
  case sorted => exact sorted_prune h.sorted k
  case slots => exact slots_foldl_dropEntry m _ h.slots
  case top =>
    obtain ⟨htop, n, hn, hdir⟩ := h.top
    have hnot : ¬ k <+: [] := fun hstarts => hk (List.prefix_nil.1 hstarts)
    refine ⟨h.find?_prune_eq_some.2 ⟨htop, hnot⟩, n, ?_, hdir⟩
    rw [h.get?_prune_of_find? htop hnot, hn]
  case number_unique =>
    intro j j' i hj hj'
    exact h.number_unique (h.find?_prune_eq_some.1 hj).1 (h.find?_prune_eq_some.1 hj').1
  case stored =>
    intro j i hj
    obtain ⟨hold, hnot⟩ := h.find?_prune_eq_some.1 hj
    rw [h.get?_prune_of_find? hold hnot]
    exact h.stored hold
  case placed =>
    intro i n hi
    obtain ⟨_, j, hj⟩ := h.get?_prune hi
    exact ⟨j, h.find?_prune_eq_some.2 hj⟩
  case parented =>
    intro j i hj a ha hne
    obtain ⟨hold, hnot⟩ := h.find?_prune_eq_some.1 hj
    obtain ⟨n, hn, hdir⟩ := h.parented hold a ha hne
    refine ⟨n, ?_, hdir⟩
    rw [h.nodeAt_prune, if_neg fun hstarts => hnot (hstarts.trans ha), hn]
  case cell_lt =>
    intro i n hi
    have hcells : (m.prune k).cells = m.cells := cells_foldl_dropEntry m _
    rw [hcells]
    exact h.cell_lt (h.get?_prune hi).1
  case cell_unique =>
    intro i i' n n' hi hi' hcell
    exact h.cell_unique (h.get?_prune hi).1 (h.get?_prune hi').1 hcell

end Prune

section Transplant

variable (hfree : ∀ j, target <+: j → m.index.find? j = none)

include hfree

/-- A place at or below the target has the number of its counterpart, any other one
its own. -/
theorem find?_transplant_eq_some (h : m.WellFormed)
    (hj : (m.transplant source target).index.find? j = some i) :
    (∃ r, j = target ++ r ∧ m.index.find? (source ++ r) = some i) ∨
      (¬ target <+: j ∧ ¬ source <+: j ∧ m.index.find? j = some i) := by
  rw [find?_transplant h.sorted hfree] at hj
  split at hj
  · next hstarts =>
    obtain ⟨r, rfl⟩ := hstarts
    rw [List.drop_left] at hj
    exact .inl ⟨r, rfl, hj⟩
  · next hnt =>
    split at hj
    · cases hj
    · next hns => exact .inr ⟨hnt, hns, hj⟩

theorem find?_transplant_append (h : m.WellFormed) (r : Key) :
    (m.transplant source target).index.find? (target ++ r) = m.index.find? (source ++ r) := by
  rw [find?_transplant h.sorted hfree, if_pos (List.prefix_append target r), List.drop_left]

theorem find?_transplant_of_not (h : m.WellFormed) (hnt : ¬ target <+: j) (hns : ¬ source <+: j) :
    (m.transplant source target).index.find? j = m.index.find? j := by
  rw [find?_transplant h.sorted hfree, if_neg hnt, if_neg hns]

/-- The nodes at and below the target are those that were at and below the source. -/
theorem nodeAt_transplant (h : m.WellFormed) (j : Key) :
    (m.transplant source target).nodeAt j =
      if target <+: j then m.nodeAt (source ++ j.drop target.length)
      else if source <+: j then none
      else m.nodeAt j := by
  unfold nodeAt
  rw [find?_transplant h.sorted hfree]
  split
  · rfl
  · split <;> rfl

theorem nodeAt_transplant_append (h : m.WellFormed) (r : Key) :
    (m.transplant source target).nodeAt (target ++ r) = m.nodeAt (source ++ r) := by
  rw [nodeAt_transplant hfree h, if_pos (List.prefix_append target r), List.drop_left]

theorem nodeAt_transplant_of_not (h : m.WellFormed) (hnt : ¬ target <+: j)
    (hns : ¬ source <+: j) : (m.transplant source target).nodeAt j = m.nodeAt j := by
  rw [nodeAt_transplant hfree h, if_neg hnt, if_neg hns]

/-- Above a moved place are the target, places above the target and moved places. -/
theorem parented_transplant (h : m.WellFormed) (hnot : ¬ source <+: target)
    (habove : m.Parented target) {r : Key} (hr : m.index.find? (source ++ r) = some i) :
    (m.transplant source target).Parented (target ++ r) := by
  intro a ha hne
  rcases List.prefix_or_prefix_of_prefix ha (List.prefix_append target r) with hp | hbelow
  · by_cases heq : a = target
    · subst heq
      have hshort : source ≠ source ++ r := by
        intro hnil
        rw [List.self_eq_append_right] at hnil
        rw [hnil, List.append_nil] at hne
        exact hne rfl
      obtain ⟨n, hn, hdir⟩ := h.parented hr source (List.prefix_append source r) hshort
      have hnode : (m.transplant source a).nodeAt (a ++ []) = m.nodeAt (source ++ []) :=
        nodeAt_transplant_append hfree h []
      rw [List.append_nil, List.append_nil] at hnode
      exact ⟨n, hnode.trans hn, hdir⟩
    · obtain ⟨n, hn, hdir⟩ := habove a hp heq
      have hnt : ¬ target <+: a := fun hta => heq (hp.eq_of_length_le hta.length_le)
      exact ⟨n, (nodeAt_transplant_of_not hfree h hnt fun hsa => hnot (hsa.trans hp)).trans hn,
        hdir⟩
  · obtain ⟨r', rfl⟩ := hbelow
    have hstarts : source ++ r' <+: source ++ r :=
      (List.prefix_append_right_inj source).2 ((List.prefix_append_right_inj target).1 ha)
    have hshort : source ++ r' ≠ source ++ r := by
      intro heq
      exact hne (congrArg (target ++ ·) (List.append_cancel_left heq))
    obtain ⟨n, hn, hdir⟩ := h.parented hr _ hstarts hshort
    exact ⟨n, (nodeAt_transplant_append hfree h r').trans hn, hdir⟩

/-- Everything but the top can be moved to a free place in a stored directory, as
long as that is not below it. -/
theorem transplant (h : m.WellFormed) (hsource : source ≠ []) (htarget : target ≠ [])
    (hnot : ¬ source <+: target) (habove : m.Parented target) :
    (m.transplant source target).WellFormed := by
  constructor
  case sorted => exact sorted_transplant h.sorted source target
  case slots => exact h.slots
  case top =>
    obtain ⟨htop, hdir⟩ := h.top
    refine ⟨?_, hdir⟩
    rw [find?_transplant_of_not hfree h (fun hp => htarget (List.prefix_nil.1 hp))
      (fun hp => hsource (List.prefix_nil.1 hp)), htop]
  case number_unique =>
    intro j j' i hj hj'
    rcases find?_transplant_eq_some hfree h hj with ⟨r, rfl, hr⟩ | ⟨_, hns, hold⟩
    · rcases find?_transplant_eq_some hfree h hj' with ⟨r', rfl, hr'⟩ | ⟨_, hns', hold'⟩
      · have heq := h.number_unique hr hr'
        rw [List.append_cancel_left heq]
      · have heq := h.number_unique hr hold'
        exact absurd ⟨r, heq⟩ hns'
    · rcases find?_transplant_eq_some hfree h hj' with ⟨r', rfl, hr'⟩ | ⟨_, _, hold'⟩
      · have heq := h.number_unique hr' hold
        exact absurd ⟨r', heq⟩ hns
      · exact h.number_unique hold hold'
  case stored =>
    intro j i hj
    rcases find?_transplant_eq_some hfree h hj with ⟨r, _, hr⟩ | ⟨_, _, hold⟩
    · exact h.stored hr
    · exact h.stored hold
  case placed =>
    intro i n hi
    obtain ⟨j, hj⟩ := h.placed hi
    by_cases hstarts : source <+: j
    · obtain ⟨r, rfl⟩ := hstarts
      exact ⟨target ++ r, (find?_transplant_append hfree h r).trans hj⟩
    · have hnt : ¬ target <+: j := by
        intro hp
        rw [hfree j hp] at hj
        cases hj
      exact ⟨j, (find?_transplant_of_not hfree h hnt hstarts).trans hj⟩
  case parented =>
    intro j i hj
    rcases find?_transplant_eq_some hfree h hj with ⟨r, rfl, hr⟩ | ⟨hnt, hns, hold⟩
    · exact parented_transplant hfree h hnot habove hr
    · intro a ha hne
      obtain ⟨n, hn, hdir⟩ := h.parented hold a ha hne
      have hkept := nodeAt_transplant_of_not hfree h (fun hp => hnt (hp.trans ha))
        (fun hp => hns (hp.trans ha))
      exact ⟨n, hkept.trans hn, hdir⟩
  case cell_lt => exact h.cell_lt
  case cell_unique => exact h.cell_unique

end Transplant

/-- What is in the cells does not matter. -/
theorem modifyCell (h : m.WellFormed) (c : CellId) (f : Content → Content) :
    (m.modifyCell c f).WellFormed := by
  refine { h with cell_lt := ?_ }
  intro i n hi
  have hlength : (m.modifyCell c f).cells.length = m.cells.length := List.length_modify ..
  rw [hlength]
  exact h.cell_lt hi

end WellFormed

theorem wellFormed_fresh : fresh.WellFormed := by
  have hfind : ∀ {k i}, fresh.index.find? k = some i → k = [] ∧ i = 0 := by
    intro k i hk
    have hmem : ({ key := k, number := i } : Index.Entry) ∈ fresh.index.entries :=
      (Index.find?_eq_some_iff (List.pairwise_singleton _ _)).1 hk
    cases List.mem_singleton.1 hmem
    exact ⟨rfl, rfl⟩
  have hget : ∀ {i n}, fresh.nodes.get? i = some n → i = 0 ∧ n = ⟨.directory, 0⟩ := by
    intro i n hi
    cases i with
    | zero => exact ⟨rfl, (Option.some.inj hi).symm⟩
    | succ i => cases hi
  constructor
  case sorted => exact List.pairwise_singleton _ _
  case slots => exact SlotTable.WellFormed.empty.insert _
  case top => exact ⟨rfl, _, rfl, rfl⟩
  case number_unique =>
    intro j k i hj hk
    rw [(hfind hj).1, (hfind hk).1]
  case stored =>
    intro k i hk
    rw [(hfind hk).2]
    exact ⟨_, rfl⟩
  case placed =>
    intro i n hi
    rw [(hget hi).1]
    exact ⟨[], rfl⟩
  case parented =>
    intro k i hk a ha hne
    rw [(hfind hk).1] at ha hne
    exact absurd (List.prefix_nil.1 ha) hne
  case cell_lt =>
    intro i n hi
    rw [(hget hi).2]
    exact Nat.zero_lt_one
  case cell_unique =>
    intro i j n n' hi hj _
    rw [(hget hi).1, (hget hj).1]

end ConfinedFs.Memory
