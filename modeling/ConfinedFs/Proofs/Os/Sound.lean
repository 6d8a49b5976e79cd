import ConfinedFs.Proofs.Os.Nodes

/-!
What holds of every tree the operating system can have. The way up from each
directory ends at the top, so no directory lies below itself. A directory has
one entry at the most, in the directory that it takes for the one above it.
Nodes are never forgotten, and each was counted by the directory it was created
in.
-/

namespace ConfinedFs.Os.Tree

/-- The directories from one up to the top, each followed by the one that it
takes for the directory above it. -/
inductive Ascends (t : Tree) : NodeId → List NodeId → Prop where
  | here : Ascends t top [top]
  | up {i : NodeId} {d : Directory} {l : List NodeId} (hd : t.dir? i = some d) (hi : i ≠ top)
      (hl : Ascends t d.parent l) : Ascends t i (i :: l)

namespace Ascends

variable {t : Tree} {i j : NodeId} {l m : List NodeId}

theorem mem_self (h : t.Ascends i l) : i ∈ l := by
  cases h <;> simp

/-- There is one way up. -/
theorem unique (h : t.Ascends i l) (h' : t.Ascends i m) : l = m := by
  induction h generalizing m with
  | here =>
    cases h' with
    | here => rfl
    | up _ hi _ => exact absurd rfl hi
  | up hd hi hl ih =>
    cases h' with
    | here => exact absurd rfl hi
    | up hd' _ hl' =>
      rw [hd] at hd'
      cases hd'
      rw [ih hl']

/-- The way up from a directory on the way is the rest of the way. -/
theorem rest_of_mem (h : t.Ascends i l) (hj : j ∈ l) :
    ∃ before rest, l = before ++ rest ∧ t.Ascends j rest := by
  induction h with
  | here =>
    rw [List.mem_singleton.1 hj]
    exact ⟨[], [top], rfl, .here⟩
  | @up i d l hd hi hl ih =>
    rcases List.mem_cons.1 hj with rfl | hj
    · exact ⟨[], j :: l, rfl, .up hd hi hl⟩
    · obtain ⟨before, rest, hsplit, hrest⟩ := ih hj
      exact ⟨i :: before, rest, by rw [hsplit, List.cons_append], hrest⟩

/-- No directory is met again further up. -/
theorem not_mem_of_up {d : Directory} (hd : t.dir? i = some d) (hi : i ≠ top)
    (hl : t.Ascends d.parent l) : i ∉ l := by
  intro hmem
  obtain ⟨before, rest, hsplit, hrest⟩ := hl.rest_of_mem hmem
  have hlength := congrArg List.length (hrest.unique (.up hd hi hl))
  simp only [List.length_cons] at hlength
  rw [hsplit, List.length_append] at hlength
  omega

theorem nodup (h : t.Ascends i l) : l.Nodup := by
  induction h with
  | here => exact by simp
  | up hd hi hl ih => exact List.nodup_cons.2 ⟨not_mem_of_up hd hi hl, ih⟩

/-- Other trees in which the same directories take the same ones for those above
them have the same ways up. -/
theorem transfer {u : Tree} (h : t.Ascends i l)
    (hdir : ∀ j ∈ l, ∀ d, t.dir? j = some d → ∃ d', u.dir? j = some d' ∧ d'.parent = d.parent) :
    u.Ascends i l := by
  induction h with
  | here => exact .here
  | @up i d l hd hi _ ih =>
    obtain ⟨d', hd', hparent⟩ := hdir i (List.mem_cons_self ..) d hd
    refine .up hd' hi ?_
    rw [hparent]
    exact ih fun j hj => hdir j (List.mem_cons_of_mem _ hj)

end Ascends

/-- What every tree of the operating system keeps to. -/
structure Sound (t : Tree) : Prop where
  /-- The top takes itself for the directory above it. -/
  top_dir : ∃ d, t.dir? top = some d ∧ d.parent = top
  /-- The way up from every directory ends at the top. -/
  grounded : ∀ {i d}, t.dir? i = some d → ∃ l, t.Ascends i l
  /-- An entry leads to a node. -/
  entry_node : ∀ {dir d n i}, t.dir? dir = some d → (n, i) ∈ d.entries → (t.node? i).isSome
  /-- The top has no entry, and an entry for another directory is in the one
  above it. -/
  entry_parent : ∀ {dir d n i s}, t.dir? dir = some d → (n, i) ∈ d.entries →
    t.dir? i = some s → i ≠ top ∧ s.parent = dir
  /-- No directory has two names. -/
  entry_unique : ∀ {dir d n m i s}, t.dir? dir = some d → (n, i) ∈ d.entries →
    (m, i) ∈ d.entries → t.dir? i = some s → n = m
  /-- A name stands for one node. -/
  names_nodup : ∀ {dir d}, t.dir? dir = some d → (d.entries.map Prod.fst).Nodup
  /-- Each node but the top was counted where it was created. -/
  born : ∀ {i}, (t.node? i).isSome →
    i = top ∨ ∃ dir d count, i = dir.child count ∧ t.dir? dir = some d ∧ count < d.created

namespace Sound

variable {t : Tree} {i j dir : NodeId} {d : Directory} {l : List NodeId}

/-- The identities a directory has not given out yet are those of no node. -/
theorem node?_child_eq_none (h : t.Sound) (i : NodeId) (count : Nat)
    (hcount : ((t.dir? i).map (·.created)).getD 0 ≤ count) : t.node? (i.child count) = none := by
  rw [← Option.not_isSome_iff_eq_none]
  intro hsome
  rcases h.born hsome with htop | ⟨dir, d, c, hchild, hd, hlt⟩
  · have := congrArg NodeId.depth htop
    simp [NodeId.child, top] at this
  · obtain ⟨rfl, rfl⟩ := NodeId.child_inj.1 hchild
    rw [hd] at hcount
    exact absurd hlt (Nat.not_lt.2 hcount)

/-- What lies on a way up is a directory. -/
theorem dir?_of_ascends (h : t.Sound) (hl : t.Ascends i l) (hj : j ∈ l) :
    ∃ d, t.dir? j = some d := by
  induction hl with
  | here =>
    obtain ⟨d, hd, _⟩ := h.top_dir
    exact ⟨d, by rw [List.mem_singleton.1 hj, hd]⟩
  | up hd _ _ ih =>
    rcases List.mem_cons.1 hj with rfl | hj
    · exact ⟨_, hd⟩
    · exact ih hj

/-- A way up is no longer than there are nodes. -/
theorem length_le_of_ascends (h : t.Sound) (hl : t.Ascends i l) : l.length ≤ t.nodes.length := by
  have hsubset : l ⊆ t.nodes.map Prod.fst := by
    intro j hj
    obtain ⟨d, hd⟩ := h.dir?_of_ascends hl hj
    have hlookup : t.nodes.lookup j = some (.directory d) := dir?_eq_some_iff.1 hd
    rw [List.lookup_eq_some_iff] at hlookup
    obtain ⟨before, after, hnodes, _⟩ := hlookup
    rw [hnodes]
    simp
  have hle := hl.nodup.length_le_of_subset hsubset
  rwa [List.length_map] at hle

/-- The search upwards finds exactly what lies on the way up, as long as it may
take as many steps as the way has. -/
theorem isAboveWithin_iff (h : t.Sound) (hl : t.Ascends j l) {levels : Nat}
    (hlevels : l.length ≤ levels + 1) : t.isAboveWithin i levels j = true ↔ i ∈ l := by
  induction hl generalizing levels with
  | here =>
    obtain ⟨d, hd, hparent⟩ := h.top_dir
    cases levels with
    | zero => simp [isAboveWithin]
    | succ levels => simp [isAboveWithin, hd, hparent]
  | @up j d l hd hj hl ih =>
    cases levels with
    | zero =>
      have hpos := List.length_pos_of_mem hl.mem_self
      rw [List.length_cons] at hlevels
      omega
    | succ levels =>
      have hne : d.parent ≠ j := by
        intro heq
        exact Ascends.not_mem_of_up hd hj hl (heq ▸ hl.mem_self)
      have ih' := ih (by simpa using hlevels)
      simp [isAboveWithin, hd, hne, ih']

/-- Being above is lying on the way up. -/
theorem isAbove_iff (h : t.Sound) (hl : t.Ascends j l) : t.isAbove i j = true ↔ i ∈ l :=
  h.isAboveWithin_iff hl (Nat.le_succ_of_le (h.length_le_of_ascends hl))

end Sound

/-- The tree that holds nothing but its top is sound. -/
theorem sound_fresh : fresh.Sound := by
  have hdir : ∀ i d, fresh.dir? i = some d → i = top ∧ d = { perm := 0o755, parent := top } := by
    intro i d hd
    have hnode := dir?_eq_some_iff.1 hd
    by_cases h : i = top
    · subst h
      exact ⟨rfl, (Option.some.inj hd).symm⟩
    · simp [node?, fresh, List.lookup_cons, beq_false_of_ne h] at hnode
  refine ⟨⟨_, rfl, rfl⟩, ?_, ?_, ?_, ?_, ?_, ?_⟩
  · intro i d hd
    rw [(hdir i d hd).1]
    exact ⟨[top], .here⟩
  · intro dir d n i hd hentry
    simp [(hdir dir d hd).2] at hentry
  · intro dir d n i s hd hentry
    simp [(hdir dir d hd).2] at hentry
  · intro dir d n m i s hd hentry
    simp [(hdir dir d hd).2] at hentry
  · intro dir d hd
    simp [(hdir dir d hd).2]
  · intro i hi
    by_cases h : i = top
    · exact Or.inl h
    · simp [node?, fresh, List.lookup_cons, beq_false_of_ne h] at hi

end ConfinedFs.Os.Tree
