import ConfinedFs.Proofs.Memory.Growing
import ConfinedFs.Proofs.Path.Names
import ConfinedFs.Proofs.Path.Steps

/-!
A tree in memory without links, of which only what lies below a base is touched. A path
leads to the place that its names spell, or fails at a file on the way.
-/

namespace ConfinedFs

namespace Key

variable {b k : Key}

theorem isBelow_append (b k : Key) : (b ++ k).isBelow b = true ↔ k ≠ [] := by
  rw [isBelow_iff, and_iff_right (List.prefix_append b k), ne_eq, List.append_right_eq_self]

/-- What starts with the names of a place below another one is below that one. -/
theorem isBelow_of_prefix {j : Key} (hk : k ≠ []) (hj : b ++ k <+: j) : j.isBelow b = true := by
  obtain ⟨r, rfl⟩ := hj
  rw [List.append_assoc, isBelow_append]
  exact fun hnil => hk (List.append_eq_nil_iff.1 hnil).1

theorem parent_append (b : Key) (hk : k ≠ []) : (b ++ k).parent = b ++ k.parent :=
  List.dropLast_append_of_ne_nil hk

end Key

namespace Memory

open ConfinedFs.Path

variable {m m' m₀ : Memory} {b j k source target names : Key} {c : CellId} {C : CellId → Prop}

/-- A tree that holds no links. -/
def Plain (m : Memory) : Prop := ∀ k c, m.nodeAt k ≠ some ⟨.symlink, c⟩

theorem plain_of_slots (h : ∀ x ∈ m.nodes.slots, x.all fun n => n.kind ≠ .symlink) : m.Plain := by
  intro k c hnode
  obtain ⟨i, _, hi⟩ := nodeAt_eq_some_iff.1 hnode
  have hmem := List.mem_of_getElem? (Option.join_eq_some_iff.1 hi)
  exact absurd (h _ hmem) (by simp)

theorem plain_fresh : fresh.Plain := plain_of_slots (by decide)

section Walk

variable {followLast : Bool} {jump : List Step → Key → Except FileError Key}

/-- A walk passes through directories. -/
theorem advance_dirs {rest : List Step}
    (hdirs : ∀ a, a <+: names → a ≠ [] → ∃ d, m.nodeAt (k ++ a) = some d ∧ d.isDir = true) :
    m.advance followLast jump (names.map .down ++ rest) k =
      m.advance followLast jump rest (k ++ names) := by
  induction names generalizing k with
  | nil => rw [List.map_nil, List.nil_append, List.append_nil]
  | cons n names ih =>
    have hsplit : ∀ a, k ++ n :: a = k ++ [n] ++ a := by simp
    obtain ⟨⟨kind, c⟩, hnode, hdir⟩ :=
      hdirs [n] (List.cons_prefix_cons.2 ⟨rfl, List.nil_prefix⟩) (List.cons_ne_nil _ _)
    obtain rfl : kind = .directory := by simpa [Node.isDir] using hdir
    rw [List.map_cons, List.cons_append, advance, hnode, hsplit names]
    refine ih fun a ha _ => ?_
    have hbelow := hdirs (n :: a) (List.cons_prefix_cons.2 ⟨rfl, ha⟩) (List.cons_ne_nil _ _)
    rwa [hsplit] at hbelow

/-- The way to a directory is over directories. -/
theorem resolve_ofNames_append (h : m.WellFormed)
    (hbase : ∃ d, m.nodeAt b = some d ∧ d.isDir = true) (names : Key) (followLast : Bool) :
    ∃ jump, m.resolve (ofNames (b ++ names)) followLast =
      m.advance followLast jump (names.map .down) b := by
  have hdirs : ∀ a, a <+: b → a ≠ [] → ∃ d, m.nodeAt ([] ++ a) = some d ∧ d.isDir = true := by
    exact fun a ha _ => h.dir_of_prefix hbase ha
  refine ⟨m.resolveWithin followLast 39, ?_⟩
  rw [resolve, steps_ofNames, List.map_append]
  exact advance_dirs hdirs

end Walk

/-- What is not below the base is as it was, and so are the cells of what is there, which
are not among those that may change. -/
structure Apart (b : Key) (C : CellId → Prop) (m₀ m : Memory) : Prop where
  wellFormed : m.WellFormed
  plain : m.Plain
  base : ∃ d, m.nodeAt b = some d ∧ d.isDir = true
  cells : ∀ k d, m.nodeAt k = some d → C d.cell → k.isBelow b = true
  outside : ∀ k, k.isBelow b = false → m.nodeAt k = m₀.nodeAt k ∧
    ∀ d, m₀.nodeAt k = some d → m.content d.cell = m₀.content d.cell

namespace Apart

/-- The base is not free. -/
theorem ne_nil (h : Apart b C m₀ m) (hfree : m.nodeAt (b ++ k) = none) : k ≠ [] := by
  rintro rfl
  obtain ⟨d, hd, -⟩ := h.base
  rw [List.append_nil, hd] at hfree
  cases hfree

/-- A change that leaves alone what is not below the base. Nodes that come to be below the
base may be new ones, and others may have been moved there. -/
theorem change (h : Apart b C m₀ m) (hwf : m'.WellFormed)
    (hnodes : ∀ k, k.isBelow b = false → m'.nodeAt k = m.nodeAt k)
    (hcontents : ∀ k d, k.isBelow b = false → m.nodeAt k = some d →
      m'.content d.cell = m.content d.cell)
    (hfrom : ∀ k d, m'.nodeAt k = some d →
      (∃ j, m.nodeAt j = some d ∧ (j.isBelow b = true → k.isBelow b = true)) ∨
        d.kind ≠ .symlink ∧ k.isBelow b = true) : Apart b C m₀ m' := by
  refine ⟨hwf, ?_, ?_, ?_, ?_⟩
  · intro k c hnode
    rcases hfrom k _ hnode with ⟨j, hj, -⟩ | ⟨hkind, -⟩
    · exact h.plain j c hj
    · exact hkind rfl
  · obtain ⟨d, hd, hdir⟩ := h.base
    have hself : Key.isBelow b b = false := by
      rw [Bool.eq_false_iff, ne_eq, Key.isBelow_iff]
      exact fun hboth => hboth.2 rfl
    exact ⟨d, (hnodes b hself).trans hd, hdir⟩
  · intro k d hnode hcell
    rcases hfrom k d hnode with ⟨j, hj, hmoved⟩ | ⟨-, hbelow⟩
    · exact hmoved (h.cells j d hj hcell)
    · exact hbelow
  · intro k hk
    obtain ⟨hsame, hcell⟩ := h.outside k hk
    refine ⟨(hnodes k hk).trans hsame, fun d hd => ?_⟩
    rw [hcontents k d hk (hsame.trans hd), hcell d hd]

theorem addNode (h : Apart b C m₀ m) (hk : k ≠ []) {kind : NodeKind} (hkind : kind ≠ .symlink)
    {content : Content} (hwf : (m.addNode (b ++ k) kind content).WellFormed) :
    Apart b C m₀ (m.addNode (b ++ k) kind content) := by
  have hbelow := (Key.isBelow_append b k).2 hk
  have hnodeAt := h.wellFormed.nodeAt_addNode (b ++ k) kind content
  have hgrows := (Grows.refl h.wellFormed.slots).addNode (b ++ k) kind content
  refine h.change hwf ?_ ?_ ?_
  · intro j hj
    rw [hnodeAt, if_neg]
    rintro rfl
    rw [hbelow] at hj
    cases hj
  · intro j d _ hd
    exact hgrows.content_eq (h.wellFormed.cell_lt_of_nodeAt hd)
  · intro j d hd
    rw [hnodeAt] at hd
    split at hd
    · next heq =>
      cases hd
      exact .inr ⟨hkind, heq ▸ hbelow⟩
    · exact .inl ⟨j, hd, id⟩

theorem prune (h : Apart b C m₀ m) (hk : k ≠ []) : Apart b C m₀ (m.prune (b ++ k)) := by
  have hnodeAt := h.wellFormed.nodeAt_prune (b ++ k)
  have hne : b ++ k ≠ [] := fun hnil => hk (List.append_eq_nil_iff.1 hnil).2
  have hgrows := (Grows.refl h.wellFormed.slots).prune (b ++ k)
  refine h.change (h.wellFormed.prune hne) ?_ ?_ ?_
  · intro j hj
    rw [hnodeAt, if_neg]
    intro hstarts
    rw [Key.isBelow_of_prefix hk hstarts] at hj
    cases hj
  · intro j d _ hd
    exact hgrows.content_eq (h.wellFormed.cell_lt_of_nodeAt hd)
  · intro j d hd
    rw [hnodeAt] at hd
    split at hd
    · cases hd
    · exact .inl ⟨j, hd, id⟩

theorem transplant (h : Apart b C m₀ m) (hsource : source ≠ []) (htarget : target ≠ [])
    (hfree : ∀ j, b ++ target <+: j → m.index.find? j = none)
    (hwf : (m.transplant (b ++ source) (b ++ target)).WellFormed) :
    Apart b C m₀ (m.transplant (b ++ source) (b ++ target)) := by
  have hbelow : ∀ {k j : Key}, k ≠ [] → b ++ k <+: j → ¬ j.isBelow b = false := by
    intro k j hk hj hnot
    rw [Key.isBelow_of_prefix hk hj] at hnot
    cases hnot
  refine h.change hwf ?_ (fun _ _ _ _ => rfl) ?_
  · intro j hj
    rw [WellFormed.nodeAt_transplant hfree h.wellFormed, if_neg fun hp => hbelow htarget hp hj,
      if_neg fun hp => hbelow hsource hp hj]
  · intro j d hd
    rw [WellFormed.nodeAt_transplant hfree h.wellFormed] at hd
    split at hd
    · next hstarts => exact .inl ⟨_, hd, fun _ => Key.isBelow_of_prefix htarget hstarts⟩
    · split at hd
      · cases hd
      · exact .inl ⟨j, hd, id⟩

theorem modifyCell (h : Apart b C m₀ m) (hc : C c) (f : Content → Content) :
    Apart b C m₀ (m.modifyCell c f) := by
  refine h.change (h.wellFormed.modifyCell c f) (fun _ _ => rfl) ?_ fun j d hd => .inl ⟨j, hd, id⟩
  intro k d hk hd
  apply content_modifyCell_of_ne
  rintro rfl
  rw [h.cells k d hd hc] at hk
  cases hk

end Apart

end Memory

end ConfinedFs
