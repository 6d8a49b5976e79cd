import ConfinedFs.Proofs.Coupling
import ConfinedFs.Proofs.Memory.Apart
import Mathlib.Data.List.GetD
import Mathlib.Data.List.Sort

/-!
Two trees that mirror one another below a place of each. At corresponding places there are
nodes of one kind, and corresponding cells hold the same. Whoever looks at a place below one
base sees what there is below the other, and a change made below both leaves them so.
-/

namespace ConfinedFs.Memory

open ConfinedFs.Path

variable {m n m₀ n₀ : Memory} {b b' k source target : Key} {c c' : CellId}
  {R : CellId → CellId → Prop} {kind : NodeKind} {content : Content}

theorem content_of_length_le (h : m.cells.length ≤ c) : m.content c = {} :=
  List.getD_eq_default m.cells {} h

section Below

/-- The ways down from a place to what is stored below it, in order. -/
def waysDown (m : Memory) (k : Key) : List Key :=
  (m.index.descendants k).map fun e => e.key.drop k.length

theorem children_eq_waysDown (m : Memory) (k : Key) :
    m.children k = ((m.waysDown k).filterMap List.head?).eraseDups := by
  rw [children, waysDown, List.filterMap_map]
  rfl

theorem lt_of_append_lt (k : Key) {r r' : Key} (h : k ++ r < k ++ r') : r < r' := by
  induction k with
  | nil => exact h
  | cons n k ih =>
    rw [List.cons_append, List.cons_append, List.cons_lt_cons_iff] at h
    rcases h with hn | ⟨-, hrest⟩
    · exact absurd hn (Std.Irrefl.irrefl n)
    · exact ih hrest

variable (h : m.WellFormed)

include h

theorem mem_waysDown_iff {r : Key} :
    r ∈ m.waysDown k ↔ r ≠ [] ∧ ∃ d, m.nodeAt (k ++ r) = some d := by
  rw [waysDown, List.mem_map]
  constructor
  · rintro ⟨e, he, rfl⟩
    obtain ⟨hmem, ⟨r, hr⟩, hne⟩ := (Index.mem_descendants_iff h.sorted).1 he
    rw [← hr, List.drop_left, hr]
    refine ⟨?_, h.nodeAt_of_find? (Index.find?_of_mem h.sorted hmem)⟩
    rintro rfl
    rw [List.append_nil] at hr
    exact hne hr.symm
  · rintro ⟨hr, d, hd⟩
    obtain ⟨i, hfind, -⟩ := nodeAt_eq_some_iff.1 hd
    refine ⟨_, (Index.mem_descendants_iff h.sorted).2
      ⟨(Index.find?_eq_some_iff h.sorted).1 hfind, List.prefix_append k r, ?_⟩, List.drop_left⟩
    exact fun heq => hr (List.append_right_eq_self.1 heq)

theorem sorted_waysDown (k : Key) : (m.waysDown k).Pairwise (· < ·) := by
  have hsorted : (m.index.descendants k).Pairwise fun e e' => e.key < e'.key := by
    rw [Index.descendants_eq h.sorted]
    exact List.Pairwise.filter _ h.sorted
  rw [waysDown, List.pairwise_map]
  refine List.Pairwise.imp_of_mem ?_ hsorted
  intro e e' he he' hlt
  obtain ⟨-, ⟨r, hr⟩, -⟩ := (Index.mem_descendants_iff h.sorted).1 he
  obtain ⟨-, ⟨r', hr'⟩, -⟩ := (Index.mem_descendants_iff h.sorted).1 he'
  rw [← hr, ← hr'] at hlt ⊢
  rw [List.drop_left, List.drop_left]
  exact lt_of_append_lt k hlt

omit h in
theorem hasDescendants_iff_waysDown : m.hasDescendants k = true ↔ ∃ r, r ∈ m.waysDown k := by
  rw [hasDescendants, Index.hasDescendants, Bool.not_eq_true', List.isEmpty_eq_false_iff_exists_mem]
  simp only [waysDown, List.mem_map]
  constructor
  · rintro ⟨e, he⟩
    exact ⟨_, e, he, rfl⟩
  · rintro ⟨-, e, he, -⟩
    exact ⟨e, he⟩

end Below

/-- Two nodes of one kind, with cells that correspond. -/
structure Alike (R : CellId → CellId → Prop) (d d' : Node) : Prop where
  kind : d.kind = d'.kind
  cell : R d.cell d'.cell

/-- Below a place of each two trees hold the same, and elsewhere each of them is as it was.
Which cells correspond is laid down once: those that come to be on both sides at once
do. -/
structure Mirror (R : CellId → CellId → Prop) (b b' : Key) (m₀ n₀ m n : Memory) : Prop where
  left : Apart b (fun c => ∃ c', R c c') m₀ m
  right : Apart b' (fun c' => ∃ c, R c c') n₀ n
  unique : ∀ {c c' e e'}, R c c' → R e e' → (c = e ↔ c' = e')
  nodes : ∀ k, k ≠ [] → Option.Rel (Alike R) (m.nodeAt (b ++ k)) (n.nodeAt (b' ++ k))
  contents : ∀ {c c'}, R c c' → m.content c = n.content c'
  /-- Corresponding cells exist on both sides or on neither. -/
  exist : ∀ {c c'}, R c c' → (c < m.cells.length ↔ c' < n.cells.length)
  /-- The cells to come correspond. -/
  next : ∀ i, R (m.cells.length + i) (n.cells.length + i)

namespace Mirror

section Looking

theorem node_cases (h : Mirror R b b' m₀ n₀ m n) (hk : k ≠ []) :
    m.nodeAt (b ++ k) = none ∧ n.nodeAt (b' ++ k) = none ∨
      ∃ kind c c', m.nodeAt (b ++ k) = some ⟨kind, c⟩ ∧ n.nodeAt (b' ++ k) = some ⟨kind, c'⟩ ∧
        R c c' := by
  have hnodes := h.nodes k hk
  generalize m.nodeAt (b ++ k) = x at hnodes ⊢
  generalize n.nodeAt (b' ++ k) = y at hnodes ⊢
  cases hnodes with
  | none => exact .inl ⟨rfl, rfl⟩
  | @some d d' hd =>
    obtain ⟨kind, c⟩ := d
    obtain ⟨kind', c'⟩ := d'
    obtain rfl : kind = kind' := hd.kind
    exact .inr ⟨kind, c, c', rfl, rfl, hd.cell⟩

/-- The bases included, at a place there is nothing on either side, or there are two
directories, or two other nodes. -/
theorem dir_cases (h : Mirror R b b' m₀ n₀ m n) (k : Key) :
    m.nodeAt (b ++ k) = none ∧ n.nodeAt (b' ++ k) = none ∨
      ∃ d d', m.nodeAt (b ++ k) = some d ∧ n.nodeAt (b' ++ k) = some d' ∧ d.isDir = d'.isDir := by
  by_cases hk : k = []
  · obtain ⟨d, hd, hdir⟩ := h.left.base
    obtain ⟨d', hd', hdir'⟩ := h.right.base
    rw [hk, List.append_nil, List.append_nil]
    exact .inr ⟨d, d', hd, hd', hdir.trans hdir'.symm⟩
  · rcases h.node_cases hk with hnone | ⟨kind, c, c', hsome, hsome', -⟩
    · exact .inl hnone
    · exact .inr ⟨_, _, hsome, hsome', rfl⟩

theorem stored_iff (h : Mirror R b b' m₀ n₀ m n) (k : Key) :
    (∃ d, m.nodeAt (b ++ k) = some d) ↔ ∃ d, n.nodeAt (b' ++ k) = some d := by
  rcases h.dir_cases k with ⟨hnone, hnone'⟩ | ⟨d, d', hd, hd', -⟩
  · simp [hnone, hnone']
  · simp [hd, hd']

theorem dir_iff (h : Mirror R b b' m₀ n₀ m n) (k : Key) :
    (∃ d, m.nodeAt (b ++ k) = some d ∧ d.isDir = true) ↔
      ∃ d, n.nodeAt (b' ++ k) = some d ∧ d.isDir = true := by
  rcases h.dir_cases k with ⟨hnone, hnone'⟩ | ⟨d, d', hd, hd', hdir⟩
  · simp [hnone, hnone']
  · simp [hd, hd', hdir]

theorem exists?_eq (h : Mirror R b b' m₀ n₀ m n) (k : Key) :
    m.exists? (b ++ k) = n.exists? (b' ++ k) := by
  rw [Bool.eq_iff_iff, h.left.wellFormed.exists?_iff, h.right.wellFormed.exists?_iff, h.stored_iff k]

theorem isDir_eq (h : Mirror R b b' m₀ n₀ m n) (k : Key) :
    m.isDir (b ++ k) = n.isDir (b' ++ k) := by
  rw [Bool.eq_iff_iff, h.left.wellFormed.isDir_iff, h.right.wellFormed.isDir_iff, h.dir_iff k]

theorem waysDown_eq (h : Mirror R b b' m₀ n₀ m n) (k : Key) :
    m.waysDown (b ++ k) = n.waysDown (b' ++ k) := by
  apply List.Pairwise.eq_of_mem_iff (sorted_waysDown h.left.wellFormed _)
    (sorted_waysDown h.right.wellFormed _)
  intro r
  rw [mem_waysDown_iff h.left.wellFormed, mem_waysDown_iff h.right.wellFormed, List.append_assoc,
    List.append_assoc, h.stored_iff]

theorem hasDescendants_eq (h : Mirror R b b' m₀ n₀ m n) (k : Key) :
    m.hasDescendants (b ++ k) = n.hasDescendants (b' ++ k) := by
  rw [Bool.eq_iff_iff, hasDescendants_iff_waysDown, hasDescendants_iff_waysDown, h.waysDown_eq k]

theorem children_eq (h : Mirror R b b' m₀ n₀ m n) (k : Key) :
    m.children (b ++ k) = n.children (b' ++ k) := by
  rw [children_eq_waysDown, children_eq_waysDown, h.waysDown_eq k]

/-- An entry looks the same from both sides. -/
theorem describe_eq (h : Mirror R b b' m₀ n₀ m n) (hk : k ≠ []) (name : Bytes) :
    m.describe (b ++ k) name = n.describe (b' ++ k) name := by
  unfold describe
  rcases h.node_cases hk with ⟨hnone, hnone'⟩ | ⟨kind, c, c', hsome, hsome', hc⟩
  · simp only [hnone, hnone', h.hasDescendants_eq k]
  · simp only [hsome, hsome', h.contents hc]

/-- A walk down over no links comes as far on both sides. -/
theorem advance_outcomes (h : Mirror R b b' m₀ n₀ m n) (followLast : Bool)
    (jump jump' : List Step → Key → Except FileError Key) (k names : Key) :
    Outcomes (fun j j' => j = b ++ (k ++ names) ∧ j' = b' ++ (k ++ names))
      (m.advance followLast jump (names.map .down) (b ++ k))
      (n.advance followLast jump' (names.map .down) (b' ++ k)) := by
  induction names generalizing k with
  | nil => simp only [List.map_nil, advance, List.append_nil, Outcomes, and_self]
  | cons name names ih =>
    have hon := ih (k ++ [name])
    simp only [List.map_cons, advance]
    rw [List.append_assoc b, List.append_assoc b', List.append_cons k]
    rcases h.node_cases (k := k ++ [name]) (by simp) with
      ⟨hnone, hnone'⟩ | ⟨kind, c, c', hsome, hsome', -⟩
    · rw [hnone, hnone']
      exact hon
    · rw [hsome, hsome']
      cases kind with
      | symlink => exact absurd hsome (h.left.plain _ c)
      | directory => exact hon
      | file =>
        dsimp only
        split
        · exact hon
        · rfl

/-- A path below one base leads to the place that the other path leads to below the other
one, or both fail. -/
theorem resolve_outcomes (h : Mirror R b b' m₀ n₀ m n) (names : Key) (followLast : Bool) :
    Outcomes (fun j j' => j = b ++ names ∧ j' = b' ++ names)
      (m.resolve (ofNames (b ++ names)) followLast)
      (n.resolve (ofNames (b' ++ names)) followLast) := by
  obtain ⟨jump, hleft⟩ :=
    resolve_ofNames_append h.left.wellFormed h.left.base names followLast
  obtain ⟨jump', hright⟩ :=
    resolve_ofNames_append h.right.wellFormed h.right.base names followLast
  have hwalk := h.advance_outcomes followLast jump jump' [] names
  rw [List.append_nil, List.append_nil, List.nil_append] at hwalk
  rw [hleft, hright]
  exact hwalk

end Looking

section Changing

theorem addNode (h : Mirror R b b' m₀ n₀ m n) (hk : k ≠ []) (hkind : kind ≠ .symlink)
    (hwf : (m.addNode (b ++ k) kind content).WellFormed)
    (hwf' : (n.addNode (b' ++ k) kind content).WellFormed) :
    Mirror R b b' m₀ n₀ (m.addNode (b ++ k) kind content) (n.addNode (b' ++ k) kind content) := by
  have hnew : R m.cells.length n.cells.length := h.next 0
  have hgrows := (Grows.refl h.left.wellFormed.slots).addNode (b ++ k) kind content
  have hgrows' := (Grows.refl h.right.wellFormed.slots).addNode (b' ++ k) kind content
  have hlength : ∀ {m : Memory} {k : Key},
      (m.addNode k kind content).cells.length = m.cells.length + 1 := List.length_append
  refine ⟨h.left.addNode hk hkind hwf, h.right.addNode hk hkind hwf', h.unique, ?_, ?_, ?_, ?_⟩
  · intro j hj
    rw [h.left.wellFormed.nodeAt_addNode, h.right.wellFormed.nodeAt_addNode]
    simp only [List.append_right_inj]
    split
    · exact .some ⟨rfl, hnew⟩
    · exact h.nodes j hj
  · intro c c' hc
    rcases Nat.lt_trichotomy c m.cells.length with hlt | heq | hgt
    · rw [hgrows.content_eq hlt, hgrows'.content_eq ((h.exist hc).1 hlt), h.contents hc]
    · have heq' := (h.unique hc hnew).1 heq
      rw [heq, heq', content_addNode, content_addNode]
    · have hgt' : n.cells.length < c' := by
        have hnot := mt (h.exist hc).2 (Nat.lt_asymm hgt)
        have hne := mt (h.unique hc hnew).2 (Nat.ne_of_gt hgt)
        exact Nat.lt_of_le_of_ne (Nat.le_of_not_lt hnot) (Ne.symm hne)
      rw [content_of_length_le (Nat.le_trans (Nat.le_of_eq hlength) hgt),
        content_of_length_le (Nat.le_trans (Nat.le_of_eq hlength) hgt')]
  · intro c c' hc
    rw [hlength, hlength, Nat.lt_succ_iff_lt_or_eq, Nat.lt_succ_iff_lt_or_eq]
    exact or_congr (h.exist hc) (h.unique hc hnew)
  · intro i
    have hnext := h.next (1 + i)
    rwa [← Nat.add_assoc, ← Nat.add_assoc, ← hlength (m := m) (k := b ++ k),
      ← hlength (m := n) (k := b' ++ k)] at hnext

theorem prune (h : Mirror R b b' m₀ n₀ m n) (hk : k ≠ []) :
    Mirror R b b' m₀ n₀ (m.prune (b ++ k)) (n.prune (b' ++ k)) := by
  have hcells : ∀ (m : Memory) (k : Key), (m.prune k).cells = m.cells :=
    fun m k => cells_foldl_dropEntry m _
  have hcontent : ∀ (m : Memory) (k : Key) (c : CellId), (m.prune k).content c = m.content c := by
    intro m k c
    rw [Memory.content, hcells, ← Memory.content]
  refine ⟨h.left.prune hk, h.right.prune hk, h.unique, ?_, ?_, ?_, ?_⟩
  · intro j hj
    rw [h.left.wellFormed.nodeAt_prune, h.right.wellFormed.nodeAt_prune]
    simp only [List.prefix_append_right_inj]
    split
    · exact .none
    · exact h.nodes j hj
  · intro c c' hc
    rw [hcontent, hcontent, h.contents hc]
  · intro c c' hc
    rw [hcells, hcells]
    exact h.exist hc
  · intro i
    rw [hcells, hcells]
    exact h.next i

theorem transplant (h : Mirror R b b' m₀ n₀ m n) (hsource : source ≠ []) (htarget : target ≠ [])
    (hfree : ∀ j, b ++ target <+: j → m.index.find? j = none)
    (hfree' : ∀ j, b' ++ target <+: j → n.index.find? j = none)
    (hwf : (m.transplant (b ++ source) (b ++ target)).WellFormed)
    (hwf' : (n.transplant (b' ++ source) (b' ++ target)).WellFormed) :
    Mirror R b b' m₀ n₀ (m.transplant (b ++ source) (b ++ target))
      (n.transplant (b' ++ source) (b' ++ target)) := by
  refine ⟨h.left.transplant hsource htarget hfree hwf,
    h.right.transplant hsource htarget hfree' hwf', h.unique, ?_, h.contents, h.exist, h.next⟩
  intro j hj
  have hdrop : ∀ b : Key, (b ++ j).drop (b ++ target).length = j.drop target.length := by
    intro b
    rw [List.length_append, List.drop_length_add_append]
  rw [WellFormed.nodeAt_transplant hfree h.left.wellFormed,
    WellFormed.nodeAt_transplant hfree' h.right.wellFormed]
  simp only [List.prefix_append_right_inj, hdrop, List.append_assoc]
  split
  · exact h.nodes _ fun hnil => hsource (List.append_eq_nil_iff.1 hnil).1
  · split
    · exact .none
    · exact h.nodes j hj

theorem modifyCell (h : Mirror R b b' m₀ n₀ m n) (hc : R c c') (f : Content → Content) :
    Mirror R b b' m₀ n₀ (m.modifyCell c f) (n.modifyCell c' f) := by
  have hlength : ∀ {m : Memory} {c : CellId}, (m.modifyCell c f).cells.length = m.cells.length :=
    List.length_modify ..
  refine ⟨h.left.modifyCell ⟨c', hc⟩ f, h.right.modifyCell ⟨c, hc⟩ f, h.unique, h.nodes, ?_, ?_, ?_⟩
  · intro e e' he
    by_cases heq : e = c
    · obtain rfl := heq
      obtain rfl := (h.unique he hc).1 rfl
      by_cases hlt : e < m.cells.length
      · rw [content_modifyCell_self hlt, content_modifyCell_self ((h.exist hc).1 hlt), h.contents hc]
      · have hlt' := mt (h.exist hc).2 hlt
        rw [content_of_length_le (hlength.trans_le (Nat.le_of_not_lt hlt)),
          content_of_length_le (hlength.trans_le (Nat.le_of_not_lt hlt'))]
    · have hne' := mt (h.unique he hc).2 heq
      rw [content_modifyCell_of_ne heq, content_modifyCell_of_ne hne', h.contents he]
  · intro e e' he
    rw [hlength, hlength]
    exact h.exist he
  · intro i
    rw [hlength, hlength]
    exact h.next i

end Changing

end Mirror

end ConfinedFs.Memory
