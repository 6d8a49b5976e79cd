import ConfinedFs.Proofs.Memory.Mirror

/-!
The tree below a directory as a tree of its own. What is below the directory stands at the
same places below the top of a tree that holds nothing else, and the two mirror one another
from then on.
-/

namespace ConfinedFs.Memory

variable {m n : Memory} {b k : Key} {c : CellId} {kind : NodeKind} {content : Content}

/-- What is stored at a place: of what kind it is, and what it holds. -/
def entryAt (m : Memory) (k : Key) : Option (NodeKind × Content) :=
  (m.nodeAt k).map fun d => (d.kind, m.content d.cell)

theorem entryAt_eq_some_iff :
    m.entryAt k = some (kind, content) ↔
      ∃ c, m.nodeAt k = some ⟨kind, c⟩ ∧ m.content c = content := by
  rw [entryAt, Option.map_eq_some_iff]
  constructor
  · rintro ⟨⟨kind, c⟩, hnode, hentry⟩
    cases hentry
    exact ⟨c, hnode, rfl⟩
  · rintro ⟨c, hnode, rfl⟩
    exact ⟨_, hnode, rfl⟩

theorem entryAt_eq_none_iff : m.entryAt k = none ↔ m.nodeAt k = none := Option.map_eq_none_iff

theorem entryAt_addNode (h : m.WellFormed) (k : Key) (kind : NodeKind) (content : Content)
    (j : Key) :
    (m.addNode k kind content).entryAt j =
      if j = k then some (kind, content) else m.entryAt j := by
  have hgrows := (Grows.refl h.slots).addNode k kind content
  unfold entryAt
  rw [h.nodeAt_addNode]
  split
  · rw [Option.map_some, content_addNode]
  · apply Option.map_congr
    intro d hd
    rw [hgrows.content_eq (h.cell_lt_of_nodeAt hd)]

/-- Below the two bases the trees hold the same. -/
theorem Mirror.entryAt_eq {R : CellId → CellId → Prop} {b' : Key} {m₀ n₀ : Memory}
    (h : Mirror R b b' m₀ n₀ m n) (hk : k ≠ []) : m.entryAt (b ++ k) = n.entryAt (b' ++ k) := by
  unfold entryAt
  rcases h.node_cases hk with ⟨hnone, hnone'⟩ | ⟨kind, c, c', hsome, hsome', hc⟩
  · rw [hnone, hnone', Option.map_none, Option.map_none]
  · rw [hsome, hsome', Option.map_some, Option.map_some, h.contents hc]

/-- What is not below the base has stayed as it was. -/
theorem Apart.entryAt_eq {C : CellId → Prop} {m₀ : Memory} (h : Apart b C m₀ m)
    (hk : k.isBelow b = false) : m.entryAt k = m₀.entryAt k := by
  obtain ⟨hnode, hcontent⟩ := h.outside k hk
  unfold entryAt
  rw [hnode]
  apply Option.map_congr
  intro d hd
  rw [hcontent d hd]

section Copying

/-- The tree with one more entry, if there is one. -/
def put (m : Memory) (k : Key) : Option (NodeKind × Content) → Memory
  | some (kind, content) => m.addNode k kind content
  | none => m

/-- A tree with nothing but a top that holds what a place of another tree holds. -/
def topOf (m : Memory) (b : Key) : Memory :=
  fresh.modifyCell 0 fun _ => (m.entryAt b).elim {} Prod.snd

/-- The tree below a place, with that place as its top. -/
def rerooted (m : Memory) (b : Key) : Memory :=
  (m.waysDown b).foldl (fun n k => n.put k (m.entryAt (b ++ k))) (m.topOf b)

/-- A tree into which some of the places below another one have been copied. -/
structure Copied (m : Memory) (b : Key) (done : List Key) (n : Memory) : Prop where
  wellFormed : n.WellFormed
  here : ∀ k, k = [] ∨ k ∈ done → n.entryAt k = m.entryAt (b ++ k)
  other : ∀ k, k ≠ [] → k ∉ done → n.entryAt k = none

theorem copied_topOf (hbase : ∃ d, m.nodeAt b = some d ∧ d.isDir = true) :
    Copied m b [] (m.topOf b) := by
  obtain ⟨⟨kind, c⟩, hd, hdir⟩ := hbase
  obtain rfl : kind = .directory := by simpa [Node.isDir] using hdir
  have hentry : m.entryAt b = some (.directory, m.content c) :=
    entryAt_eq_some_iff.2 ⟨c, hd, rfl⟩
  refine ⟨wellFormed_fresh.modifyCell 0 _, ?_, ?_⟩
  · rintro k (rfl | hk)
    · rw [List.append_nil, topOf, hentry]
      rfl
    · cases hk
  · intro k hk _
    rw [entryAt_eq_none_iff]
    cases k with
    | nil => exact absurd rfl hk
    | cons x k => rfl

/-- What comes next has the places above it copied: they come before it in order. -/
theorem Copied.parented {done todo : List Key} {r : Key} (h : Copied m b done n)
    (hm : m.WellFormed) (hways : m.waysDown b = done ++ r :: todo)
    (hsorted : (r :: todo).Pairwise (· < ·)) : n.Parented r := by
  obtain ⟨-, d, hd⟩ := (mem_waysDown_iff hm).1 (hways ▸ by simp : r ∈ m.waysDown b)
  intro a ha hne
  by_cases hnil : a = []
  · exact hnil ▸ h.wellFormed.nodeAt_top
  obtain ⟨⟨kind, c⟩, hd', hdir⟩ := hm.parented_of_nodeAt hd (b ++ a)
    ((List.prefix_append_right_inj b).2 ha) fun heq => hne (List.append_cancel_left heq)
  have hway : a ∈ m.waysDown b := (mem_waysDown_iff hm).2 ⟨hnil, _, hd'⟩
  have hdone : a ∈ done := by
    rw [hways] at hway
    rcases List.mem_append.1 hway with hmem | hmem
    · exact hmem
    · rcases List.mem_cons.1 hmem with heq | hmem
      · exact absurd heq hne
      · exact absurd ((List.pairwise_cons.1 hsorted).1 a hmem) (List.not_lt.2 ha.le)
  have hentry : n.entryAt a = some (kind, m.content c) := by
    rw [h.here a (.inr hdone)]
    exact entryAt_eq_some_iff.2 ⟨c, hd', rfl⟩
  obtain ⟨c', hnode, -⟩ := entryAt_eq_some_iff.1 hentry
  exact ⟨_, hnode, hdir⟩

theorem Copied.put {done todo : List Key} {r : Key} (h : Copied m b done n) (hm : m.WellFormed)
    (hways : m.waysDown b = done ++ r :: todo) :
    Copied m b (done ++ [r]) (n.put r (m.entryAt (b ++ r))) := by
  obtain ⟨hr, ⟨kind, c⟩, hd⟩ := (mem_waysDown_iff hm).1 (hways ▸ by simp : r ∈ m.waysDown b)
  have hsorted := sorted_waysDown hm b
  rw [hways, List.pairwise_append] at hsorted
  obtain ⟨-, hrest, hbefore⟩ := hsorted
  have hnew : r ∉ done := fun hmem => List.lt_irrefl r (hbefore r hmem r (List.mem_cons_self ..))
  have hfree : n.nodeAt r = none := entryAt_eq_none_iff.1 (h.other r hr hnew)
  have habove := h.parented hm hways hrest
  have hentry : m.entryAt (b ++ r) = some (kind, m.content c) := entryAt_eq_some_iff.2 ⟨c, hd, rfl⟩
  have hadded := entryAt_addNode h.wellFormed r kind (m.content c)
  rw [hentry]
  refine ⟨h.wellFormed.addNode hfree habove kind _, ?_, ?_⟩
  · intro k hk
    rw [Memory.put, hadded]
    split
    · next heq => rw [heq, hentry]
    · next hne =>
      apply h.here k
      simpa [hne] using hk
  · intro k hk hnot
    rw [List.mem_append, List.mem_singleton, not_or] at hnot
    rw [Memory.put, hadded, if_neg hnot.2]
    exact h.other k hk hnot.1

theorem copied_foldl (hm : m.WellFormed) {done todo : List Key} (h : Copied m b done n)
    (hways : m.waysDown b = done ++ todo) :
    Copied m b (m.waysDown b) (todo.foldl (fun n k => n.put k (m.entryAt (b ++ k))) n) := by
  induction todo generalizing done n with
  | nil =>
    rw [List.append_nil] at hways
    exact hways ▸ h
  | cons r todo ih =>
    refine ih (h.put hm hways) ?_
    rw [hways, List.append_assoc, List.singleton_append]

variable (hm : m.WellFormed) (hbase : ∃ d, m.nodeAt b = some d ∧ d.isDir = true)

include hm hbase

theorem copied_rerooted : Copied m b (m.waysDown b) (m.rerooted b) :=
  copied_foldl hm (copied_topOf hbase) rfl

theorem wellFormed_rerooted : (m.rerooted b).WellFormed := (copied_rerooted hm hbase).wellFormed

theorem entryAt_rerooted (k : Key) : (m.rerooted b).entryAt k = m.entryAt (b ++ k) := by
  have hcopied := copied_rerooted hm hbase
  by_cases hk : k = [] ∨ k ∈ m.waysDown b
  · exact hcopied.here k hk
  · rw [not_or] at hk
    rw [hcopied.other k hk.1 hk.2, eq_comm, entryAt_eq_none_iff]
    cases hnode : m.nodeAt (b ++ k) with
    | none => rfl
    | some d => exact absurd ((mem_waysDown_iff hm).2 ⟨hk.1, d, hnode⟩) hk.2

end Copying

section Mirroring

/-- Two cells of trees that have the same entries below a place and below the top: those of
one entry correspond, and so do those that are yet to come. -/
inductive Corresponds (m n : Memory) (b : Key) : CellId → CellId → Prop where
  | stored {k : Key} {kind : NodeKind} {c c' : CellId} (hk : k ≠ [])
    (hleft : m.nodeAt (b ++ k) = some ⟨kind, c⟩) (hright : n.nodeAt k = some ⟨kind, c'⟩) :
    Corresponds m n b c c'
  | coming (i : Nat) : Corresponds m n b (m.cells.length + i) (n.cells.length + i)

variable (hm : m.WellFormed) (hn : n.WellFormed)

include hm hn

theorem Corresponds.unique {c c' e e' : CellId} (hc : Corresponds m n b c c')
    (he : Corresponds m n b e e') : c = e ↔ c' = e' := by
  have hnew : ∀ {c length i : Nat}, c < length → c ≠ length + i := by omega
  cases hc with
  | stored hk hleft hright =>
    cases he with
    | stored hj hleft' hright' =>
      constructor
      · intro heq
        have hkey := hm.key_unique hleft hleft' heq
        rw [List.append_cancel_left hkey, hright'] at hright
        exact congrArg Node.cell (Option.some.inj hright).symm
      · intro heq
        rw [hn.key_unique hright hright' heq, hleft'] at hleft
        exact congrArg Node.cell (Option.some.inj hleft).symm
    | coming i =>
      exact iff_of_false (hnew (hm.cell_lt_of_nodeAt hleft)) (hnew (hn.cell_lt_of_nodeAt hright))
  | coming i =>
    cases he with
    | stored hk hleft hright =>
      exact iff_of_false (hnew (hm.cell_lt_of_nodeAt hleft)).symm
        (hnew (hn.cell_lt_of_nodeAt hright)).symm
    | coming j => rw [Nat.add_left_cancel_iff, Nat.add_left_cancel_iff]

/-- A cell that corresponds to another one is that of something below the place, or is yet
to come. -/
theorem Corresponds.isBelow {c c' : CellId} {d : Node} (hc : Corresponds m n b c c') :
    (m.nodeAt k = some d → d.cell = c → k.isBelow b = true) ∧
      (n.nodeAt k = some d → d.cell = c' → k.isBelow [] = true) := by
  have hnew : ∀ {c length i : Nat}, c < length → c ≠ length + i := by omega
  cases hc with
  | @stored j kind _ _ hj hleft hright =>
    refine ⟨fun hd heq => ?_, fun hd heq => ?_⟩
    · rw [hm.key_unique hd hleft heq]
      exact (Key.isBelow_append b j).2 hj
    · rw [hn.key_unique hd hright heq]
      exact (Key.isBelow_append [] j).2 hj
  | coming i =>
    exact ⟨fun hd heq => absurd heq (hnew (hm.cell_lt_of_nodeAt hd)),
      fun hd heq => absurd heq (hnew (hn.cell_lt_of_nodeAt hd))⟩

omit hm in
/-- A tree has no links if all its entries are those of a tree that has none. -/
theorem plain_of_entries (hlinks : m.Plain)
    (hentries : ∀ k, k ≠ [] → n.entryAt k = m.entryAt (b ++ k)) : n.Plain := by
  intro k c hnode
  by_cases hk : k = []
  · obtain ⟨d, hd, hdir⟩ := hn.nodeAt_top
    rw [hk, hd] at hnode
    cases hnode
    cases hdir
  · have hentry := (hentries k hk).symm.trans (entryAt_eq_some_iff.2 ⟨c, hnode, rfl⟩)
    obtain ⟨c', hnode', -⟩ := entryAt_eq_some_iff.1 hentry
    exact hlinks _ c' hnode'

/-- A tree and another one that has the same entries below its top mirror one another. -/
theorem mirror_of_entries (hlinks : m.Plain)
    (hbase : ∃ d, m.nodeAt b = some d ∧ d.isDir = true)
    (hentries : ∀ k, k ≠ [] → n.entryAt k = m.entryAt (b ++ k)) :
    Mirror (Corresponds m n b) b [] m n m n := by
  have hplain := plain_of_entries hn hlinks hentries
  refine ⟨⟨hm, hlinks, hbase, ?_, fun _ _ => ⟨rfl, fun _ _ => rfl⟩⟩,
    ⟨hn, hplain, hn.nodeAt_top, ?_, fun _ _ => ⟨rfl, fun _ _ => rfl⟩⟩,
    Corresponds.unique hm hn, ?_, ?_, ?_, .coming⟩
  · rintro k d hd ⟨c', hc⟩
    exact (hc.isBelow hm hn).1 hd rfl
  · rintro k d hd ⟨c, hc⟩
    exact (hc.isBelow hm hn).2 hd rfl
  · intro k hk
    have hentry := hentries k hk
    cases hright : n.nodeAt k with
    | none =>
      rw [entryAt_eq_none_iff.2 hright, eq_comm, entryAt_eq_none_iff] at hentry
      rw [hentry, List.nil_append, hright]
      exact .none
    | some d' =>
      rw [entryAt_eq_some_iff.2 ⟨d'.cell, hright, rfl⟩, eq_comm, entryAt_eq_some_iff] at hentry
      obtain ⟨c, hleft, -⟩ := hentry
      rw [hleft, List.nil_append, hright]
      exact .some ⟨rfl, .stored hk hleft hright⟩
  · intro c c' hc
    cases hc with
    | stored hk hleft hright =>
      have hentry := hentries _ hk
      rw [entryAt, entryAt, hleft, hright] at hentry
      exact (congrArg Prod.snd (Option.some.inj hentry)).symm
    | coming i =>
      rw [content_of_length_le (Nat.le_add_right _ i), content_of_length_le (Nat.le_add_right _ i)]
  · intro c c' hc
    cases hc with
    | stored hk hleft hright =>
      exact iff_of_true (hm.cell_lt_of_nodeAt hleft) (hn.cell_lt_of_nodeAt hright)
    | coming i =>
      exact iff_of_false (Nat.not_lt.2 (Nat.le_add_right _ i)) (Nat.not_lt.2 (Nat.le_add_right _ i))

end Mirroring

end ConfinedFs.Memory
