import ConfinedFs.Memory.Change
import ConfinedFs.Proofs.Memory.IndexOrder

/-!
What is found in the index and in the slots after a subtree has been dropped or
moved.
-/

namespace ConfinedFs

namespace Index

variable {x : Index} {j k : Key} {l : List Entry}

theorem sorted_foldl_erase (h : x.Sorted) (l : List Entry) :
    (l.foldl (fun x e => x.erase e.key) x).Sorted := by
  induction l generalizing x with
  | nil => exact h
  | cons e l ih => exact ih (sorted_erase h e.key)

theorem find?_foldl_erase (x : Index) (l : List Entry) (j : Key) :
    (l.foldl (fun x e => x.erase e.key) x).find? j =
      if j ∈ l.map (·.key) then none else x.find? j := by
  induction l generalizing x with
  | nil => rw [List.map_nil, if_neg List.not_mem_nil]; rfl
  | cons e l ih =>
    rw [List.foldl_cons, ih, find?_erase, List.map_cons]
    by_cases hj : j = e.key
    · simp [hj]
    · simp [hj]

theorem sorted_foldl_insert (h : x.Sorted) (f : Entry → Key) (l : List Entry) :
    (l.foldl (fun x e => x.insert (f e) e.number) x).Sorted := by
  induction l generalizing x with
  | nil => exact h
  | cons e l ih => exact ih (sorted_insert h (f e) e.number)

theorem find?_foldl_insert_of_forall_ne {f : Entry → Key} (h : ∀ e ∈ l, f e ≠ j) (x : Index) :
    (l.foldl (fun x e => x.insert (f e) e.number) x).find? j = x.find? j := by
  induction l generalizing x with
  | nil => rfl
  | cons e l ih =>
    have hne := h e (List.mem_cons_self ..)
    rw [List.foldl_cons, ih fun e' he' => h e' (List.mem_cons_of_mem _ he'), find?_insert,
      if_neg hne.symm]

/-- Of several entries that are put at one place the numbers have to agree. -/
theorem find?_foldl_insert {f : Entry → Key} {i : Nat} (h : ∃ e ∈ l, f e = j)
    (hagree : ∀ e ∈ l, f e = j → e.number = i) (x : Index) :
    (l.foldl (fun x e => x.insert (f e) e.number) x).find? j = some i := by
  induction l generalizing x with
  | nil =>
    obtain ⟨e, he, _⟩ := h
    cases he
  | cons a l ih =>
    rw [List.foldl_cons]
    by_cases hlater : ∃ e ∈ l, f e = j
    · exact ih hlater (fun e he => hagree e (List.mem_cons_of_mem _ he)) _
    · have hnone : ∀ e ∈ l, f e ≠ j := fun e he hj => hlater ⟨e, he, hj⟩
      obtain ⟨e, he, hj⟩ := h
      have ha : e = a := by
        rcases List.mem_cons.1 he with heq | hmem
        · exact heq
        · exact absurd hj (hnone e hmem)
      subst ha
      rw [find?_foldl_insert_of_forall_ne hnone, find?_insert, if_pos hj.symm,
        hagree e (List.mem_cons_self ..) hj]

end Index

namespace Memory

open ConfinedFs.Index (Entry)

variable {m : Memory} {j k source target : Key} {i : Nat}

section DropEntries

variable (m) (l : List Entry)

theorem index_foldl_dropEntry :
    (l.foldl dropEntry m).index = l.foldl (fun x e => x.erase e.key) m.index := by
  induction l generalizing m with
  | nil => rfl
  | cons e l ih => exact ih (m.dropEntry e)

theorem cells_foldl_dropEntry : (l.foldl dropEntry m).cells = m.cells := by
  induction l generalizing m with
  | nil => rfl
  | cons e l ih => exact ih (m.dropEntry e)

theorem get?_foldl_dropEntry (i : Nat) :
    (l.foldl dropEntry m).nodes.get? i =
      if i ∈ l.map (·.number) then none else m.nodes.get? i := by
  induction l generalizing m with
  | nil => rw [List.map_nil, if_neg List.not_mem_nil]; rfl
  | cons e l ih =>
    rw [List.foldl_cons, ih, dropEntry, SlotTable.get?_erase, List.map_cons]
    by_cases hi : i = e.number
    · simp [hi]
    · simp [hi]

theorem slots_foldl_dropEntry (h : m.nodes.WellFormed) : (l.foldl dropEntry m).nodes.WellFormed := by
  induction l generalizing m with
  | nil => exact h
  | cons e l ih => exact ih (m.dropEntry e) (h.erase e.number)

end DropEntries

theorem mem_keys_subtree_iff {x : Index} (h : x.Sorted) :
    j ∈ (x.subtree k).map (·.key) ↔ k <+: j ∧ x.contains j = true := by
  rw [List.mem_map]
  constructor
  · rintro ⟨e, he, rfl⟩
    obtain ⟨hmem, hstarts⟩ := (Index.mem_subtree_iff h).1 he
    refine ⟨hstarts, ?_⟩
    rw [Index.contains, Index.find?_of_mem h hmem]
    rfl
  · rintro ⟨hstarts, hcontains⟩
    obtain ⟨i, hi⟩ := Option.isSome_iff_exists.1 hcontains
    exact ⟨_, (Index.mem_subtree_iff h).2 ⟨(Index.find?_eq_some_iff h).1 hi, hstarts⟩, rfl⟩

/-- What is below the place, itself included, is gone from the index. -/
theorem find?_erase_subtree {x : Index} (h : x.Sorted) (k j : Key) :
    ((x.subtree k).foldl (fun x e => x.erase e.key) x).find? j =
      if k <+: j then none else x.find? j := by
  rw [Index.find?_foldl_erase]
  by_cases hstarts : k <+: j
  · rw [if_pos hstarts]
    split
    · rfl
    · next hnot =>
      rw [mem_keys_subtree_iff h, Index.contains] at hnot
      rw [← Option.not_isSome_iff_eq_none]
      exact fun hsome => hnot ⟨hstarts, hsome⟩
  · rw [if_neg hstarts, if_neg]
    exact fun hmem => hstarts ((mem_keys_subtree_iff h).1 hmem).1

theorem find?_prune (h : m.index.Sorted) (k j : Key) :
    (m.prune k).index.find? j = if k <+: j then none else m.index.find? j := by
  rw [prune, index_foldl_dropEntry, find?_erase_subtree h]

/-- The numbers of what is below the place are free again. -/
theorem get?_prune_eq_none (h : m.index.Sorted) (hfind : m.index.find? j = some i)
    (hstarts : k <+: j) : (m.prune k).nodes.get? i = none := by
  have hmem := (Index.mem_subtree_iff h).2 ⟨(Index.find?_eq_some_iff h).1 hfind, hstarts⟩
  rw [prune, get?_foldl_dropEntry, if_pos (List.mem_map.2 ⟨_, hmem, rfl⟩)]

/-- Nothing else is freed. -/
theorem get?_prune_of_forall (h : m.index.Sorted)
    (hnot : ∀ j, m.index.find? j = some i → ¬ k <+: j) :
    (m.prune k).nodes.get? i = m.nodes.get? i := by
  rw [prune, get?_foldl_dropEntry, if_neg]
  intro hmem
  obtain ⟨e, he, rfl⟩ := List.mem_map.1 hmem
  obtain ⟨hentry, hstarts⟩ := (Index.mem_subtree_iff h).1 he
  exact hnot e.key (Index.find?_of_mem h hentry) hstarts

theorem sorted_prune (h : m.index.Sorted) (k : Key) : (m.prune k).index.Sorted := by
  rw [prune, index_foldl_dropEntry]
  exact Index.sorted_foldl_erase h _

theorem sorted_transplant (h : m.index.Sorted) (source target : Key) :
    (m.transplant source target).index.Sorted :=
  Index.sorted_foldl_insert (Index.sorted_foldl_erase h _) _ _

/-- After the move the places at and below the new one have what those at and
below the old one had. -/
theorem find?_transplant (h : m.index.Sorted)
    (hfree : ∀ j, target <+: j → m.index.find? j = none) (j : Key) :
    (m.transplant source target).index.find? j =
      if target <+: j then m.index.find? (source ++ j.drop target.length)
      else if source <+: j then none
      else m.index.find? j := by
  have hplaced : ∀ e ∈ m.index.subtree source, ∀ r,
      target ++ e.key.drop source.length = target ++ r ↔ e.key = source ++ r := by
    intro e he r
    obtain ⟨s, hs⟩ := ((Index.mem_subtree_iff h).1 he).2
    rw [← hs, List.drop_left, List.append_cancel_left_eq, List.append_cancel_left_eq]
  unfold transplant
  by_cases hstarts : target <+: j
  · obtain ⟨r, rfl⟩ := hstarts
    rw [if_pos (List.prefix_append target r), List.drop_left]
    cases hfind : m.index.find? (source ++ r) with
    | none =>
      rw [Index.find?_foldl_insert_of_forall_ne, find?_erase_subtree h,
        hfree _ (List.prefix_append target r), ite_self]
      intro e he heq
      have hkey := (hplaced e he r).1 heq
      have hmem := ((Index.mem_subtree_iff h).1 he).1
      rw [← hkey, Index.find?_of_mem h hmem] at hfind
      cases hfind
    | some i =>
      have hmem := (Index.find?_eq_some_iff h).1 hfind
      have hsubtree := (Index.mem_subtree_iff h).2 ⟨hmem, List.prefix_append source r⟩
      apply Index.find?_foldl_insert
      · exact ⟨_, hsubtree, (hplaced _ hsubtree r).2 rfl⟩
      · intro e he heq
        have hkey := (hplaced e he r).1 heq
        have hsame := Index.eq_of_key_eq h ((Index.mem_subtree_iff h).1 he).1 hmem hkey
        rw [hsame]
  · rw [if_neg hstarts, Index.find?_foldl_insert_of_forall_ne, find?_erase_subtree h]
    intro e _ heq
    exact hstarts ⟨_, heq⟩

end Memory

end ConfinedFs
