import ConfinedFs.Proofs.Path.Climbing

/-!
Joining. What is put below a base starts with the components of the base. A path that
does not climb adds the names that remain of it.
-/

namespace ConfinedFs.Path

open ConfinedFs.Bytes ConfinedFs.Component

variable {p base : Path}

/-- The components of a path, of which `.` is none. -/
def parts (p : Path) : List Component := p.components.filter (· ≠ .current)

theorem parts_clean (p : Path) :
    p.clean.parts = if p.isAbsolute then .root :: p.settled else p.settled := by
  have hinner : p.settled.filter (· ≠ .current) = p.settled := by
    apply List.filter_eq_self.2
    intro c hc
    simpa using (isInner_of_mem_settled hc).2
  rw [parts, components_clean]
  split
  · rw [List.filter_cons_of_pos (by decide), hinner]
  · split
    · next h => rw [h]; rfl
    · exact hinner

theorem isEmpty_clean (p : Path) : p.clean.isEmpty = false := by
  rw [Bool.eq_false_iff]
  intro hempty
  have hclean : p.clean = ⟨[]⟩ := congrArg Path.mk (List.isEmpty_iff.1 hempty)
  have hcomponents := components_clean p
  rw [hclean] at hcomponents
  replace hcomponents := hcomponents.symm
  split at hcomponents
  · cases hcomponents
  · split at hcomponents
    · cases hcomponents
    · next hne => exact hne hcomponents

theorem isEmpty_of_isAbsolute (h : p.isAbsolute = true) : p.isEmpty = false := by
  obtain ⟨bytes⟩ := p
  cases bytes with
  | nil => cases h
  | cons => rfl

theorem inner_eq_nil (h : p.isEmpty = true) : p.inner = [] := by
  rw [inner, List.isEmpty_iff.1 h]
  rfl

/-- A joined path is the clean form of one that passes through the components of the
base first. -/
theorem join_eq_clean (h : base.isEmpty = false) (p : Path) :
    ∃ q : Path, base.join p = q.clean ∧ q.inner = base.inner ++ p.inner ∧
      q.isAbsolute = base.isAbsolute := by
  unfold join
  rw [if_neg (by rw [h]; nofun)]
  split
  · next hempty =>
    refine ⟨base, rfl, ?_, rfl⟩
    rw [inner_eq_nil hempty, List.append_nil]
  · refine ⟨_, rfl, ?_, ?_⟩
    · rw [inner, fields_append, List.filterMap_append]
      rfl
    · obtain ⟨bytes⟩ := base
      cases bytes with
      | nil => cases h
      | cons b rest => rfl

/-- The same holds of an empty base, as long as what is joined to it is relative. -/
theorem exists_join_eq (h : base.isEmpty = false ∨ p.isAbsolute = false) :
    ∃ q : Path, base.join p = q.clean ∧ q.inner = base.inner ++ p.inner ∧
      q.isAbsolute = base.isAbsolute := by
  cases hempty : base.isEmpty with
  | false => exact join_eq_clean hempty p
  | true =>
    have hrelative : p.isAbsolute = false := h.resolve_left (by rw [hempty]; nofun)
    obtain rfl : base = ⟨[]⟩ := congrArg Path.mk (List.isEmpty_iff.1 hempty)
    exact ⟨p, if_pos hempty, rfl, hrelative⟩

/-- A path is settled from where its base has led. -/
theorem settled_join (h : base.isEmpty = false ∨ p.isAbsolute = false) : (base.join p).settled =
    (p.inner.foldl (settle base.isAbsolute) base.settled.reverse).reverse := by
  obtain ⟨q, hq, hinner, habsolute⟩ := exists_join_eq h
  rw [hq, settled_clean, settled_eq, hinner, habsolute, List.foldl_append, settled_eq base,
    List.reverse_reverse]

theorem isAbsolute_joined (h : base.isEmpty = false ∨ p.isAbsolute = false) :
    (base.join p).isAbsolute = base.isAbsolute := by
  obtain ⟨q, hq, -, habsolute⟩ := exists_join_eq h
  rw [hq, isAbsolute_clean, habsolute]

theorem clean_join (h : base.isEmpty = false) (p : Path) :
    (base.join p).clean = base.join p := by
  obtain ⟨q, hq, _⟩ := join_eq_clean h p
  rw [hq, clean_clean]

/-- Joined paths are clean, whatever the base. -/
theorem clean_joined (base p : Path) : (base.join p).clean = base.join p := by
  cases hempty : base.isEmpty with
  | true => rw [join, if_pos hempty, clean_clean]
  | false => exact clean_join hempty p

theorem isAbsolute_join (h : base.isAbsolute = true) (p : Path) :
    (base.join p).isAbsolute = true :=
  (isAbsolute_joined (.inl (isEmpty_of_isAbsolute h))).trans h

/-- Below a clean base, a clean path that does not climb adds its names. -/
theorem parts_join_clean (base : Path) (h : p.climbsOut = false) :
    (base.clean.join p.clean).parts =
      base.clean.parts ++ p.clean.components.filter Component.isName := by
  obtain ⟨names, hnames⟩ := settled_of_not_climbsOut h
  obtain ⟨q, hq, hinner, habsolute⟩ := join_eq_clean (isEmpty_clean base) p.clean
  rw [inner_clean, inner_clean, hnames] at hinner
  rw [isAbsolute_clean] at habsolute
  have hbase := (isSettled_settled base).foldl_reverse
  rw [List.reverse_reverse] at hbase
  have hsettled : q.settled = base.settled ++ names.map .name := by
    rw [settled_eq, hinner, habsolute, List.foldl_append, hbase, foldl_settle_names,
      List.reverse_append, List.reverse_reverse, List.reverse_reverse]
  have hadded : p.clean.components.filter Component.isName = names.map .name := by
    have hall : (names.map Component.name).filter Component.isName = names.map .name := by
      apply List.filter_eq_self.2
      intro c hc
      obtain ⟨n, _, rfl⟩ := List.mem_map.1 hc
      rfl
    rw [components_clean, hnames]
    split
    · rw [List.filter_cons_of_neg (by decide), hall]
    · split
      · next hnil => rw [hnil]; rfl
      · exact hall
  rw [hq, parts_clean, parts_clean, habsolute, hsettled, hadded]
  split
  · rfl
  · rfl

theorem isAbsolute_fromTop (p : Path) : p.fromTop.isAbsolute = true := isAbsolute_join rfl p

theorem clean_fromTop (p : Path) : p.fromTop.clean = p.fromTop := clean_join rfl p

/-- Seen from the top, a path is the top and its names. -/
theorem components_fromTop (p : Path) : p.fromTop.components = .root :: p.names.map .name := by
  obtain ⟨names, hnames⟩ := settled_of_isAbsolute (isAbsolute_fromTop p)
  have hcomponents : p.fromTop.components = .root :: names.map .name := by
    rw [← clean_fromTop, components_clean, if_pos (isAbsolute_fromTop p), hnames]
  have hsame : p.names = names := by
    rw [Path.names, hcomponents, List.filterMap_cons_none rfl, List.filterMap_map]
    exact List.filterMap_some
  rw [hcomponents, hsame]

section Below

variable (names : List Name)

/-- The relative path that passes through the names. -/
def below : Path := if names = [] then here else ofComponents (names.map .name)

theorem isInner_of_mem_names {c : Component} (h : c ∈ names.map Component.name) : c.IsInner := by
  obtain ⟨n, _, rfl⟩ := List.mem_map.1 h
  exact isInner_name n

theorem inner_below : (below names).inner = names.map .name := by
  unfold below
  split
  · next h => rw [h]; rfl
  · exact inner_ofComponents fun c hc => isInner_of_mem_names names hc

theorem isAbsolute_below : (below names).isAbsolute = false := by
  unfold below
  split
  · rfl
  · exact isAbsolute_ofComponents fun c hc => isInner_of_mem_names names hc

theorem settled_below : (below names).settled = names.map .name := by
  rw [settled_eq, inner_below, foldl_settle_names, List.append_nil, List.reverse_reverse]

theorem clean_below : (below names).clean = below names := by
  rw [clean, isAbsolute_below, settled_below, below]
  cases names with
  | nil => rfl
  | cons n names => rfl

theorem isEmpty_below : (below names).isEmpty = false := by
  rw [← clean_below, isEmpty_clean]

theorem components_below (h : names ≠ []) :
    (below names).clean.components = names.map .name := by
  rw [components_clean, isAbsolute_below, settled_below, if_neg nofun, if_neg]
  simpa using h

/-- One level up is the path through all names but the last. -/
theorem dirName_below : (below names).dirName = below names.dropLast := by
  rcases List.eq_nil_or_concat names with rfl | ⟨names, n, rfl⟩
  · rfl
  · rw [List.concat_eq_append]
    have hcomponents : (below (names ++ [n])).clean.components = names.map .name ++ [.name n] := by
      rw [components_below _ (by simp), List.map_append]
      rfl
    simp only [dirName, hcomponents, List.getLast?_concat, List.dropLast_concat]
    cases names with
    | nil => rfl
    | cons m names => rfl

/-- From below so many names a path climbs out if it leads that many levels up and
further. -/
theorem climbsOut_join_below (p : Path) :
    ((below names).join p).climbsOut = true ↔ Climbs names.length p.components := by
  obtain ⟨q, hq, hinner, habsolute⟩ := join_eq_clean (isEmpty_below names) p
  rw [isAbsolute_below] at habsolute
  rw [inner_below] at hinner
  rw [hq, climbsOut_clean, climbsOut_iff, climbs_components, hinner, climbs_names, Nat.zero_add,
    climbs_components]
  exact and_iff_right habsolute

end Below

end ConfinedFs.Path
