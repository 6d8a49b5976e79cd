import ConfinedFs.Proofs.Path.Joining

/-!
Paths by their names. Seen from the top a path comes down to the names it passes
through, and what is asked about such paths can be told from the lists of names: one
is below another if its names start with the other's, and to join is to append.
-/

namespace ConfinedFs.Path

open ConfinedFs.Bytes ConfinedFs.Component

variable {names : List Name} {cs : List Component} {p base : Path}

theorem settled_fromTop (p : Path) : p.fromTop.settled = p.names.map .name := by
  have hcomponents := components_fromTop p
  rw [← clean_fromTop, components_clean, if_pos (isAbsolute_fromTop p)] at hcomponents
  exact (List.cons.inj hcomponents).2

theorem fromTop_eq (p : Path) : p.fromTop = ofNames p.names := by
  have hclean := clean_fromTop p
  rw [clean, if_pos (isAbsolute_fromTop p), settled_fromTop] at hclean
  exact hclean.symm

/-- At the top a step up that has nothing to take back is dropped. -/
theorem map_names (p : Path) : p.names.map .name = (p.inner.foldl (settle true) []).reverse := by
  have htop : top.isEmpty = false := rfl
  have hnil : top.inner = [] := rfl
  obtain ⟨q, hq, hinner, habsolute⟩ := join_eq_clean htop p
  rw [hnil, List.nil_append] at hinner
  rw [← settled_fromTop, fromTop, hq, settled_clean, settled_eq, hinner, habsolute]
  rfl

theorem names_eq_of_map (h : p.names.map Component.name = names.map .name) : p.names = names :=
  (List.map_inj_right fun _ _ => Component.name.inj).1 h

theorem names_of_inner (h : p.inner = names.map .name) : p.names = names := by
  apply names_eq_of_map
  rw [map_names, h, foldl_settle_names, List.append_nil, List.reverse_reverse]

theorem names_eq_nil (h : p.isEmpty = true) : p.names = [] := names_of_inner (inner_eq_nil h)

/-- Components that do not climb are settled in the same way at the top. -/
theorem foldl_settle_top (names : List Name) (h : ¬ Climbs names.length cs) :
    cs.foldl (settle true) (names.map .name) = cs.foldl (settle false) (names.map .name) := by
  induction cs generalizing names with
  | nil => rfl
  | cons c cs ih =>
    rw [List.foldl_cons, List.foldl_cons]
    cases c with
    | root => exact ih names fun hc => h (climbs_root.2 hc)
    | current => exact ih names fun hc => h (climbs_current.2 hc)
    | name n => exact ih (n :: names) fun hc => h (climbs_name.2 hc)
    | parent =>
      cases names with
      | nil => exact absurd climbs_parent_zero h
      | cons n names => exact ih names fun hc => h (climbs_parent.2 hc)

/-- What remains of a path that does not climb are its names. -/
theorem settled_eq_names (h : p.climbsOut = false) : p.settled = p.names.map .name := by
  rw [map_names, settled_eq]
  cases habsolute : p.isAbsolute with
  | true => rfl
  | false =>
    have hstays := not_climbs_of_climbsOut habsolute h
    exact congrArg List.reverse (foldl_settle_top [] hstays).symm

theorem clean_eq_ofNames (h : p.isAbsolute = true) : p.clean = ofNames p.names := by
  rw [clean, if_pos h, settled_eq_names (climbsOut_of_isAbsolute h), ofNames]

section OfNames

variable (names)

theorem components_ofNames : (ofNames names).components = .root :: names.map .name :=
  components_ofComponents_root fun _ hc => isInner_of_mem_names names hc

theorem climbsOut_ofNames : (ofNames names).climbsOut = false :=
  climbsOut_of_isAbsolute (isAbsolute_ofNames names)

@[simp]
theorem names_ofNames : (ofNames names).names = names := by
  apply names_eq_of_map
  rw [← settled_eq_names (climbsOut_ofNames names), settled_ofNames]

@[simp]
theorem fromTop_ofNames : (ofNames names).fromTop = ofNames names := by
  rw [fromTop_eq, names_ofNames]

@[simp]
theorem names_below : (below names).names = names := names_of_inner (inner_below names)

@[simp]
theorem fromTop_below : (below names).fromTop = ofNames names := by
  rw [fromTop_eq, names_below]

/-- One level up is the path of all names but the last. -/
theorem dirName_ofNames : (ofNames names).dirName = ofNames names.dropLast := by
  rcases List.eq_nil_or_concat names with rfl | ⟨names, n, rfl⟩
  · rfl
  · rw [List.concat_eq_append, dirName, clean_ofNames, components_ofNames, List.map_append]
    have hlast : (Component.root :: (names.map Component.name ++ [n].map Component.name)) =
        (Component.root :: names.map Component.name) ++ [.name n] := rfl
    rw [hlast, List.getLast?_concat]
    dsimp only
    rw [List.dropLast_concat, List.dropLast_concat]
    rfl

theorem fields_ofNames (h : names ≠ []) :
    fields slash (ofNames names).bytes = [] :: names.map (·.bytes) := by
  have hcs : names.map Component.name ≠ [] := by simpa using h
  rw [ofNames, bytes_ofComponents_root hcs, fields, if_pos rfl, fields_join_text hcs, List.map_map]
  rfl

/-- With one more name a path does not get shorter. -/
theorem length_ofNames_le (names : List Name) (n : Name) :
    (ofNames names).bytes.length ≤ (ofNames (names ++ [n])).bytes.length := by
  have hne : (names ++ [n]).map Component.name ≠ [] := by simp
  rw [ofNames, ofNames, bytes_ofComponents_root hne]
  cases names with
  | nil => exact Nat.succ_le_succ (Nat.zero_le _)
  | cons first names =>
    rw [bytes_ofComponents_root (by simp), List.length_cons, List.length_cons, List.map_append,
      List.map_append]
    exact Nat.succ_le_succ (length_join_le ..)

/-- A byte other than the separator is in a path if it is in one of its names. -/
theorem mem_ofNames_iff {b : UInt8} (hb : b ≠ slash) :
    b ∈ (ofNames names).bytes ↔ ∃ n ∈ names, b ∈ n.bytes := by
  by_cases hne : names = []
  · subst hne
    simp [ofNames, ofComponents, top, hb]
  · rw [ofNames, bytes_ofComponents_root (by simpa using hne), List.mem_cons, mem_join_iff hb]
    rw [List.map_map, or_iff_right hb]
    constructor
    · rintro ⟨_, hfield, hmem⟩
      obtain ⟨n, hn, rfl⟩ := List.mem_map.1 hfield
      exact ⟨n, hn, hmem⟩
    · rintro ⟨n, hn, hmem⟩
      exact ⟨_, List.mem_map.2 ⟨n, hn, rfl⟩, hmem⟩

end OfNames

@[simp]
theorem names_fromTop (p : Path) : p.fromTop.names = p.names := by
  rw [fromTop_eq, names_ofNames]

theorem names_eq_of_fromTop {q : Path} (h : p.fromTop = q.fromTop) : p.names = q.names := by
  rw [← names_fromTop, h, names_fromTop]

/-- Below an absolute base the names of a path that does not climb come after those
of the base. -/
theorem join_clean_eq (hbase : base.isAbsolute = true) (h : p.climbsOut = false) :
    base.clean.join p.clean = ofNames (base.names ++ p.names) := by
  obtain ⟨q, hq, hinner, habsolute⟩ := join_eq_clean (isEmpty_clean base) p.clean
  rw [inner_clean, inner_clean, settled_eq_names (climbsOut_of_isAbsolute hbase),
    settled_eq_names h, ← List.map_append] at hinner
  rw [isAbsolute_clean, hbase] at habsolute
  rw [hq, clean_eq_ofNames habsolute, names_of_inner hinner]

theorem join_ofNames (names names' : List Name) :
    (ofNames names).join (ofNames names') = ofNames (names ++ names') := by
  have hjoin := join_clean_eq (isAbsolute_ofNames names) (climbsOut_ofNames names')
  rw [clean_ofNames, clean_ofNames, names_ofNames, names_ofNames] at hjoin
  exact hjoin

theorem components_clean_of_isAbsolute (h : p.isAbsolute = true) :
    p.clean.components = .root :: p.names.map .name := by
  rw [clean_eq_ofNames h, components_ofNames]

/-- An absolute path is below another one if its names start with the other's. -/
theorem remainder?_eq (hbase : base.isAbsolute = true) (h : p.isAbsolute = true) :
    base.remainder? p =
      if base.names <+: p.names then some (below (p.names.drop base.names.length)) else none := by
  have hstarts : (Component.root :: base.names.map .name).isPrefixOf
      (Component.root :: p.names.map .name) = true ↔ base.names <+: p.names := by
    rw [List.isPrefixOf_iff_prefix, List.cons_prefix_cons, and_iff_right rfl]
    exact List.prefix_map_iff_of_injective fun _ _ => Component.name.inj
  have hlength : (Component.root :: base.names.map .name).length = base.names.length + 1 := by
    simp
  simp only [remainder?, components_clean_of_isAbsolute hbase, components_clean_of_isAbsolute h]
  by_cases hprefix : base.names <+: p.names
  · rw [if_pos (hstarts.2 hprefix), if_pos hprefix, hlength, List.drop_succ_cons, ← List.map_drop]
    cases hrest : p.names.drop base.names.length with
    | nil => rfl
    | cons n rest => rfl
  · rw [if_neg fun hp => hprefix (hstarts.1 hp), if_neg hprefix]

theorem same_ofNames_iff (names names' : List Name) :
    (ofNames names).same (ofNames names') = true ↔ names = names' := by
  rw [same, decide_eq_true_iff, components_ofNames, components_ofNames]
  constructor
  · intro h
    exact (List.map_inj_right fun _ _ => Component.name.inj).1 (List.cons.inj h).2
  · rintro rfl
    rfl

end ConfinedFs.Path
