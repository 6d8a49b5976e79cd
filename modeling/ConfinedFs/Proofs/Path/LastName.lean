import ConfinedFs.Proofs.Path.Names

/-!
The last name of a path. What comes after the last separator of a text is its last
component if it is a name, whatever comes before it, and it stays the last one when
the path is cleaned or joined to another one.
-/

namespace ConfinedFs.Path

open ConfinedFs.Bytes ConfinedFs.Component

variable {p : Path} {cs : List Component} {n : Name}

theorem slash_not_mem_name (n : Name) : slash ∉ n.bytes := slash_not_mem_text (.name n)

theorem inner_of_fields {l : List Bytes} (h : fields slash p.bytes = l ++ [n.bytes]) :
    p.inner = l.filterMap ofField? ++ [.name n] := by
  have hname : ofField? n.bytes = some (.name n) := ofField?_text (isInner_name n)
  rw [inner, h, List.filterMap_append, List.filterMap_cons, hname]
  rfl

theorem fields_concat_name (bytes : Bytes) (n : Name) :
    fields slash (bytes ++ slash :: n.bytes) = fields slash bytes ++ [n.bytes] := by
  rw [fields_append, fields_eq_singleton (slash_not_mem_name n)]

theorem fileName?_of_inner (h : p.inner = cs ++ [.name n]) : p.fileName? = some n.bytes := by
  have hlast : p.components.getLast? = some (.name n) := by
    rw [components_eq, h]
    split
    · rw [← List.cons_append, List.getLast?_concat]
    · split
      · rw [← List.cons_append, List.getLast?_concat]
      · rw [List.getLast?_concat]
  rw [fileName?, hlast]

theorem getLast?_components_clean {c : Component} (h : p.settled = cs ++ [c]) :
    p.clean.components.getLast? = some c := by
  have hne : p.settled ≠ [] := by simp [h]
  rw [components_clean, if_neg hne, h]
  split
  · rw [← List.cons_append, List.getLast?_concat]
  · rw [List.getLast?_concat]

theorem baseName_of_settled (h : p.settled = cs ++ [.name n]) : p.baseName = ⟨n.bytes⟩ := by
  rw [baseName, getLast?_components_clean h]

/-- A name in the last place is never taken back. -/
theorem baseName_of_inner (h : p.inner = cs ++ [.name n]) : p.baseName = ⟨n.bytes⟩ := by
  obtain ⟨before, hsettled⟩ : ∃ before, p.settled = before ++ [.name n] := by
    rw [settled_eq, h, List.foldl_append, List.foldl_cons, List.foldl_nil, settle,
      List.reverse_cons]
    exact ⟨_, rfl⟩
  exact baseName_of_settled hsettled

/-- Seen from the top, what is below it ends in the same name. -/
theorem baseName_fromTop (h : p.climbsOut = false) (hne : p.names ≠ []) :
    p.fromTop.baseName = p.baseName := by
  obtain ⟨before, n, hnames⟩ : ∃ before n, p.names = before ++ [n] :=
    ⟨_, _, (List.dropLast_concat_getLast hne).symm⟩
  have hsettled : p.settled = before.map .name ++ [.name n] := by
    rw [settled_eq_names h, hnames, List.map_append, List.map_singleton]
  rw [baseName_of_settled hsettled]
  rw [settled_eq_names h, ← settled_fromTop] at hsettled
  exact baseName_of_settled hsettled

theorem baseName_clean (p : Path) : p.clean.baseName = p.baseName := by
  rw [baseName, clean_clean, baseName]

theorem baseName_join (base : Path) (h : p.inner = cs ++ [.name n]) :
    (base.join p).baseName = ⟨n.bytes⟩ := by
  cases hempty : base.isEmpty with
  | true =>
    rw [join, if_pos hempty, baseName_clean, baseName_of_inner h]
  | false =>
    obtain ⟨q, hq, hinner, _⟩ := join_eq_clean hempty p
    rw [h, ← List.append_assoc] at hinner
    rw [hq, baseName_clean, baseName_of_inner hinner]

theorem inner_name (n : Name) : (⟨n.bytes⟩ : Path).inner = [.name n] := inner_below [n]

/-- Below any directory an entry goes by its name. -/
theorem fileName?_push (p : Path) (n : Name) : (p.push ⟨n.bytes⟩).fileName? = some n.bytes := by
  have hrelative : (⟨n.bytes⟩ : Path).isAbsolute = false := isAbsolute_below [n]
  obtain ⟨l, hfields⟩ : ∃ l, fields slash (p.push ⟨n.bytes⟩).bytes = l ++ [n.bytes] := by
    rw [push, if_neg (Bool.eq_false_iff.1 hrelative)]
    split
    · next hends =>
      rw [Bool.or_eq_true, beq_iff_eq] at hends
      rcases hends with hempty | hslash
      · rw [List.isEmpty_iff.1 hempty, List.nil_append,
          fields_eq_singleton (slash_not_mem_name n)]
        exact ⟨[], rfl⟩
      · obtain ⟨before, hbefore⟩ := List.getLast?_eq_some_iff.1 hslash
        rw [hbefore, List.append_assoc, List.singleton_append, fields_concat_name]
        exact ⟨_, rfl⟩
    · exact ⟨_, fields_concat_name p.bytes n⟩
  exact fileName?_of_inner (inner_of_fields hfields)

section OfNames

theorem baseName_ofNames_concat (names : List Name) (n : Name) :
    (ofNames (names ++ [n])).baseName = ⟨n.bytes⟩ := by
  have hsettled : (ofNames (names ++ [n])).settled = names.map .name ++ [.name n] := by
    rw [settled_ofNames, List.map_append]
    rfl
  exact baseName_of_settled hsettled

theorem join_concat (separator : UInt8) {l : List Bytes} (hne : l ≠ []) (field : Bytes) :
    Bytes.join separator (l ++ [field]) = Bytes.join separator l ++ separator :: field := by
  induction l with
  | nil => exact absurd rfl hne
  | cons first l ih =>
    by_cases hl : l = []
    · subst hl
      rfl
    · rw [List.cons_append, join_cons_cons _ _ _ (by simp), join_cons_cons _ _ _ hl, ih hl,
        List.append_assoc, List.cons_append]

theorem bytes_ofNames_concat (names : List Name) (n : Name) :
    (ofNames (names ++ [n])).bytes =
      if names = [] then slash :: n.bytes else (ofNames names).bytes ++ slash :: n.bytes := by
  rw [ofNames, bytes_ofComponents_root (by simp)]
  split
  · next hnil =>
    subst hnil
    rfl
  · next hne =>
    have htexts : (names.map Component.name).map Component.text ≠ [] := by simpa using hne
    rw [ofNames, bytes_ofComponents_root (by simpa using hne), List.map_append, List.map_append,
      List.map_singleton, List.map_singleton, join_concat slash htexts]
    rfl

theorem getLast?_ofNames_concat (names : List Name) (n : Name) :
    (ofNames (names ++ [n])).bytes.getLast? ≠ some slash := by
  have hne : n.bytes ≠ [] := by
    intro hnil
    have hvalid := n.valid
    rw [hnil] at hvalid
    cases hvalid
  obtain ⟨before, b, hlast⟩ : ∃ before b, n.bytes = before ++ [b] :=
    ⟨_, _, (List.dropLast_concat_getLast hne).symm⟩
  have hends : (ofNames (names ++ [n])).bytes.getLast? = some b := by
    rw [bytes_ofNames_concat, hlast]
    split
    · rw [← List.cons_append, List.getLast?_concat]
    · rw [← List.cons_append, ← List.append_assoc, List.getLast?_concat]
  intro hslash
  have hb : b = slash := Option.some.inj (hends.symm.trans hslash)
  apply slash_not_mem_name n
  rw [hlast, hb]
  exact List.mem_append_right _ (List.mem_singleton_self slash)

/-- The path of an entry is that of its directory with its name after it. -/
theorem push_ofNames (names : List Name) (n : Name) :
    (ofNames names).push ⟨n.bytes⟩ = ofNames (names ++ [n]) := by
  have hrelative : (⟨n.bytes⟩ : Path).isAbsolute = false := isAbsolute_below [n]
  have hbytes := bytes_ofNames_concat names n
  have hpath : ofNames (names ++ [n]) = ⟨(ofNames (names ++ [n])).bytes⟩ := rfl
  rw [hpath, hbytes, push, if_neg (Bool.eq_false_iff.1 hrelative)]
  rcases List.eq_nil_or_concat names with rfl | ⟨before, last, rfl⟩
  · rfl
  · rw [List.concat_eq_append]
    have hnonempty : (ofNames (before ++ [last])).isEmpty = false := by
      rw [← clean_ofNames]
      exact isEmpty_clean _
    have hends : ((ofNames (before ++ [last])).bytes.getLast? == some slash) = false := by
      rw [beq_eq_false_iff_ne]
      exact getLast?_ofNames_concat before last
    rw [hnonempty, hends, if_neg (by simp)]
    exact congrArg Path.mk (if_neg (by simp)).symm

theorem fileName?_ofNames_concat (names : List Name) (n : Name) :
    (ofNames (names ++ [n])).fileName? = some n.bytes := by
  rw [← push_ofNames, fileName?_push]

end OfNames

/-- Every text is the last field after what ends with the last separator. -/
theorem exists_last_field (text : Bytes) :
    ∃ l last, slash ∉ last ∧ ∀ tail, slash ∉ tail →
      fields slash (text ++ tail) = l ++ [last ++ tail] := by
  by_cases hmem : slash ∈ text.reverse
  · obtain ⟨after, before, hsplit, hfree⟩ := List.eq_append_cons_of_mem hmem
    have htext : text = before.reverse ++ slash :: after.reverse := by
      rw [← List.reverse_reverse text, hsplit]
      simp
    have hlast : slash ∉ after.reverse := by simpa using hfree
    refine ⟨fields slash before.reverse, after.reverse, hlast, ?_⟩
    intro tail htail
    have hjoined : slash ∉ after.reverse ++ tail := by simp [hfree, htail]
    rw [htext, List.append_assoc, List.cons_append, fields_append, fields_eq_singleton hjoined]
  · rw [List.mem_reverse] at hmem
    refine ⟨[], text, hmem, ?_⟩
    intro tail htail
    have hjoined : slash ∉ text ++ tail := by simp [hmem, htail]
    rw [fields_eq_singleton hjoined, List.nil_append]

end ConfinedFs.Path
