import ConfinedFs.Proofs.Path.Clean

/-!
Climbing. A relative path climbs out of the place it starts from if somewhere on the
way it has gone up more often than down. What remains of one that does not are
names.
-/

namespace ConfinedFs.Path

open ConfinedFs.Bytes ConfinedFs.Component

variable {depth : Nat} {cs : List Component} {p : Path}

/-- Started so many levels below the top, do the components lead above it on the
way? -/
def Climbs (depth : Nat) (cs : List Component) : Prop :=
  ∃ l, l <+: cs ∧ depth + l.countP Component.isName < l.count .parent

section Climbs

theorem not_climbs_nil : ¬ Climbs depth [] := by
  rintro ⟨l, hl, hlt⟩
  rw [List.prefix_nil.1 hl] at hlt
  exact Nat.not_lt_zero _ hlt

theorem climbs_cons_iff {c : Component} : Climbs depth (c :: cs) ↔
    ∃ l, l <+: cs ∧ depth + (c :: l).countP Component.isName < (c :: l).count .parent := by
  constructor
  · rintro ⟨l, hl, hlt⟩
    rcases List.prefix_cons_iff.1 hl with rfl | ⟨rest, rfl, hrest⟩
    · exact absurd hlt (Nat.not_lt_zero _)
    · exact ⟨rest, hrest, hlt⟩
  · rintro ⟨l, hl, hlt⟩
    exact ⟨c :: l, List.cons_prefix_cons.2 ⟨rfl, hl⟩, hlt⟩

@[simp]
theorem climbs_name {n : Name} : Climbs depth (.name n :: cs) ↔ Climbs (depth + 1) cs := by
  rw [climbs_cons_iff, Climbs]
  apply exists_congr
  intro l
  have hnames : (name n :: l).countP Component.isName = l.countP Component.isName + 1 :=
    List.countP_cons_of_pos rfl
  have hne : name n ≠ parent := nofun
  have hups : (name n :: l).count .parent = l.count .parent := List.count_cons_of_ne hne
  rw [hnames, hups]
  apply and_congr_right
  intro _
  omega

@[simp]
theorem climbs_parent : Climbs (depth + 1) (.parent :: cs) ↔ Climbs depth cs := by
  rw [climbs_cons_iff, Climbs]
  apply exists_congr
  intro l
  have hnames : (parent :: l).countP Component.isName = l.countP Component.isName :=
    List.countP_cons_of_neg nofun
  have hups : (parent :: l).count .parent = l.count .parent + 1 := List.count_cons_self
  rw [hnames, hups]
  apply and_congr_right
  intro _
  omega

theorem climbs_parent_zero : Climbs 0 (.parent :: cs) :=
  ⟨[.parent], List.cons_prefix_cons.2 ⟨rfl, List.nil_prefix⟩, by decide⟩

/-- What is neither a name nor a step up does not count. -/
theorem climbs_skip {c : Component} (hname : c.isName = false) (hup : c ≠ .parent) :
    Climbs depth (c :: cs) ↔ Climbs depth cs := by
  rw [climbs_cons_iff, Climbs]
  apply exists_congr
  intro l
  have hnames : (c :: l).countP Component.isName = l.countP Component.isName :=
    List.countP_cons_of_neg (by rw [hname]; nofun)
  rw [hnames, List.count_cons_of_ne hup]

@[simp]
theorem climbs_root : Climbs depth (.root :: cs) ↔ Climbs depth cs := climbs_skip rfl nofun

@[simp]
theorem climbs_current : Climbs depth (.current :: cs) ↔ Climbs depth cs := climbs_skip rfl nofun

/-- Names at the start lead that many levels down. -/
theorem climbs_names (names : List Name) :
    Climbs depth (names.map .name ++ cs) ↔ Climbs (depth + names.length) cs := by
  induction names generalizing depth with
  | nil => rfl
  | cons n names ih =>
    rw [List.map_cons, List.cons_append, climbs_name, ih, List.length_cons]
    have hdepth : depth + 1 + names.length = depth + (names.length + 1) := by omega
    rw [hdepth]

theorem climbs_components (p : Path) : Climbs depth p.components ↔ Climbs depth p.inner := by
  rw [components_eq]
  split
  · exact climbs_root
  · split
    · exact climbs_current
    · rfl

end Climbs

section Settling

/-- A step up that has nothing to take back stays for good. -/
theorem foldl_settle_parent (kept cs : List Component) :
    ∃ kept', cs.foldl (settle false) (kept ++ [.parent]) = kept' ++ [.parent] := by
  induction cs generalizing kept with
  | nil => exact ⟨kept, rfl⟩
  | cons c cs ih =>
    rw [List.foldl_cons]
    cases c with
    | root => exact ih kept
    | current => exact ih kept
    | name n => exact ih (.name n :: kept)
    | parent =>
      cases kept with
      | nil => exact ih [.parent]
      | cons d kept =>
        cases d with
        | name n => exact ih kept
        | root => exact ih (.parent :: .root :: kept)
        | current => exact ih (.parent :: .current :: kept)
        | parent => exact ih (.parent :: .parent :: kept)

theorem foldl_settle_of_climbs (names : List Name) (h : Climbs names.length cs) :
    ∃ kept, cs.foldl (settle false) (names.map .name) = kept ++ [.parent] := by
  induction cs generalizing names with
  | nil => exact absurd h not_climbs_nil
  | cons c cs ih =>
    rw [List.foldl_cons]
    cases c with
    | root => exact ih names (climbs_root.1 h)
    | current => exact ih names (climbs_current.1 h)
    | name n => exact ih (n :: names) (climbs_name.1 h)
    | parent =>
      cases names with
      | nil => exact foldl_settle_parent [] cs
      | cons n names => exact ih names (climbs_parent.1 h)

/-- Components that do not climb come down to names. -/
theorem foldl_settle_of_not_climbs (names : List Name) (h : ¬ Climbs names.length cs) :
    ∃ left : List Name, cs.foldl (settle false) (names.map .name) = left.map .name := by
  induction cs generalizing names with
  | nil => exact ⟨names, rfl⟩
  | cons c cs ih =>
    rw [List.foldl_cons]
    cases c with
    | root => exact ih names fun hc => h (climbs_root.2 hc)
    | current => exact ih names fun hc => h (climbs_current.2 hc)
    | name n => exact ih (n :: names) fun hc => h (climbs_name.2 hc)
    | parent =>
      cases names with
      | nil => exact absurd climbs_parent_zero h
      | cons n names => exact ih names fun hc => h (climbs_parent.2 hc)

theorem settled_of_climbs (hrelative : p.isAbsolute = false) (h : Climbs 0 p.inner) :
    ∃ rest, p.settled = .parent :: rest := by
  obtain ⟨kept, hkept⟩ := foldl_settle_of_climbs [] h
  rw [List.map_nil] at hkept
  refine ⟨kept.reverse, ?_⟩
  rw [settled_eq, hrelative, hkept, List.reverse_append]
  rfl

theorem settled_of_not_climbs (hrelative : p.isAbsolute = false) (h : ¬ Climbs 0 p.inner) :
    ∃ names : List Name, p.settled = names.map .name := by
  obtain ⟨left, hleft⟩ := foldl_settle_of_not_climbs [] h
  rw [List.map_nil] at hleft
  refine ⟨left.reverse, ?_⟩
  rw [settled_eq, hrelative, hleft, List.map_reverse]

end Settling

/-- The check is exact: it holds of the relative paths that go up more often than
down somewhere on the way. -/
theorem climbsOut_iff : p.climbsOut = true ↔ p.isAbsolute = false ∧ Climbs 0 p.components := by
  rw [climbsOut, beq_iff_eq, components_clean, climbs_components]
  cases habsolute : p.isAbsolute with
  | true =>
    rw [if_pos rfl]
    exact ⟨nofun, fun h => nomatch h.1⟩
  | false =>
    rw [if_neg nofun]
    by_cases hclimbs : Climbs 0 p.inner
    · obtain ⟨rest, hsettled⟩ := settled_of_climbs habsolute hclimbs
      rw [hsettled, if_neg nofun]
      exact ⟨fun _ => ⟨rfl, hclimbs⟩, fun _ => rfl⟩
    · obtain ⟨names, hsettled⟩ := settled_of_not_climbs habsolute hclimbs
      rw [hsettled]
      constructor
      · intro hhead
        cases names with
        | nil => cases hhead
        | cons n names => cases hhead
      · rintro ⟨_, h⟩
        exact absurd h hclimbs

theorem climbsOut_clean (p : Path) : p.clean.climbsOut = p.climbsOut := by
  rw [climbsOut, clean_clean, climbsOut]

theorem climbsOut_of_isAbsolute (h : p.isAbsolute = true) : p.climbsOut = false := by
  rw [Bool.eq_false_iff]
  intro hclimbs
  rw [(climbsOut_iff.1 hclimbs).1] at h
  cases h

theorem not_climbs_of_climbsOut (hrelative : p.isAbsolute = false) (h : p.climbsOut = false) :
    ¬ Climbs 0 p.inner := by
  rw [← climbs_components]
  intro hclimbs
  rw [climbsOut_iff.2 ⟨hrelative, hclimbs⟩] at h
  cases h

/-- Names do not climb. -/
theorem climbsOut_of_inner {names : List Name} (h : p.inner = names.map .name) :
    p.climbsOut = false := by
  rw [Bool.eq_false_iff]
  intro hclimbs
  have hnames := (climbsOut_iff.1 hclimbs).2
  rw [climbs_components, h, ← List.append_nil (names.map _), climbs_names] at hnames
  exact not_climbs_nil hnames

/-- What remains of a path that does not climb are names. -/
theorem settled_of_not_climbsOut (h : p.climbsOut = false) :
    ∃ names : List Name, p.settled = names.map .name := by
  cases habsolute : p.isAbsolute with
  | true => exact settled_of_isAbsolute habsolute
  | false => exact settled_of_not_climbs habsolute (not_climbs_of_climbsOut habsolute h)

end ConfinedFs.Path
