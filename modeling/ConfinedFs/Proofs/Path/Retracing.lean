import ConfinedFs.Proofs.Path.Steps

/-!
Names that are taken back. What the names of a path are can be told from its steps: each step up
takes back the name before it. So a path that does not climb adds its names to those of an absolute
path it is written after.
-/

namespace ConfinedFs.Path

open ConfinedFs.Bytes ConfinedFs.Component

variable {p base : Path} {cs : List Component}

/-- The names that are left of some names after more steps. -/
def namesAfter : List Name → List Step → List Name
  | kept, [] => kept
  | kept, .down n :: rest => namesAfter (kept ++ [n]) rest
  | kept, .up :: rest => namesAfter kept.dropLast rest

/-- The induction is on the components, which are settled as the steps are made. -/
theorem foldl_settle_eq_namesAfter (kept : List Name) (cs : List Component) :
    (cs.foldl (settle true) (kept.map .name).reverse).reverse =
      (namesAfter kept (cs.filterMap Step.ofComponent?)).map .name := by
  induction cs generalizing kept with
  | nil => exact List.reverse_reverse _
  | cons c cs ih =>
    rw [List.foldl_cons]
    cases c with
    | root => exact ih kept
    | current => exact ih kept
    | name n =>
      have hkept : settle true (kept.map .name).reverse (.name n) =
          ((kept ++ [n]).map Component.name).reverse := by simp [settle]
      rw [hkept]
      exact ih (kept ++ [n])
    | parent =>
      have hkept : settle true (kept.map .name).reverse .parent =
          (kept.dropLast.map Component.name).reverse := by
        rcases List.eq_nil_or_concat kept with rfl | ⟨kept, n, rfl⟩
        · rfl
        · simp [settle]
      rw [hkept]
      exact ih kept.dropLast

theorem names_eq_namesAfter (p : Path) : p.names = namesAfter [] p.steps := by
  apply names_eq_of_map
  rw [map_names, steps_eq_inner]
  exact foldl_settle_eq_namesAfter [] p.inner

/-- What is settled at the top has the names of what is settled elsewhere, without the steps up. -/
theorem foldl_settle_both (l : List Name) (ups : Nat) (cs : List Component) :
    ∃ (l' : List Name) (ups' : Nat),
      cs.foldl (settle false) (l.map .name ++ List.replicate ups .parent) =
        l'.map .name ++ List.replicate ups' .parent ∧
      cs.foldl (settle true) (l.map .name) = l'.map .name := by
  induction cs generalizing l ups with
  | nil => exact ⟨l, ups, rfl, rfl⟩
  | cons c cs ih =>
    cases c with
    | root => exact ih l ups
    | current => exact ih l ups
    | name n => exact ih (n :: l) ups
    | parent =>
      cases l with
      | cons n l => exact ih l ups
      | nil =>
        have hup : settle false (([] : List Name).map .name ++ List.replicate ups .parent) .parent =
            ([] : List Name).map .name ++ List.replicate (ups + 1) .parent := by
          cases ups <;> rfl
        rw [List.foldl_cons, hup]
        exact ih [] (ups + 1)

/-- A cleaned path goes up first, if at all, and then down to its names. -/
theorem steps_clean_eq (p : Path) :
    ∃ ups, p.clean.steps = List.replicate ups .up ++ p.names.map .down := by
  have hups : ∀ ups, (List.replicate ups Component.parent).filterMap Step.ofComponent? =
      List.replicate ups .up := fun ups => List.filterMap_replicate_of_some rfl
  obtain ⟨l, ups, hfree, htop⟩ := foldl_settle_both [] 0 p.inner
  change p.inner.foldl (settle false) [] = _ at hfree
  change p.inner.foldl (settle true) [] = _ at htop
  have hnames : p.names = l.reverse := by
    apply names_eq_of_map
    rw [map_names, htop, List.map_reverse]
  rw [steps_eq_inner, inner_clean, settled_eq, hnames]
  cases p.isAbsolute with
  | true =>
    refine ⟨0, ?_⟩
    rw [htop, ← List.map_reverse, filterMap_ofComponent?]
    rfl
  | false =>
    refine ⟨ups, ?_⟩
    rw [hfree, List.reverse_append, List.reverse_replicate, ← List.map_reverse,
      List.filterMap_append, hups, filterMap_ofComponent?]

/-- Steps up at the top lead nowhere. -/
theorem namesAfter_ups (ups : Nat) (steps : List Step) :
    namesAfter [] (List.replicate ups .up ++ steps) = namesAfter [] steps := by
  induction ups with
  | zero => rfl
  | succ ups ih => exact ih

theorem namesAfter_downs (kept names : List Name) :
    namesAfter kept (names.map .down) = kept ++ names := by
  induction names generalizing kept with
  | nil => exact (List.append_nil kept).symm
  | cons n names ih => exact (ih (kept ++ [n])).trans (List.append_cons kept n names).symm

theorem names_clean (p : Path) : p.clean.names = p.names := by
  obtain ⟨ups, hsteps⟩ := steps_clean_eq p
  rw [names_eq_namesAfter, hsteps, namesAfter_ups, namesAfter_downs, List.nil_append]

/-- A name that is joined to a path is the last one, after the names of the path. -/
theorem names_join_name (base : Path) (n : Name) :
    (base.join ⟨n.bytes⟩).names = base.names ++ [n] := by
  apply names_eq_of_map
  have hinner : (base.join ⟨n.bytes⟩).inner = base.clean.inner ++ [.name n] := by
    rw [← clean_joined, inner_clean, inner_clean, settled_join_name]
  rw [map_names, hinner, List.foldl_append, List.foldl_cons, List.foldl_nil, settle,
    List.reverse_cons, ← map_names, names_clean, List.map_append]
  rfl

/-- A path that does not climb is the path down to its names when cleaned. -/
theorem clean_eq_below (hrelative : p.isAbsolute = false) (hstays : p.climbsOut = false) :
    p.clean = below p.names := by
  rw [clean, hrelative, settled_eq_names hstays, below]
  cases p.names with
  | nil => rfl
  | cons n names => rfl

section Under

/-- The path written after another one and a separator. -/
def under (base p : Path) : Path := ⟨base.bytes ++ slash :: p.bytes⟩

theorem inner_under (base p : Path) : (base.under p).inner = base.inner ++ p.inner := by
  rw [inner, under, fields_append, List.filterMap_append]
  rfl

theorem isAbsolute_under (h : base.isAbsolute = true) (p : Path) :
    (base.under p).isAbsolute = true := by
  obtain ⟨bytes⟩ := base
  cases bytes with
  | nil => cases h
  | cons b rest => exact h

/-- Components that do not climb leave alone what is below the names they start from. -/
theorem foldl_settle_append {rooted : Bool} (names : List Name) (kept : List Component)
    (h : ¬ Climbs names.length cs) :
    cs.foldl (settle rooted) (names.map .name ++ kept) =
      cs.foldl (settle rooted) (names.map .name) ++ kept := by
  induction cs generalizing names with
  | nil => rfl
  | cons c cs ih =>
    rw [List.foldl_cons, List.foldl_cons]
    cases c with
    | root => exact ih names fun hc => h (climbs_root.2 hc)
    | current => exact ih names fun hc => h (climbs_current.2 hc)
    | name n => exact ih (n :: names) fun hc => h (climbs_name.2 hc)
    | parent =>
      cases names with
      | nil => exact absurd climbs_parent_zero h
      | cons n names => exact ih names fun hc => h (climbs_parent.2 hc)

/-- A path that does not climb adds the names that remain of it to what is kept, wherever it is
settled from. -/
theorem foldl_settle_of_stays (hrelative : p.isAbsolute = false) (hstays : p.climbsOut = false)
    (rooted : Bool) (kept : List Component) :
    p.inner.foldl (settle rooted) kept = (p.names.map .name).reverse ++ kept := by
  have hclimbs := not_climbs_of_climbsOut hrelative hstays
  have htop : p.inner.foldl (settle true) [] = (p.names.map .name).reverse := by
    rw [map_names, List.reverse_reverse]
  have hnames : p.inner.foldl (settle rooted) [] = (p.names.map .name).reverse := by
    cases rooted with
    | true => exact htop
    | false => exact (foldl_settle_top [] hclimbs).symm.trans htop
  exact (@foldl_settle_append _ rooted [] kept hclimbs).trans (congrArg (· ++ kept) hnames)

theorem names_under (base : Path) (hrelative : p.isAbsolute = false)
    (hstays : p.climbsOut = false) : (base.under p).names = base.names ++ p.names := by
  apply names_eq_of_map
  rw [map_names, inner_under, List.foldl_append, foldl_settle_of_stays hrelative hstays,
    List.reverse_append, List.reverse_reverse, ← map_names, List.map_append]

/-- A path is settled from where it is joined to. -/
theorem map_names_join {names : List Name} (hempty : base.isEmpty = false)
    (hinner : base.inner = names.map .name) (hstays : (base.join p).climbsOut = false) :
    (base.join p).names.map .name =
      (p.inner.foldl (settle true) (names.reverse.map .name)).reverse := by
  obtain ⟨q, hq, hjoined, -⟩ := join_eq_clean hempty p
  rw [hq] at hstays ⊢
  have hinside : q.climbsOut = false := climbsOut_clean q ▸ hstays
  rw [← settled_eq_names hstays, settled_clean, settled_eq_names hinside, map_names, hjoined,
    hinner, List.foldl_append, foldl_settle_names, List.append_nil, List.map_reverse]

/-- A path that does not climb out from the last of the names leaves the first ones alone. -/
theorem names_join_append (base names : List Name)
    (hstays : ((below names).join p).climbsOut = false) :
    ((ofNames (base ++ names)).join p).names = base ++ ((below names).join p).names := by
  have hclimbs : ¬ Climbs names.reverse.length p.inner := by
    rw [List.length_reverse, ← climbs_components, ← climbsOut_join_below, hstays]
    exact Bool.false_ne_true
  have hkept := @foldl_settle_append _ true names.reverse (base.reverse.map .name) hclimbs
  rw [← List.map_append, ← List.reverse_append] at hkept
  have hempty : (ofNames (base ++ names)).isEmpty = false :=
    clean_ofNames (base ++ names) ▸ isEmpty_clean _
  have htop : ((ofNames (base ++ names)).join p).climbsOut = false :=
    climbsOut_of_isAbsolute (isAbsolute_join (isAbsolute_ofNames _) p)
  have hinner : (ofNames (base ++ names)).inner = (base ++ names).map .name := by
    rw [← clean_ofNames, inner_clean, settled_ofNames]
  apply names_eq_of_map
  rw [map_names_join hempty hinner htop, hkept, List.reverse_append,
    ← map_names_join (isEmpty_below names) (inner_below names) hstays, List.map_reverse,
    List.reverse_reverse, List.map_append]

/-- What is left of it after the path it is written after. -/
theorem remainder?_under (hbase : base.isAbsolute = true) (hrelative : p.isAbsolute = false)
    (hstays : p.climbsOut = false) : base.remainder? (base.under p) = some (below p.names) := by
  rw [remainder?_eq hbase (isAbsolute_under hbase p), names_under base hrelative hstays,
    if_pos (List.prefix_append ..), List.drop_left]

theorem clean_congr {q : Path} (habsolute : q.isAbsolute = p.isAbsolute)
    (hinner : q.inner = p.inner) : q.clean = p.clean := by
  have hsettled : q.settled = p.settled := by rw [settled_eq, settled_eq, hinner, habsolute]
  rw [clean, clean, hsettled, habsolute]

/-- What is joined to a path that is written after another one is written there with it. -/
theorem exists_join_under (hbase : base.isAbsolute = true) {q : Path}
    (h : (p.join q).isAbsolute = false) : ∃ w : Path, w.isAbsolute = false ∧
      p.join q = w.clean ∧ (base.under p).join q = (base.under w).clean := by
  obtain ⟨w, hw, hinner⟩ : ∃ w : Path, p.join q = w.clean ∧ w.inner = p.inner ++ q.inner := by
    cases hempty : p.isEmpty with
    | true => exact ⟨q, by rw [join, if_pos hempty], by rw [inner_eq_nil hempty, List.nil_append]⟩
    | false =>
      obtain ⟨w, hw, hinner, _⟩ := join_eq_clean hempty q
      exact ⟨w, hw, hinner⟩
  have hunder := isAbsolute_under hbase p
  have hempty : (base.under p).isEmpty = false := by simp [under, isEmpty]
  obtain ⟨z, hz, hinner', habsolute⟩ := join_eq_clean hempty q
  refine ⟨w, by rw [← isAbsolute_clean, ← hw, h], hw, hz.trans (clean_congr ?_ ?_)⟩
  · rw [habsolute, hunder, isAbsolute_under hbase]
  · rw [hinner', inner_under, inner_under, hinner, List.append_assoc]

end Under

section OfSteps

/-- The component that stands for a step. -/
def componentOf : Step → Component
  | .up => .parent
  | .down n => .name n

/-- The relative path that makes the steps. -/
def ofSteps (steps : List Step) : Path := ofComponents (steps.map componentOf)

theorem isInner_componentOf (steps : List Step) :
    ∀ c ∈ steps.map componentOf, c.IsInner := by
  intro c hc
  obtain ⟨step, _, rfl⟩ := List.mem_map.1 hc
  cases step with
  | up => exact isInner_parent
  | down n => exact isInner_name n

theorem isAbsolute_ofSteps (steps : List Step) : (ofSteps steps).isAbsolute = false :=
  isAbsolute_ofComponents (isInner_componentOf steps)

theorem steps_ofSteps (steps : List Step) : (ofSteps steps).steps = steps := by
  have hstep : Step.ofComponent? ∘ componentOf = some := by
    funext step
    cases step <;> rfl
  rw [steps_eq_inner, ofSteps, inner_ofComponents (isInner_componentOf steps), List.filterMap_map,
    hstep, List.filterMap_some]

theorem isInner_of_mem_inner {c : Component} (h : c ∈ p.inner) : c.IsInner := by
  obtain ⟨field, _, hfield⟩ := List.mem_filterMap.1 h
  unfold ofField? at hfield
  split at hfield
  · cases hfield
    exact isInner_parent
  · obtain ⟨n, _, rfl⟩ := Option.map_eq_some_iff.1 hfield
    exact isInner_name n

theorem map_componentOf (h : ∀ c ∈ cs, c.IsInner) :
    (cs.filterMap Step.ofComponent?).map componentOf = cs := by
  induction cs with
  | nil => rfl
  | cons c cs ih =>
    have hrest := ih fun c' hc' => h c' (List.mem_cons_of_mem _ hc')
    cases c with
    | root => exact absurd rfl (h _ (List.mem_cons_self ..)).1
    | current => exact absurd rfl (h _ (List.mem_cons_self ..)).2
    | parent => exact congrArg (Component.parent :: ·) hrest
    | name n => exact congrArg (Component.name n :: ·) hrest

/-- Every component of a relative path stands for a step, but for a `.` in the first place. -/
theorem components_eq_steps (h : p.isAbsolute = false) :
    p.components.filter (· ≠ .current) = p.steps.map componentOf := by
  have hinner : p.inner.filter (· ≠ .current) = p.inner := by
    apply List.filter_eq_self.2
    intro c hc
    simpa using (isInner_of_mem_inner hc).2
  rw [steps_eq_inner, map_componentOf fun _ hc => isInner_of_mem_inner hc, components_eq, h,
    if_neg Bool.false_ne_true]
  split
  · exact hinner
  · exact hinner

end OfSteps

/-- A path with the components of one that goes down by names is absolute and goes by these names
as well. -/
theorem of_same_ofNames {names : List Name} (h : p.same (ofNames names) = true) :
    p.isAbsolute = true ∧ .parent ∉ p.components ∧ p.names = names := by
  have hcomponents : p.components = .root :: names.map .name :=
    (of_decide_eq_true h).trans (components_ofNames names)
  have hnoParent : .parent ∉ p.components := by simp [hcomponents]
  have habsolute : p.isAbsolute = true := by
    rw [← Bool.not_eq_false]
    intro hrelative
    rw [components_eq, if_neg (Bool.eq_false_iff.1 hrelative)] at hcomponents
    split at hcomponents
    · cases (List.cons.inj hcomponents).1
    · have hroot : Component.root ∈ p.inner := hcomponents ▸ List.mem_cons_self ..
      exact (isInner_of_mem_inner hroot).1 rfl
  rw [components_eq, if_pos habsolute, inner_eq_names hnoParent] at hcomponents
  exact ⟨habsolute, hnoParent, names_eq_of_map (List.cons.inj hcomponents).2⟩

end ConfinedFs.Path
