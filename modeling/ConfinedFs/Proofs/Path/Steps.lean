import ConfinedFs.Memory.Resolve
import ConfinedFs.Proofs.Path.Names

/-!
The moves of paths that never go up. They are steps down to the names of the path, and
such paths can be cut off after any of them.
-/

namespace ConfinedFs.Path

open ConfinedFs.Bytes ConfinedFs.Component

variable {names : List Name} {p q : Path}

/-- What a path starts with is no move. -/
theorem steps_eq_inner (p : Path) : p.steps = p.inner.filterMap Step.ofComponent? := by
  rw [steps, components_eq]
  split
  · rfl
  · split <;> rfl

theorem filterMap_ofComponent? (names : List Name) :
    (names.map Component.name).filterMap Step.ofComponent? = names.map .down := by
  rw [List.filterMap_map]
  exact congrFun List.filterMap_eq_map' names

theorem steps_ofNames (names : List Name) : (ofNames names).steps = names.map .down := by
  rw [steps, components_ofNames]
  exact filterMap_ofComponent? names

theorem steps_below (names : List Name) : (below names).steps = names.map .down := by
  rw [steps_eq_inner, inner_below, filterMap_ofComponent?]

/-- Steps up stand where names do. -/
theorem parent_mem_components_iff : Component.parent ∈ p.components ↔ .parent ∈ p.inner := by
  rw [components_eq]
  split
  · simp
  · split <;> simp

theorem noParent_of_inner (h : p.inner = names.map .name) : .parent ∉ p.components := by
  rw [parent_mem_components_iff, h]
  simp

/-- Nothing remains to be settled. -/
theorem inner_eq_names (h : .parent ∉ p.components) : p.inner = p.names.map .name := by
  have hnames : ∀ cs : List Component, (∀ c ∈ cs, c.isName = true) →
      ∃ names : List Name, cs = names.map .name := by
    intro cs hcs
    induction cs with
    | nil => exact ⟨[], rfl⟩
    | cons c cs ih =>
      obtain ⟨names, rfl⟩ := ih fun c' hc' => hcs c' (List.mem_cons_of_mem _ hc')
      cases c with
      | name n => exact ⟨n :: names, rfl⟩
      | root | current | parent => exact absurd (hcs _ (List.mem_cons_self ..)) nofun
  have hinner : ∀ c ∈ p.inner, c.isName = true := by
    intro c hc
    obtain ⟨field, _, hfield⟩ := List.mem_filterMap.1 hc
    have hne : c ≠ .parent := fun heq => h (parent_mem_components_iff.2 (heq ▸ hc))
    unfold ofField? at hfield
    split at hfield
    · cases hfield
      exact absurd rfl hne
    · obtain ⟨n, _, rfl⟩ := Option.map_eq_some_iff.1 hfield
      rfl
  obtain ⟨names, hp⟩ := hnames p.inner hinner
  rw [hp, names_of_inner hp]

/-- A path without steps up goes down to its names. -/
theorem steps_eq_names (h : .parent ∉ p.components) : p.steps = p.names.map .down := by
  rw [steps_eq_inner, inner_eq_names h, filterMap_ofComponent?]

theorem settled_eq_of_noParent (h : .parent ∉ p.components) : p.settled = p.names.map .name := by
  rw [settled_eq, inner_eq_names h, foldl_settle_names, List.append_nil, List.reverse_reverse]

/-- Cleaning leaves the moves of a path alone if none of them leads up. -/
theorem steps_clean_of_up_notMem (h : Step.up ∉ p.steps) : p.clean.steps = p.steps := by
  have hparent : .parent ∉ p.components :=
    fun hmem => h (List.mem_filterMap.2 ⟨.parent, hmem, rfl⟩)
  rw [steps_eq_inner, steps_eq_inner, inner_clean, settled_eq_of_noParent hparent,
    inner_eq_names hparent]

section JoinBelow

/-- Names that are joined to a path stay after what remains of it. -/
theorem settled_join_below (base : Path) (names : List Name) :
    (base.join (below names)).settled = base.settled ++ names.map .name := by
  rw [settled_join (.inr (isAbsolute_below names)), inner_below, foldl_settle_names,
    List.reverse_append, List.reverse_reverse, List.reverse_reverse]

theorem isAbsolute_join_below (base : Path) (names : List Name) :
    (base.join (below names)).isAbsolute = base.isAbsolute :=
  isAbsolute_joined (.inr (isAbsolute_below names))

/-- To join names in two parts is to join them all. -/
theorem join_below_append (base : Path) (names names' : List Name) :
    (base.join (below names)).join (below names') = base.join (below (names ++ names')) := by
  rw [← clean_joined _ (below names'), ← clean_joined _ (below (names ++ names')), clean, clean]
  simp only [settled_join_below, isAbsolute_join_below, List.map_append, List.append_assoc]

/-- A name that is joined to a path stays after what remains of it. -/
theorem settled_join_name (base : Path) (n : Name) :
    (base.join ⟨n.bytes⟩).settled = base.settled ++ [.name n] := settled_join_below base [n]

end JoinBelow

theorem climbsOut_join_name {base : Path} (h : base.climbsOut = false) (n : Name) :
    (base.join ⟨n.bytes⟩).climbsOut = false := by
  obtain ⟨names, hnames⟩ := settled_of_not_climbsOut h
  rw [climbsOut, components_clean, settled_join_name, hnames]
  split
  · rfl
  · cases names <;> rfl

/-- A name that is joined to a path is one more move down after those of the cleaned path. -/
theorem steps_join_name (base : Path) (n : Name) :
    (base.join ⟨n.bytes⟩).steps = base.clean.steps ++ [.down n] := by
  have hinner : (base.join ⟨n.bytes⟩).inner = base.settled ++ [.name n] := by
    rw [← clean_joined, inner_clean, settled_join_name]
  rw [steps_eq_inner, steps_eq_inner, hinner, inner_clean, List.filterMap_append]
  rfl

/-- A relative path without steps up. -/
structure Descends (p : Path) : Prop where
  relative : p.isAbsolute = false
  noParent : .parent ∉ p.components

theorem descends_below (names : List Name) : (below names).Descends :=
  ⟨isAbsolute_below names, noParent_of_inner (inner_below names)⟩

theorem Descends.clean_eq (h : p.Descends) : p.clean = below p.names := by
  rw [clean, h.relative, settled_eq_of_noParent h.noParent, below]
  cases p.names with
  | nil => rfl
  | cons n names => rfl

theorem Descends.dirName_eq (h : p.Descends) : p.dirName = below p.names.dropLast := by
  rw [← dirName_below, dirName, dirName, h.clean_eq, clean_below]

/-- What an absolute path has after another one are names. -/
theorem descends_of_remainder? {base : Path} (h : p.isAbsolute = true)
    (hq : base.remainder? p = some q) : q.Descends := by
  have hstart : base.clean.components ≠ [] := by
    rw [components_clean]
    split
    · exact List.cons_ne_nil _ _
    · split
      · exact List.cons_ne_nil _ _
      · assumption
  unfold remainder? at hq
  rw [components_clean_of_isAbsolute h] at hq
  obtain ⟨c, start, hcs⟩ := List.exists_cons_of_ne_nil hstart
  simp only [hcs, List.length_cons, List.drop_succ_cons, ← List.map_drop] at hq
  split at hq
  · split at hq
    · cases hq
      exact descends_below []
    · next hne =>
      cases hq
      have hbelow : ofComponents ((p.names.drop start.length).map .name) =
          below (p.names.drop start.length) := by
        rw [below, if_neg]
        intro hnil
        exact hne (by rw [hnil]; rfl)
      rw [hbelow]
      exact descends_below _
  · cases hq

/-- A path that leads to a name ends in it: no separator and no `.` comes after it. -/
def EndsInName (p : Path) : Prop :=
  ∀ n, p.steps.getLast? = some (.down n) → (fields slash p.bytes).getLast? = some n.bytes

theorem endsInName_ofNames (names : List Name) : (ofNames names).EndsInName := by
  intro n hlast
  rw [steps_ofNames] at hlast
  rcases List.eq_nil_or_concat names with rfl | ⟨names, m, rfl⟩
  · cases hlast
  · have hname : m = n := by simpa using hlast
    subst hname
    have hne : names.concat m ≠ [] := by simp
    rw [fields_ofNames _ hne]
    simp [List.getLast?_cons]

/-- Does the second path go on, downwards, where the first one ends? -/
def LeadsTo (p q : Path) : Prop :=
  q.isAbsolute = false ∧ ∃ names : List Name, q.steps = p.steps ++ names.map .down

theorem Descends.below_leadsTo (h : p.Descends) (hstarts : names <+: p.names) :
    (below names).LeadsTo p := by
  obtain ⟨rest, hrest⟩ := hstarts
  exact ⟨h.relative, rest, by rw [steps_below, steps_eq_names h.noParent, ← hrest, List.map_append]⟩

section Push

/-- The components of a relative path come after those of the path before it. -/
theorem inner_push (p : Path) (h : q.isAbsolute = false) :
    (p.push q).inner = p.inner ++ q.inner := by
  have hjoined : ∀ a b : Bytes, (⟨a ++ slash :: b⟩ : Path).inner =
      (⟨a⟩ : Path).inner ++ (⟨b⟩ : Path).inner := by
    intro a b
    rw [inner, inner, inner, fields_append, List.filterMap_append]
  rw [push, if_neg (by rw [h]; exact Bool.false_ne_true)]
  split
  · next hends =>
    rw [Bool.or_eq_true, beq_iff_eq] at hends
    rcases hends with hempty | hslash
    · have hbytes : p.bytes = [] := List.isEmpty_iff.1 hempty
      have hnil : p.inner = [] := by
        rw [inner, hbytes]
        rfl
      rw [hbytes, List.nil_append, hnil, List.nil_append]
    · obtain ⟨before, hbefore⟩ := List.getLast?_eq_some_iff.1 hslash
      have hfirst : p.inner = (⟨before⟩ : Path).inner ++ (⟨[]⟩ : Path).inner := by
        rw [← hjoined, ← hbefore]
      have hnil : (⟨[]⟩ : Path).inner = [] := rfl
      rw [hbefore, List.append_assoc, List.singleton_append, hjoined, hfirst, hnil, List.append_nil]
  · exact hjoined p.bytes q.bytes

theorem steps_push (p : Path) (h : q.isAbsolute = false) :
    (p.push q).steps = p.steps ++ q.steps := by
  rw [steps_eq_inner, steps_eq_inner, steps_eq_inner, inner_push p h, List.filterMap_append]

theorem isAbsolute_push (p : Path) (h : q.isAbsolute = false) :
    (p.push q).isAbsolute = p.isAbsolute := by
  rw [push, if_neg (by rw [h]; exact Bool.false_ne_true)]
  cases hbytes : p.bytes with
  | nil => simpa [isEmpty, isAbsolute, hbytes] using h
  | cons b rest => split <;> simp [isAbsolute, hbytes]

/-- What a path is when cleaned decides what it is with another one after it. -/
theorem clean_push_congr {p' : Path} (h : p'.clean = p.clean) (hq : q.isAbsolute = false) :
    (p'.push q).clean = (p.push q).clean := by
  have habsolute : p'.isAbsolute = p.isAbsolute := by
    rw [← isAbsolute_clean, h, isAbsolute_clean]
  have hkept : p'.inner.foldl (settle p.isAbsolute) [] =
      p.inner.foldl (settle p.isAbsolute) [] := by
    have hsettled : p'.settled = p.settled := by
      rw [← settled_clean, h, settled_clean]
    rw [settled_eq, settled_eq, habsolute] at hsettled
    exact List.reverse_inj.1 hsettled
  have hpushed : (p'.push q).settled = (p.push q).settled := by
    rw [settled_eq, settled_eq, isAbsolute_push p' hq, isAbsolute_push p hq, inner_push p' hq,
      inner_push p hq, List.foldl_append, List.foldl_append, habsolute, hkept]
  rw [clean, clean, isAbsolute_push p' hq, isAbsolute_push p hq, hpushed, habsolute]

/-- Names that are written after a path without steps up come after its names. -/
theorem names_push (h : .parent ∉ p.components) (names : List Name) :
    (p.push (ofComponents (names.map .name))).names = p.names ++ names := by
  have hinner : ∀ c ∈ names.map Component.name, c.IsInner := fun _ hc =>
    isInner_of_mem_names names hc
  apply names_of_inner
  rw [inner_push p (isAbsolute_ofComponents hinner), inner_ofComponents hinner, inner_eq_names h,
    List.map_append]

theorem components_push (h : p.isAbsolute = true) (hparent : .parent ∉ p.components)
    (names : List Name) : (p.push (ofComponents (names.map .name))).components =
      .root :: (p.names ++ names).map .name := by
  have hinner : ∀ c ∈ names.map Component.name, c.IsInner := fun _ hc =>
    isInner_of_mem_names names hc
  rw [components_eq, isAbsolute_push p (isAbsolute_ofComponents hinner), if_pos h,
    inner_push p (isAbsolute_ofComponents hinner), inner_ofComponents hinner,
    inner_eq_names hparent, List.map_append]

end Push

end ConfinedFs.Path
