import ConfinedFs.Proofs.Path.Components

/-!
Cleaning. What remains of a path are steps up, which an absolute path does not
have, and names after them. Such components stay as they are when they are
settled again, so that nothing is left to be cleaned in a cleaned path.
-/

namespace ConfinedFs.Path

open ConfinedFs.Bytes ConfinedFs.Component

variable {rooted : Bool} {kept : List Component}

/-- The components, last one first, are names after steps up, of which there are
none at the top. -/
def IsSettled (rooted : Bool) (kept : List Component) : Prop :=
  ∃ names : List Name, ∃ ups : Nat,
    kept = names.map .name ++ List.replicate ups .parent ∧ (rooted = true → ups = 0)

theorem IsSettled.nil (rooted : Bool) : IsSettled rooted [] := ⟨[], 0, rfl, fun _ => rfl⟩

theorem IsSettled.isInner (h : IsSettled rooted kept) {c : Component} (hc : c ∈ kept) :
    c.IsInner := by
  obtain ⟨names, ups, rfl, _⟩ := h
  rcases List.mem_append.1 hc with hname | hup
  · obtain ⟨n, _, rfl⟩ := List.mem_map.1 hname
    exact isInner_name n
  · rw [List.eq_of_mem_replicate hup]
    exact isInner_parent

theorem IsSettled.settle (h : IsSettled rooted kept) (c : Component) :
    IsSettled rooted (settle rooted kept c) := by
  obtain ⟨names, ups, rfl, hups⟩ := h
  cases c with
  | root => exact ⟨names, ups, rfl, hups⟩
  | current => exact ⟨names, ups, rfl, hups⟩
  | name n => exact ⟨n :: names, ups, rfl, hups⟩
  | parent =>
    cases names with
    | cons n names => exact ⟨names, ups, rfl, hups⟩
    | nil =>
      cases rooted with
      | true =>
        rw [hups rfl]
        exact .nil true
      | false =>
        refine ⟨[], ups + 1, ?_, fun h => nomatch h⟩
        cases ups with
        | zero => rfl
        | succ ups => rfl

theorem IsSettled.foldl (h : IsSettled rooted kept) (cs : List Component) :
    IsSettled rooted (cs.foldl (Path.settle rooted) kept) := by
  induction cs generalizing kept with
  | nil => exact h
  | cons c cs ih => exact ih (h.settle c)

/-- Names are kept. -/
theorem foldl_settle_names (rooted : Bool) (kept : List Component) (names : List Name) :
    (names.map .name).foldl (settle rooted) kept = (names.map .name).reverse ++ kept := by
  induction names generalizing kept with
  | nil => rfl
  | cons n names ih =>
    rw [List.map_cons, List.foldl_cons, ih, List.reverse_cons, List.append_assoc]
    rfl

theorem foldl_settle_replicate (ups before : Nat) :
    (List.replicate ups Component.parent).foldl (settle false) (List.replicate before .parent) =
      List.replicate (ups + before) .parent := by
  induction ups generalizing before with
  | zero => rw [Nat.zero_add]; rfl
  | succ ups ih =>
    have hstep : settle false (List.replicate before .parent) .parent =
        List.replicate (before + 1) .parent := by
      cases before <;> rfl
    rw [List.replicate_succ, List.foldl_cons, hstep, ih]
    congr 1
    omega

/-- What is settled stays as it is. -/
theorem IsSettled.foldl_reverse (h : IsSettled rooted kept) :
    kept.reverse.foldl (Path.settle rooted) [] = kept := by
  obtain ⟨names, ups, rfl, hups⟩ := h
  have hups' : (List.replicate ups Component.parent).foldl (Path.settle rooted) [] =
      List.replicate ups .parent := by
    cases rooted with
    | true =>
      rw [hups rfl]
      rfl
    | false => exact foldl_settle_replicate ups 0
  rw [List.reverse_append, List.reverse_replicate, List.foldl_append, hups', ← List.map_reverse,
    foldl_settle_names, ← List.map_reverse, List.reverse_reverse]

/-- What the first field tells is not settled. -/
theorem settled_eq (p : Path) :
    p.settled = (p.inner.foldl (settle p.isAbsolute) []).reverse := by
  rw [settled, components_eq]
  split
  · rfl
  · split
    · rfl
    · rfl

theorem isSettled_settled (p : Path) : IsSettled p.isAbsolute p.settled.reverse := by
  rw [settled_eq, List.reverse_reverse]
  exact (IsSettled.nil _).foldl p.inner

theorem isInner_of_mem_settled {p : Path} {c : Component} (h : c ∈ p.settled) : c.IsInner :=
  (isSettled_settled p).isInner (List.mem_reverse.2 h)

theorem settled_eq_self {p : Path} (h : IsSettled p.isAbsolute p.inner.reverse) :
    p.settled = p.inner := by
  have hfold := h.foldl_reverse
  rw [List.reverse_reverse] at hfold
  rw [settled_eq, hfold, List.reverse_reverse]

/-- What an absolute path comes down to are names. -/
theorem settled_of_isAbsolute {p : Path} (h : p.isAbsolute = true) :
    ∃ names : List Name, p.settled = names.map .name := by
  obtain ⟨names, ups, hsettled, hups⟩ := isSettled_settled p
  rw [hups h, List.replicate_zero, List.append_nil] at hsettled
  refine ⟨names.reverse, ?_⟩
  rw [List.map_reverse, ← hsettled, List.reverse_reverse]

section Clean

variable (p : Path)

theorem isAbsolute_clean : p.clean.isAbsolute = p.isAbsolute := by
  unfold clean
  split
  · next h => rw [isAbsolute_ofComponents_root, h]
  · next h =>
    rw [Bool.not_eq_true] at h
    split
    · rw [h]
      rfl
    · rw [isAbsolute_ofComponents fun c hc => isInner_of_mem_settled hc, h]

theorem inner_clean : p.clean.inner = p.settled := by
  have hinner : ∀ c ∈ p.settled, c.IsInner := fun c hc => isInner_of_mem_settled hc
  unfold clean
  split
  · exact inner_ofComponents_root hinner
  · split
    · next h =>
      rw [List.isEmpty_iff.1 h]
      rfl
    · exact inner_ofComponents hinner

/-- Nothing is left to be settled. -/
theorem settled_clean : p.clean.settled = p.settled := by
  rw [settled_eq_self, inner_clean]
  rw [isAbsolute_clean, inner_clean]
  exact isSettled_settled p

theorem clean_clean : p.clean.clean = p.clean := by
  rw [clean, isAbsolute_clean, settled_clean]
  rfl

theorem components_clean : p.clean.components =
    if p.isAbsolute then .root :: p.settled
    else if p.settled = [] then [.current]
    else p.settled := by
  have hinner : ∀ c ∈ p.settled, c.IsInner := fun c hc => isInner_of_mem_settled hc
  unfold clean
  split
  · exact components_ofComponents_root hinner
  · by_cases h : p.settled = []
    · rw [if_pos (List.isEmpty_iff.2 h), if_pos h]
      rfl
    · rw [if_neg fun hempty => h (List.isEmpty_iff.1 hempty), if_neg h]
      exact components_ofComponents hinner

end Clean

/-- The path of names from the top is absolute and clean. -/
theorem isAbsolute_ofNames (names : List Name) : (ofNames names).isAbsolute = true :=
  isAbsolute_ofComponents_root _

theorem settled_ofNames (names : List Name) : (ofNames names).settled = names.map .name := by
  have hinner : (ofNames names).inner = names.map .name := by
    apply inner_ofComponents_root
    intro c hc
    obtain ⟨n, _, rfl⟩ := List.mem_map.1 hc
    exact isInner_name n
  rw [settled_eq_self, hinner]
  rw [hinner]
  refine ⟨names.reverse, 0, ?_, fun _ => rfl⟩
  rw [List.replicate_zero, List.append_nil, List.map_reverse]

theorem clean_ofNames (names : List Name) : (ofNames names).clean = ofNames names := by
  rw [clean, isAbsolute_ofNames, if_pos rfl, settled_ofNames, ofNames]

/-- The names are found again in their path. -/
theorem ofNames_injective {names names' : List Name} (h : ofNames names = ofNames names') :
    names = names' := by
  have hmap : names.map Component.name = names'.map Component.name := by
    rw [← settled_ofNames, h, settled_ofNames]
  exact (List.map_inj_right fun _ _ => Component.name.inj).1 hmap

end ConfinedFs.Path
