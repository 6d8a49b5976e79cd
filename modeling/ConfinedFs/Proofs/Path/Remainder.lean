import ConfinedFs.Proofs.Path.NormalForm
import ConfinedFs.Proofs.Path.Retracing

/-!
Paths below a base. A path is at a base or below it if it leads there by the location of the base,
which is so if it is what becomes of the base joined to a path that does not climb. A path climbs if
joining it leads out of some base. What is left of a path behind its base leads from there to it;
but it is looked for among the components of both, so that nothing is found below `.`, and below
steps up more of them are.
-/

namespace ConfinedFs.Path

open ConfinedFs.Bytes ConfinedFs.Component

variable {base p r : Path} {rest : List Component}

/-- Does the path denote the location of the base or one below it? -/
structure Covers (base p : Path) : Prop where
  absolute : p.isAbsolute = base.isAbsolute
  ups : p.location.ups = base.location.ups
  down : base.location.down <:+ p.location.down

section Covers

/-- What is below a base has more names. -/
theorem covers_iff : base.Covers p ↔ p.isAbsolute = base.isAbsolute ∧
    ∃ names : List Name, p.settled = base.settled ++ names.map .name := by
  obtain ⟨ups, first, hbase, _⟩ := exists_settled_eq base
  constructor
  · rintro ⟨habsolute, hups, hdown⟩
    obtain ⟨ups', names, hp, _⟩ := exists_settled_eq p
    rw [location_of_settled hbase, location_of_settled hp] at hups hdown
    obtain rfl : ups' = ups := hups
    have hprefix : first <+: names :=
      (List.prefix_map_iff_of_injective fun _ _ => Name.ext).1 (List.reverse_suffix.1 hdown)
    obtain ⟨more, rfl⟩ := hprefix
    exact ⟨habsolute, more, by rw [hp, hbase, List.map_append, List.append_assoc]⟩
  · rintro ⟨habsolute, more, hp⟩
    have hsettled : p.settled = List.replicate ups .parent ++ (first ++ more).map .name := by
      rw [hp, hbase, List.map_append, List.append_assoc]
    refine ⟨habsolute, ?_, ?_⟩
    · rw [location_of_settled hbase, location_of_settled hsettled]
    · rw [location_of_settled hbase, location_of_settled hsettled, List.map_append,
        List.reverse_append]
      exact List.suffix_append _ _

/-- Only the components of a path count when it is joined to another one. -/
theorem join_congr (h : base.isEmpty = false) {q : Path} (hinner : q.inner = r.inner) :
    base.join q = base.join r := by
  obtain ⟨w, hw, hwinner, hwabsolute⟩ := join_eq_clean h q
  obtain ⟨z, hz, hzinner, hzabsolute⟩ := join_eq_clean h r
  rw [hw, hz]
  exact clean_congr (hwabsolute.trans hzabsolute.symm) (by rw [hwinner, hzinner, hinner])

/-- What has been joined to a base by names has them behind what remains of the base. -/
theorem join_below_eq_clean_iff {names : List Name} : base.join (below names) = p.clean ↔
    base.isAbsolute = p.isAbsolute ∧ base.settled ++ names.map .name = p.settled := by
  rw [← clean_joined, clean_eq_clean_iff, isAbsolute_join_below, settled_join_below]

/-- A relative path that does not climb is joined by the names that remain of it. -/
theorem join_eq_join_below (base : Path) (hrelative : r.isAbsolute = false)
    (hstays : r.climbsOut = false) : base.join r = base.join (below r.names) := by
  have hsettled : (base.join r).settled = base.settled ++ r.names.map .name := by
    rw [settled_join (.inr hrelative), foldl_settle_of_stays hrelative hstays,
      List.reverse_append, List.reverse_reverse, List.reverse_reverse]
  rw [← clean_joined base r]
  exact (join_below_eq_clean_iff.2 ⟨(isAbsolute_joined (.inr hrelative)).symm, hsettled.symm⟩).symm

/-- What is at a base or below it can be joined to the base. -/
theorem covers_iff_exists_join : base.Covers p ↔
    ∃ r : Path, r.isAbsolute = false ∧ r.climbsOut = false ∧ base.join r = p.clean := by
  rw [covers_iff]
  constructor
  · rintro ⟨habsolute, names, hsettled⟩
    exact ⟨below names, isAbsolute_below names, climbsOut_of_inner (inner_below names),
      join_below_eq_clean_iff.2 ⟨habsolute.symm, hsettled.symm⟩⟩
  · rintro ⟨r, hrelative, hstays, hjoin⟩
    rw [join_eq_join_below base hrelative hstays] at hjoin
    obtain ⟨habsolute, hsettled⟩ := join_below_eq_clean_iff.1 hjoin
    exact ⟨habsolute.symm, r.names, hsettled.symm⟩

end Covers

section Crossing

/-- A path that does not climb stays below every base that it is joined to. -/
theorem covers_join_clean (hbase : base.isAbsolute = true) (hstays : p.climbsOut = false) :
    base.Covers (base.join p.clean) := by
  have hinner : p.clean.inner = (below p.names).inner := by
    rw [inner_clean, inner_below, settled_eq_names hstays]
  rw [join_congr (isEmpty_of_isAbsolute hbase) hinner, covers_iff]
  exact ⟨isAbsolute_join_below base p.names, p.names, settled_join_below base p.names⟩

/-- From below a single name a path that climbs leads past it. -/
theorem names_join_of_climbsOut (h : p.climbsOut = true) (n : Name) :
    ((ofNames [n]).join p.clean).names = p.names := by
  obtain ⟨rest, hsettled⟩ := settled_of_climbs (climbsOut_iff.1 h).1
    ((climbs_components p).1 (climbsOut_iff.1 h).2)
  have hempty : (ofNames [n]).isEmpty = false := rfl
  have hinner : (ofNames [n]).inner = [n].map .name := by
    rw [← clean_ofNames, inner_clean, settled_ofNames]
  have htop : ((ofNames [n]).join p.clean).climbsOut = false :=
    climbsOut_of_isAbsolute (isAbsolute_join (isAbsolute_ofNames _) _)
  -- The first step up takes the name back, and at the top it would have been dropped.
  apply names_eq_of_map
  rw [map_names_join hempty hinner htop, ← names_clean p, map_names, inner_clean, hsettled]
  rfl

/-- The check is exact. It holds of the relative paths that have, up to some component, more steps
up than names, and these are the paths that lead out of some base from the top. -/
theorem climbsOut_exact (p : Path) :
    (p.climbsOut = true ↔ p.isAbsolute = false ∧
      ∃ cs, cs <+: p.components ∧ cs.countP Component.isName < cs.count .parent) ∧
    (p.climbsOut = true ↔
      ∃ base : Path, base.isAbsolute = true ∧ ¬ base.Covers (base.join p.clean)) := by
  refine ⟨?_, fun h => ?_, ?_⟩
  · simpa only [Climbs, Nat.zero_add] using climbsOut_iff
  · obtain ⟨n, hn⟩ : ∃ n : Name, p.names.head? ≠ some n := by
      by_cases hfirst : p.names.head? = some ⟨[97], rfl⟩
      · exact ⟨⟨[98], rfl⟩, by rw [hfirst]; decide⟩
      · exact ⟨⟨[97], rfl⟩, hfirst⟩
    refine ⟨ofNames [n], isAbsolute_ofNames [n], fun hcovers => ?_⟩
    obtain ⟨habsolute, names, hsettled⟩ := covers_iff.1 hcovers
    rw [settled_eq_names (climbsOut_of_isAbsolute habsolute), names_join_of_climbsOut h,
      settled_ofNames, ← List.map_append] at hsettled
    exact hn (by rw [names_eq_of_map hsettled]; rfl)
  · rintro ⟨base, hbase, hleaves⟩
    rw [← Bool.not_eq_false]
    exact fun hstays => hleaves (covers_join_clean hbase hstays)

end Crossing

section Remainder

/-- The path leads from the base to the other one, though perhaps by steps up. -/
structure Leads (base r p : Path) : Prop where
  relative : r.isAbsolute = false
  absolute : p.isAbsolute = base.isAbsolute
  settled : p.settled = base.settled ++ r.inner

theorem Leads.join_eq (h : base.Leads r p) : base.join r = p.clean := by
  cases hempty : base.isEmpty with
  | true =>
    have hbase : base = ⟨[]⟩ := congrArg Path.mk (List.isEmpty_iff.1 hempty)
    have hsettled : p.settled = r.inner := by rw [h.settled, hbase]; rfl
    have hrelative : p.isAbsolute = false := by rw [h.absolute, hbase]; rfl
    have hkept := isSettled_settled p
    rw [hsettled, hrelative, ← h.relative] at hkept
    rw [join, if_pos hempty, clean_eq_clean_iff, settled_eq_self hkept, hsettled, hrelative]
    exact ⟨h.relative, rfl⟩
  | false =>
    obtain ⟨w, hw, hinner, habsolute⟩ := join_eq_clean hempty r
    have hbase := (isSettled_settled base).foldl_reverse
    have hp := (isSettled_settled p).foldl_reverse
    have hsettled : w.settled = p.settled := by
      rw [List.reverse_reverse] at hbase hp
      rw [h.absolute, h.settled, List.foldl_append, hbase, ← h.settled] at hp
      rw [settled_eq, hinner, habsolute, List.foldl_append,
        ← List.reverse_reverse (base.inner.foldl _ _), ← settled_eq, hp, List.reverse_reverse]
    rw [hw, clean_eq_clean_iff]
    exact ⟨habsolute.trans h.absolute.symm, hsettled⟩

/-- A clean path starts with the components of another one if what remains of it does, and both
are absolute or none is; but `.` is found at the start of `.` only. -/
theorem components_eq_append_iff : p.clean.components = base.clean.components ++ rest ↔
    p.isAbsolute = base.isAbsolute ∧ p.settled = base.settled ++ rest ∧
      (base.clean = here → p.clean = here) := by
  have hinner : ∀ {q : Path} {c : Component} {cs : List Component}, q.settled = c :: cs →
      c.IsInner := fun hq => isInner_of_mem_settled (hq ▸ List.mem_cons_self ..)
  rw [components_clean, components_clean, clean_eq_here_iff, clean_eq_here_iff]
  cases hb : base.isAbsolute with
  | true =>
    cases hp : p.isAbsolute with
    | true => simp
    | false =>
      cases hs : p.settled with
      | nil => simp
      | cons c cs => simp [(hinner hs).1]
  | false =>
    cases hp : p.isAbsolute with
    | true =>
      cases hs : base.settled with
      | nil => simp
      | cons c cs => simp [(hinner hs).1.symm]
    | false =>
      cases hs : base.settled with
      | nil =>
        cases ht : p.settled with
        | nil => simp [eq_comm]
        | cons c cs => simp [(hinner ht).2]
      | cons c cs =>
        cases ht : p.settled with
        | nil => simp [(hinner hs).2.symm]
        | cons d ds => simp

theorem remainder?_of_components (h : p.clean.components = base.clean.components ++ rest) :
    base.remainder? p = some (if rest = [] then here else ofComponents rest) := by
  have hprefix : base.clean.components.isPrefixOf p.clean.components = true :=
    List.isPrefixOf_iff_prefix.2 (h ▸ List.prefix_append _ _)
  simp only [remainder?]
  rw [if_pos hprefix, h, List.drop_left]
  cases rest with
  | nil => rfl
  | cons c cs => rfl

/-- Something is found behind the base if the clean path starts with the components of the clean
base. -/
theorem isSome_remainder?_iff : (base.remainder? p).isSome = true ↔
    ∃ rest, p.clean.components = base.clean.components ++ rest := by
  constructor
  · intro h
    simp only [remainder?] at h
    split at h
    · next hprefix =>
      obtain ⟨rest, hrest⟩ := List.isPrefixOf_iff_prefix.1 hprefix
      exact ⟨rest, hrest.symm⟩
    · cases h
  · rintro ⟨rest, hrest⟩
    rw [remainder?_of_components hrest]
    rfl

/-- What is found leads from the base to the path. -/
theorem leads_of_remainder? (h : base.remainder? p = some r) : base.Leads r p := by
  obtain ⟨rest, hrest⟩ := isSome_remainder?_iff.1 (Option.isSome_of_eq_some h)
  obtain ⟨habsolute, hsettled, -⟩ := components_eq_append_iff.1 hrest
  have hinner : ∀ c ∈ rest, c.IsInner := fun c hc =>
    isInner_of_mem_settled (hsettled ▸ List.mem_append_right _ hc)
  rw [remainder?_of_components hrest] at h
  obtain rfl := Option.some.inj h
  split
  · next hnil =>
    rw [hnil] at hsettled
    exact ⟨rfl, habsolute, hsettled⟩
  · refine ⟨isAbsolute_ofComponents hinner, habsolute, ?_⟩
    rw [inner_ofComponents hinner, hsettled]

/-- Behind a base that covers the path are names only. -/
theorem climbsOut_remainder? (h : base.remainder? p = some r) :
    r.climbsOut = false ↔ base.Covers p := by
  have hleads := leads_of_remainder? h
  constructor
  · exact fun hstays => covers_iff_exists_join.2 ⟨r, hleads.relative, hstays, hleads.join_eq⟩
  · intro hcovers
    obtain ⟨-, names, hsettled⟩ := covers_iff.1 hcovers
    exact climbsOut_of_inner (List.append_cancel_left (hleads.settled.symm.trans hsettled))

/-- What remains of a base is what a path starts with if the base covers the path, and besides if
the base is nothing but steps up, of which the path has more. -/
theorem settled_prefix_iff (habsolute : p.isAbsolute = base.isAbsolute) :
    (∃ rest, p.settled = base.settled ++ rest) ↔
      base.Covers p ∨ base.location.down = [] ∧ base.location.ups < p.location.ups := by
  obtain ⟨ups, first, hbase, _⟩ := exists_settled_eq base
  obtain ⟨ups', names, hp, _⟩ := exists_settled_eq p
  rw [location_of_settled hbase, location_of_settled hp]
  constructor
  · rintro ⟨rest, hrest⟩
    -- Either all that comes behind the base are names, or the base ends among the steps up.
    rcases List.append_eq_append_iff.1 (hp.symm.trans hrest) with
      ⟨more, -, hnames⟩ | ⟨more, hups, _⟩
    · obtain ⟨_, last, -, -, rfl⟩ := List.map_eq_append_iff.1 hnames
      exact .inl (covers_iff.2 ⟨habsolute, last, hrest⟩)
    · rw [hbase] at hups
      have hfirst : first = [] := by
        cases first with
        | nil => rfl
        | cons n first =>
          have hmem : Component.name n ∈ List.replicate ups' Component.parent := by simp [hups]
          cases List.eq_of_mem_replicate hmem
      subst hfirst
      have hlength : ups' = ups + more.length := by simpa using congrArg List.length hups
      by_cases hmore : more = []
      · rw [hmore, List.length_nil, Nat.add_zero] at hlength
        refine .inl ⟨habsolute, ?_, ?_⟩
        · rw [location_of_settled hbase, location_of_settled hp, hlength]
        · rw [location_of_settled hbase]
          exact List.nil_suffix
      · have hpos : 0 < more.length := List.length_pos_iff.2 hmore
        have hless : ups < ups' := by omega
        exact .inr ⟨rfl, hless⟩
  · rintro (hcovers | ⟨hdown, hups⟩)
    · obtain ⟨-, more, hmore⟩ := covers_iff.1 hcovers
      exact ⟨_, hmore⟩
    · have hnil : first = [] := by simpa using hdown
      refine ⟨List.replicate (ups' - ups) .parent ++ names.map .name, ?_⟩
      rw [hp, hbase, hnil, List.map_nil, List.append_nil, ← List.append_assoc,
        List.replicate_append_replicate, Nat.add_sub_cancel' (Nat.le_of_lt hups)]

theorem isSome_remainder?_iff_covers : (base.remainder? p).isSome = true ↔
    base.Covers p ∧ (base.clean = here → p.clean = here) ∨
    base.location.down = [] ∧ 0 < base.location.ups ∧ base.location.ups < p.location.ups := by
  rw [isSome_remainder?_iff]
  simp only [components_eq_append_iff]
  constructor
  · rintro ⟨rest, habsolute, hsettled, hblank⟩
    rcases (settled_prefix_iff habsolute).1 ⟨rest, hsettled⟩ with hcovers | ⟨hdown, hups⟩
    · exact .inl ⟨hcovers, hblank⟩
    · refine .inr ⟨hdown, ?_, hups⟩
      -- A base that does not go up is `.`, behind which is no step up either, or the top.
      rw [Nat.pos_iff_ne_zero]
      intro hzero
      cases hbase : base.isAbsolute with
      | true =>
        rw [location_ups_of_isAbsolute (habsolute.trans hbase)] at hups
        cases hups
      | false =>
        have hhere : base.clean = here :=
          clean_eq_here_iff_location.2 ⟨hbase, by rw [← hzero, ← hdown]⟩
        rw [(clean_eq_here_iff_location.1 (hblank hhere)).2] at hups
        cases hups
  · rintro (⟨hcovers, hblank⟩ | ⟨hdown, hpos, hups⟩)
    · obtain ⟨habsolute, names, hsettled⟩ := covers_iff.1 hcovers
      exact ⟨_, habsolute, hsettled, hblank⟩
    · have hrelative : ∀ {q : Path}, 0 < q.location.ups → q.isAbsolute = false := fun hq => by
        rw [Bool.eq_false_iff]
        intro habsolute
        rw [location_ups_of_isAbsolute habsolute] at hq
        cases hq
      have habsolute : p.isAbsolute = base.isAbsolute := by
        rw [hrelative hpos, hrelative (Nat.lt_trans hpos hups)]
      obtain ⟨rest, hsettled⟩ := (settled_prefix_iff habsolute).2 (.inr ⟨hdown, hups⟩)
      refine ⟨rest, habsolute, hsettled, fun hhere => ?_⟩
      rw [(clean_eq_here_iff_location.1 hhere).2] at hpos
      cases hpos

/-- What is left of a path behind a base. A path is at the base or below it if the base can be
joined to one that does not climb, and this is what is found; but below `.` only `.` itself is, and
behind steps up, of which the path has more, what is found climbs. -/
theorem remainder?_exact (base p : Path) :
    (base.Covers p ↔
      ∃ r : Path, r.isAbsolute = false ∧ r.climbsOut = false ∧ base.join r = p.clean) ∧
    ((base.remainder? p).isSome = true ↔
      base.Covers p ∧ (base.clean = here → p.clean = here) ∨
      base.location.down = [] ∧ 0 < base.location.ups ∧ base.location.ups < p.location.ups) ∧
    (∀ r, base.remainder? p = some r → r.isAbsolute = false ∧ base.join r = p.clean ∧
      (r.climbsOut = false ↔ base.Covers p)) ∧
    (base.remainder? p = some here ↔ base.clean = p.clean) := by
  refine ⟨covers_iff_exists_join, isSome_remainder?_iff_covers, fun r hr => ?_, ?_⟩
  · have hleads := leads_of_remainder? hr
    exact ⟨hleads.relative, hleads.join_eq, climbsOut_remainder? hr⟩
  · constructor
    · intro hfound
      have hjoined : base.join (below []) = base.clean :=
        join_below_eq_clean_iff.2 ⟨rfl, List.append_nil _⟩
      rw [← hjoined]
      exact (leads_of_remainder? hfound).join_eq
    · intro hclean
      have hwhole : p.clean.components = base.clean.components ++ [] := by
        rw [hclean, List.append_nil]
      rw [remainder?_of_components hwhole, if_pos rfl]

/-- Two steps up are no place below one, but there is something left of them, and `a` is below `.`
and nothing is left of it. -/
theorem remainder?_astray :
    (∃ r, up.remainder? ⟨[46, 46, 47, 46, 46]⟩ = some r ∧ r.climbsOut = true) ∧
    (¬ ∃ r : Path, r.isAbsolute = false ∧ r.climbsOut = false ∧
      up.join r = clean ⟨[46, 46, 47, 46, 46]⟩) ∧
    here.remainder? ⟨[97]⟩ = none ∧
    ∃ r : Path, r.isAbsolute = false ∧ r.climbsOut = false ∧ here.join r = clean ⟨[97]⟩ := by
  refine ⟨⟨up, by decide, by decide⟩, ?_, by decide, ⟨[97]⟩, by decide, by decide, by decide⟩
  rw [← covers_iff_exists_join]
  rintro ⟨-, hups, -⟩
  exact absurd hups (by decide)

end Remainder

end ConfinedFs.Path
