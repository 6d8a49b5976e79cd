import ConfinedFs.Proofs.Rooted.Location
import ConfinedFs.Proofs.Rooted.Respelling

/-!
Making a directory and every missing one on the way. Each stage of the path is looked up anew, in
the tree that the stages before it have left, so a link or a step up may take it anywhere. But trees
only gain directories meanwhile: what a stage has led to it still leads to at the end. So all that
is new, whatever comes of it, are directories at the ends of stages; and if nothing fails every
stage leads to a directory, and there is nothing left to make.
-/

namespace ConfinedFs.Root

open ConfinedFs.Os ConfinedFs.Path
open ConfinedFs.Action (Triple)

variable {r : Root} {t u v : Tree} {p q : Path} {l : Endpoint} {n : Name} {dir i : NodeId}
  {paths first rest : List Path} {followLast : Bool}

section Holding

theorem present_of_statEndpoint {s : Stat} (h : statEndpoint l t = (.ok s, t)) : Present t l := by
  intro n hname
  rw [statEndpoint_apply hname] at h
  have hstat := ok_of_mapError (Prod.mk.inj h).1
  exact ⟨s, by rw [statIn, hstat]⟩

/-- A directory that a path leads to is not lost by making others. -/
theorem HoldsDir.gains (h : r.HoldsDir t p) (hgains : t.Gains u) : r.HoldsDir u p := by
  obtain ⟨s, hstat, hdir⟩ := h
  obtain ⟨l, hl, hstat⟩ := stat_eq_ok hstat
  have hwalk := walk_again hgains hl (present_of_statEndpoint hstat)
  obtain ⟨place, hplace, hfound⟩ := statEndpoint_eq_ok_iff.1 hstat
  have hstat' := statEndpoint_eq_ok_iff.2 ⟨place, hplace, hgains.statAt hfound⟩
  exact ⟨s, stat_of_walk hwalk hstat', hdir⟩

/-- Paths of the same steps lead to the same place. -/
theorem walk_of_steps (hp : p.isAbsolute = false) (hq : q.isAbsolute = false)
    (hsteps : p.steps = q.steps) (hl : r.walk t p followLast = .ok l) :
    r.walk t q followLast = .ok l := by
  have hsame := walk_withoutPath (r := r) hp t followLast
  rw [hsteps, ← walk_withoutPath hq t followLast, hl] at hsame
  exact ok_of_mapError hsame.symm

theorem HoldsDir.of_steps (h : r.HoldsDir t p) (hp : p.isAbsolute = false)
    (hq : q.isAbsolute = false) (hsteps : p.steps = q.steps) : r.HoldsDir t q := by
  obtain ⟨s, hstat, hdir⟩ := h
  obtain ⟨l, hl, hstat⟩ := stat_eq_ok hstat
  exact ⟨s, stat_of_walk (walk_of_steps hp hq hsteps hl) hstat, hdir⟩

end Holding

section Lying

/-- The path leads to a directory by its name in another one, whether or not a link in the last
place is followed. -/
structure LiesAt (r : Root) (t : Tree) (p : Path) (dir : NodeId) (n : Name) (i : NodeId) :
    Prop where
  ends : ∀ followLast, ∃ l, r.walk t p followLast = .ok l ∧ l.dir = dir ∧ l.name = some n
  lookup : t.lookup dir n = .ok i
  isDir : t.isDir i = true

/-- A walk that has ended at a name has been told of what the system finds under it. -/
theorem present_of_lookup (hl : r.walk t p followLast = .ok l) (hname : l.name = some n)
    (hi : t.lookup l.dir n = .ok i) : Present t l := by
  intro m hm
  obtain ⟨found, hfound, -⟩ := answered_of_walk hl m hm
  cases hname.symm.trans hm
  cases found with
  | some s => exact ⟨s, hfound⟩
  | none =>
    rw [lookup_of_statIn_none hfound] at hi
    cases hi

theorem LiesAt.gains (h : r.LiesAt t p dir n i) (hgains : t.Gains u) : r.LiesAt u p dir n i := by
  refine ⟨fun followLast => ?_, hgains.lookup h.lookup, hgains.isDir h.isDir⟩
  obtain ⟨l, hl, rfl, hname⟩ := h.ends followLast
  exact ⟨l, walk_again hgains hl (present_of_lookup hl hname h.lookup), rfl, hname⟩

theorem LiesAt.holdsDir (h : r.LiesAt t p dir n i) : r.HoldsDir t p := by
  obtain ⟨l, hl, rfl, hname⟩ := h.ends true
  obtain ⟨s, hfound⟩ := present_of_lookup hl hname h.lookup n hname
  have hplace := (lookup_of_statIn hfound).1
  obtain ⟨s', hstat, -, hdir⟩ := statIn_of_isDir hplace h.lookup h.isDir
  refine ⟨s', stat_of_walk hl ?_, hdir⟩
  rw [statEndpoint_apply hname, statAt_of_statIn hstat]
  rfl

/-- Where a directory has been made at the end of a walk, both ways to walk end from then on. -/
theorem liesAt_of_gainsDir (hl : r.walk t p false = .ok l) (hname : l.name = some n)
    (hplace : Tree.placeIn l.dir n = .ok (.entry l.dir n)) (h : t.GainsDir u l.dir n i) :
    r.LiesAt u p l.dir n i := by
  refine ⟨fun followLast => ?_, h.lookup, h.isDir⟩
  obtain ⟨s, hstat, hlink, -⟩ := statIn_of_isDir hplace h.lookup h.isDir
  unfold walk at hl ⊢
  split at hl
  · cases hl
  · next hrelative =>
    obtain ⟨trail, jump, hcurrent, hresumed⟩ := walkWithin_follows h.gains r _
      (.pathEscapesParent p) followLast linkLimit _ [] l n hl hname []
    rw [List.append_nil] at hresumed
    rw [if_neg hrelative, hresumed]
    rw [← hcurrent] at hstat
    refine ⟨r.endpoint trail (some n), ?_, hcurrent, rfl⟩
    simp [advance, hstat, hlink, bind, Except.bind]

end Lying

section Building

/-- The tree has gained directories only, and each is where one of the paths leads. -/
structure Built (r : Root) (t : Tree) (paths : List Path) (u : Tree) : Prop where
  gained : Call.Gained t u
  placed : ∀ {dir n i}, u.HasEntry dir n i →
    t.HasEntry dir n i ∨ ∃ q ∈ paths, r.LiesAt u q dir n i

theorem Built.refl (ht : t.Sound) : r.Built t paths t := ⟨⟨.refl t, ht⟩, .inl⟩

theorem Built.trans (h : r.Built t first u) (h' : r.Built u rest v) :
    r.Built t (first ++ rest) v := by
  refine ⟨⟨h.gained.1.trans h'.gained.1, h'.gained.2⟩, fun hentry => ?_⟩
  rcases h'.placed hentry with hold | ⟨q, hq, hlies⟩
  · rcases h.placed hold with hold | ⟨q, hq, hlies⟩
    · exact .inl hold
    · exact .inr ⟨q, List.mem_append_left _ hq, hlies.gains h'.gained.1⟩
  · exact .inr ⟨q, List.mem_append_right _ hq, hlies⟩

theorem triple_mkdir_built (ht : t.Sound) (r : Root) (p : Path) (mode : UInt32) :
    Triple (· = t) (r.mkdir p mode) (fun _ u => r.Built t [p] u ∧ r.HoldsDir u p)
      fun _ u => u = t := by
  refine (triple_mkdir_gainsDir ht r p mode).weaken (fun _ hs => hs) ?_ fun _ _ hs => hs
  rintro _ u ⟨hu, l, n, i, hl, hname, hplace, hgains⟩
  have hlies := liesAt_of_gainsDir hl hname hplace hgains
  refine ⟨⟨⟨hgains.gains, hu⟩, fun hentry => ?_⟩, hlies.holdsDir⟩
  rcases hgains.only hentry with hold | ⟨rfl, rfl, rfl⟩
  · exact .inl hold
  · exact .inr ⟨p, List.mem_singleton_self p, hlies⟩

/-- The induction is on the paths. Each of them leads to a directory, or one is made for it, before
the next one is looked at; and what has been made stays where it is. -/
theorem triple_ensureEach_built (ht : t.Sound) (r : Root) (mode : UInt32) (paths : List Path) :
    Triple (· = t) (r.ensureEach mode paths)
      (fun _ u => r.Built t paths u ∧ ∀ q ∈ paths, r.HoldsDir u q) fun _ => r.Built t paths := by
  induction paths generalizing t with
  | nil =>
    apply Triple.pure
    rintro _ rfl
    exact ⟨.refl ht, nofun⟩
  | cons p rest ih =>
    have hrest : ∀ {u}, r.Built t [p] u → r.HoldsDir u p → Triple (· = u) (r.ensureEach mode rest)
        (fun _ v => r.Built t (p :: rest) v ∧ ∀ q ∈ p :: rest, r.HoldsDir v q)
        fun _ => r.Built t (p :: rest) := by
      intro u hbuilt hdir
      refine (ih hbuilt.gained.2).weaken (fun _ hs => hs) ?_ fun _ _ h => hbuilt.trans h
      rintro _ v ⟨hbuilt', hdirs⟩
      exact ⟨hbuilt.trans hbuilt',
        List.forall_mem_cons.2 ⟨hdir.gains hbuilt'.gained.1, hdirs⟩⟩
    have hstop : ∀ {e : FileError}, Triple (· = t) (throw e : Work Unit)
        (fun _ v => r.Built t (p :: rest) v ∧ ∀ q ∈ p :: rest, r.HoldsDir v q)
        fun _ => r.Built t (p :: rest) := by
      intro e
      apply Triple.throw
      rintro _ rfl
      exact .refl ht
    have hstat := (keeps_stat (P := (· = t)) r p).again
    refine Triple.bind (Triple.outcome hstat) fun found => ?_
    cases found with
    | ok s =>
      apply Triple.of_fixed
      rintro _ ⟨rfl, hfound⟩
      exact Triple.ite (fun hdir => hrest (.refl ht) ⟨s, hfound, hdir⟩) fun _ =>
        Triple.ite (fun _ => hstop) fun _ => hstop
    | error e =>
      cases e with
      | entityNotFound =>
        refine Triple.bind (Triple.outcome (triple_mkdir_built ht r p mode)) fun made => ?_
        cases made with
        | ok => exact Triple.of_fixed fun u ⟨hbuilt, hdir⟩ => hrest hbuilt hdir
        | error e =>
          cases e with
          | alreadyExists =>
            refine Triple.bind (hstat.onError ?_) fun s => ?_
            · rintro _ _ rfl
              exact .refl ht
            · apply Triple.of_fixed
              rintro _ ⟨rfl, hfound⟩
              exact Triple.ite (fun hdir => hrest (.refl ht) ⟨s, hfound, hdir⟩) fun _ => hstop
          | _ => exact hstop
      | _ => exact hstop

end Building

section Ensuring

/-- Nothing is made for a path that starts at the top. -/
theorem ensureDirs_of_isAbsolute (hp : p.isAbsolute = true) (r : Root) (t : Tree) (mode : UInt32) :
    ∃ q, r.ensureDirs p mode t = (.error (.pathEscapesParent q), t) := by
  obtain ⟨q, rest, hstages, hq⟩ : ∃ q rest, stages p = q :: rest ∧ q.isAbsolute = true := by
    have hroot : p.components.filter (· ≠ .current) =
        .root :: p.inner.filter (· ≠ .current) := by
      rw [components_eq, if_pos hp, List.filter_cons_of_pos (by decide)]
    simp only [stages, hroot, List.length_cons, List.range_succ_eq_map, List.map_cons,
      List.take_succ_cons]
    exact ⟨_, _, rfl, isAbsolute_ofComponents_root _⟩
  have hwalk : r.walk t q true = .error (.pathEscapesParent q) := if_pos hq
  have hstat : r.stat q t = (.error (.pathEscapesParent q), t) :=
    Action.bind_apply_of_error (by rw [Action.query_apply, hwalk])
  refine ⟨q, ?_⟩
  rw [ensureDirs, hstages, ensureEach, Action.bind_apply_of_ok (Action.outcome_of_run hstat)]
  rfl

theorem mem_stops {before first steps : List Step} (h : first <+: steps) (hne : first ≠ []) :
    ofSteps (before ++ first) ∈ stops before steps := by
  rw [stops_eq_map, List.mem_map]
  have hpos := List.length_pos_iff.2 hne
  have hle := h.length_le
  refine ⟨first.length - 1, List.mem_range.2 (by omega), ?_⟩
  rw [Nat.sub_add_cancel hpos, ← List.prefix_iff_eq_take.1 h]

/-- The last stage of a path is the path, and a path without stages leads to the root. -/
theorem holdsDir_of_stages (hr : u.isDir r.dir = true) (hp : p.isAbsolute = false)
    (h : ∀ q ∈ stages p, r.HoldsDir u q) : r.HoldsDir u p := by
  have hwhole : r.HoldsDir u (ofSteps p.steps) := by
    by_cases hsteps : p.steps = []
    · rw [hsteps]
      exact reaches_nil.holdsDir hr
    · apply h
      rw [stages_eq_stops hp]
      exact mem_stops List.prefix_rfl hsteps
  exact hwhole.of_steps (isAbsolute_ofSteps _) hp (steps_ofSteps _)

/-- Whether or not it succeeds, making a directory and those on the way to it leaves all that was
there as it was, and each new entry is that of a directory and lies where some of the first steps
of the path lead. If it succeeds the path leads to a directory, and doing it again, with whatever
permissions, succeeds and changes nothing. -/
theorem ensureDirs_builds (ht : t.Sound) (hr : t.isDir r.dir = true) (p : Path) (mode : UInt32) :
    (∀ result u, r.ensureDirs p mode t = (result, u) → t.Gains u ∧ u.Sound ∧
      ∀ dir n i, u.HasEntry dir n i → t.HasEntry dir n i ∨
        ∃ q, q.isAbsolute = false ∧ q.steps <+: p.steps ∧ r.LiesAt u q dir n i) ∧
    ∀ u, r.ensureDirs p mode t = (.ok (), u) →
      r.HoldsDir u p ∧ ∀ mode', r.ensureDirs p mode' u = (.ok (), u) := by
  cases hp : p.isAbsolute with
  | true =>
    obtain ⟨q, hrefused⟩ := ensureDirs_of_isAbsolute hp r t mode
    rw [hrefused]
    refine ⟨fun result u hrun => ?_, nofun⟩
    obtain ⟨-, rfl⟩ := Prod.mk.inj hrun
    exact ⟨.refl t, ht, fun _ _ _ => .inl⟩
  | false =>
    have htriple := triple_ensureEach_built ht r mode (stages p)
    refine ⟨fun result u hrun => ?_, fun u hrun => ?_⟩
    · have hbuilt : r.Built t (stages p) u := by
        have hleft := Triple.apply (htriple.weaken (fun _ h => h) (fun _ _ h => h.1) fun _ _ h => h)
          rfl
        rwa [← ensureDirs, hrun] at hleft
      refine ⟨hbuilt.gained.1, hbuilt.gained.2, fun dir n i hentry => ?_⟩
      refine (hbuilt.placed hentry).imp_right fun ⟨q, hq, hlies⟩ => ?_
      rw [stages_eq_stops hp] at hq
      obtain ⟨first, hstarts, rfl⟩ := exists_of_mem_stops hq
      exact ⟨_, isAbsolute_ofSteps _, (steps_ofSteps _).symm ▸ hstarts, hlies⟩
    · obtain ⟨hbuilt, hdirs⟩ := htriple.of_ok rfl hrun
      refine ⟨holdsDir_of_stages (hbuilt.gained.1.isDir hr) hp hdirs, fun mode' => ?_⟩
      have hnone : r.ensureEach mode' (stages p ++ []) u = (.ok (), u) :=
        ensureEach_append hdirs []
      rwa [List.append_nil] at hnone

section Scene

private def parkName : Name := ⟨[112, 97], rfl⟩

private def pondName : Name := ⟨[112, 111], rfl⟩

private def gateName : Name := ⟨[103, 97], rfl⟩

private def lawnName : Name := ⟨[108, 97], rfl⟩

private def park : NodeId := Tree.top.child 0

/-- A directory with another one in it, and beside it a link to the inner one. -/
private def layOut : Call Unit := do
  Call.mkdir (.entry Tree.top parkName) 0o755
  Call.mkdir (.entry park pondName) 0o755
  Call.symlink ⟨[112, 97, 47, 112, 111]⟩ (.entry Tree.top gateName)

private def parkTree : Tree := (layOut .fresh).2

private theorem sound_parkTree : parkTree.Sound := by
  have hkeeps : Action.Keeps Tree.Sound layOut :=
    .bind (Call.keeps_sound_mkdir _ _) fun _ => .bind (Call.keeps_sound_mkdir _ _) fun _ =>
      Call.keeps_sound_symlink _ _
  exact hkeeps.apply Tree.sound_fresh

/-- By `ga/../la/y`, where `ga` is a link to `pa/po`, a directory is made in `pa`. -/
theorem ensureDirs_builds_behind_link :
    parkTree.Sound ∧ parkTree.isDir Tree.top = true ∧
    let r : Root := ⟨Tree.top, Path.top⟩
    let p : Path := ⟨[103, 97, 47, 46, 46, 47, 108, 97, 47, 121]⟩
    ∃ u, r.ensureDirs p 0o755 parkTree = (.ok (), u) ∧ parkTree.Gains u ∧
      (∃ q, q.steps <+: p.steps ∧ r.LiesAt u q park lawnName (park.child 1)) ∧
      ¬ parkTree.HasEntry park lawnName (park.child 1) ∧ r.HoldsDir u p ∧
      r.ensureDirs p 0o700 u = (.ok (), u) := by
  have hr : parkTree.isDir Tree.top = true := rfl
  refine ⟨sound_parkTree, hr, ?_⟩
  intro r p
  have hbuilds := ensureDirs_builds (r := r) sound_parkTree hr p 0o755
  have hrun : r.ensureDirs p 0o755 parkTree = (.ok (), (r.ensureDirs p 0o755 parkTree).2) :=
    Prod.ext (by decide +kernel) rfl
  obtain ⟨hgains, -, hplaced⟩ := hbuilds.1 _ _ hrun
  obtain ⟨hholds, hagain⟩ := hbuilds.2 _ hrun
  have hold : ¬ parkTree.HasEntry park lawnName (park.child 1) := fun h =>
    absurd (Option.bind_eq_some_iff.2 h) (by decide +kernel)
  have hnew : (r.ensureDirs p 0o755 parkTree).2.HasEntry park lawnName (park.child 1) :=
    Option.bind_eq_some_iff.1 (by decide +kernel)
  obtain ⟨q, -, hsteps, hlies⟩ := (hplaced park lawnName (park.child 1) hnew).resolve_left hold
  exact ⟨_, hrun, hgains, ⟨q, hsteps, hlies⟩, hold, hholds, hagain _⟩

end Scene

end Ensuring

end ConfinedFs.Root
