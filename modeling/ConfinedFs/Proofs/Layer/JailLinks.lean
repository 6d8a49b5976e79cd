import ConfinedFs.Proofs.Layer.JailTemporaries
import ConfinedFs.Proofs.Layer.Nested
import ConfinedFs.Proofs.Memory.Removing

/-!
Links that are made through a jail over a tree in memory. An absolute target is put below the base
when it is stored and taken off the base when it is shown. Below an absolute base the link then
stands for its target. Below a relative base what is stored is a relative target, which is not taken
off the base, and which the tree follows from the directory of the link.
-/

namespace ConfinedFs

open ConfinedFs.Path

namespace Memory

variable {m m' : Memory} {j k r : Key} {n : Name} {p q target : Path} {followLast : Bool}

section CleanPaths

/-- Moves up lead nowhere at the top. -/
theorem resolveWithin_ups (m : Memory) (followLast : Bool) (links ups : Nat)
    (steps : List Step) :
    m.resolveWithin followLast links (List.replicate ups .up ++ steps) [] =
      m.resolveWithin followLast links steps [] := by
  induction ups with
  | zero => rfl
  | succ ups ih => exact (resolveWithin_up ..).trans ih

/-- A clean path leads where it leads when seen from the top. -/
theorem resolve_clean (m : Memory) (p : Path) (followLast : Bool) :
    m.resolve p.clean followLast = m.resolve p.fromTop followLast := by
  obtain ⟨ups, hsteps⟩ := steps_clean_eq p
  rw [resolve, resolve, hsteps, fromTop_eq, steps_ofNames]
  exact resolveWithin_ups ..

end CleanPaths

section OnlyLink

/-- There is a link in the directory, and there is no other one in the tree. -/
structure OnlyLink (m : Memory) (k : Key) (n : Name) (target : Path) : Prop where
  stored : ∃ c, m.nodeAt (k ++ [n]) = some ⟨.symlink, c⟩
  here : m.sight (k ++ [n]) = .link target
  only : ∀ j other, m.sight j = .link other → j = k ++ [n]

/-- A walk comes by the link with more moves to make, or it does not depend on what is done at
links. -/
theorem OnlyLink.advance_cases (h : m.OnlyLink k n target) (steps : List Step) (j : Key) :
    (∃ rest, ∀ jump more, m.advance true jump (steps ++ more) j =
      jump (target.steps ++ (rest ++ more)) (if target.isAbsolute then [] else k)) ∨
    ∀ jump jump', m.advance true jump steps j = m.advance true jump' steps j := by
  induction steps generalizing j with
  | nil => exact .inr fun _ _ => rfl
  | cons step rest ih =>
    cases step with
    | up => exact ih j.parent
    | down n' =>
      cases hsight : m.sight (j ++ [n']) with
      | way =>
        refine (ih (j ++ [n'])).imp ?_ ?_
        · rintro ⟨left, hleft⟩
          refine ⟨left, fun jump more => ?_⟩
          rw [List.cons_append, advance_down, hsight]
          exact hleft jump more
        · intro hsame jump jump'
          rw [advance_down, advance_down, hsight]
          exact hsame jump jump'
      | file =>
        refine .inr fun jump jump' => ?_
        rw [advance_down, advance_down, hsight]
      | link other =>
        have hplace := h.only _ _ hsight
        obtain ⟨rfl, -⟩ := List.append_inj' hplace rfl
        rw [hplace, h.here] at hsight
        obtain rfl := Sight.link.inj hsight
        refine .inl ⟨rest, fun jump more => ?_⟩
        rw [List.cons_append, advance_down, hplace, h.here]
        rfl

/-- The target of the link leads back to the link, and then any number of links is too many, or it
leads to no link at all. -/
theorem OnlyLink.resolveWithin_target (h : m.OnlyLink k n target) (links links' : Nat) :
    m.resolveWithin true links target.steps (if target.isAbsolute then [] else k) =
      m.resolveWithin true links' target.steps (if target.isAbsolute then [] else k) := by
  rcases h.advance_cases target.steps (if target.isAbsolute then [] else k) with
    ⟨rest, hback⟩ | hsame
  · have hlost : ∀ links more, m.resolveWithin true links (target.steps ++ more)
        (if target.isAbsolute then [] else k) = .error .tooManySymlinks := by
      intro links
      induction links with
      | zero => exact fun more => hback _ more
      | succ links ih => exact fun more => (hback _ more).trans (ih (rest ++ more))
    have hend := fun links => hlost links []
    rw [List.append_nil] at hend
    rw [hend, hend]
  · cases links <;> cases links' <;> exact hsame _ _

/-- The link leads where its target leads that is written after the directory. -/
theorem OnlyLink.resolve_eq (h : m.OnlyLink k n target) (hwf : m.WellFormed) :
    m.resolve (ofNames (k ++ [n])) true = m.resolve ((ofNames k).push target) true := by
  obtain ⟨c, hnode⟩ := h.stored
  have hdirs : ∀ a, a <+: k → a ≠ [] → ∃ d, m.nodeAt ([] ++ a) = some d ∧ d.isDir = true := by
    intro a ha _
    refine hwf.parented_of_nodeAt hnode a (ha.trans (List.prefix_append k [n])) ?_
    rintro rfl
    exact not_starts_concat k n ha
  have hlink : m.resolve (ofNames (k ++ [n])) true =
      m.resolveWithin true 39 target.steps (if target.isAbsolute then [] else k) := by
    rw [resolve, steps_ofNames, List.map_append]
    refine (advance_dirs hdirs).trans ?_
    rw [List.map_singleton, List.nil_append, advance_down, h.here]
    exact congrArg (resolveWithin m true 39 · _) (List.append_nil _)
  rw [hlink, h.resolveWithin_target 39 40]
  cases habsolute : target.isAbsolute with
  | true =>
    rw [push, if_pos habsolute]
    rfl
  | false =>
    rw [resolve, steps_push _ habsolute, steps_ofNames]
    exact (advance_dirs hdirs).symm

theorem OnlyLink.readlink (h : m.OnlyLink k n target) (hwf : m.WellFormed)
    (hclean : p.clean = p) (hnames : p.names = k ++ [n]) : m.readlink p = .ok target := by
  obtain ⟨c, hnode⟩ := h.stored
  have hk : m.resolve p false = .ok (k ++ [n]) := by
    rw [← hclean, resolve_clean, fromTop_eq, hnames]
    exact resolve_ofNames (hwf.parented_of_nodeAt hnode).passable nofun
  have hsight := h.here
  rw [sight_of_link hnode] at hsight
  rw [readlink_of_nodeAt hk hnode, Sight.link.inj hsight]

/-- Under a name of its own, an entry is described by where its path leads. -/
theorem named_stat_congr (h : m.resolve p true = m.resolve q true) (name : Path) :
    (m.stat p).map (·.named name) = (m.stat q).map (·.named name) := by
  rw [stat, stat, h]
  cases m.resolve q true with
  | error e => rfl
  | ok k => exact (named_describe ..).trans (named_describe ..).symm

theorem OnlyLink.stat_eq (h : m.OnlyLink k n target) (hwf : m.WellFormed) (hclean : p.clean = p)
    (hnames : p.names = k ++ [n]) (name : Path) : (m.stat p).map (·.named name) =
      (m.stat (p.fromTop.dirName.push target)).map (·.named name) := by
  refine named_stat_congr ?_ name
  have hlink : m.resolve p true = m.resolve (ofNames (k ++ [n])) true := by
    rw [← hnames, ← fromTop_eq, ← resolve_clean, hclean]
  rw [hlink, h.resolve_eq hwf, fromTop_eq, hnames, dirName_ofNames, List.dropLast_concat]

/-- In a tree without links a new link is the only one. -/
theorem onlyLink_of_symlink (h : m.WellFormed) (hplain : m.Plain) (hclean : p.clean = p)
    (hrun : symlink target p m = (.ok (), m')) :
    m'.WellFormed ∧ ∃ k n, p.names = k ++ [n] ∧ m'.OnlyLink k n target := by
  obtain ⟨j, c, hj, hfree, hwf, hplaced, hnode, hdata⟩ := (triple_symlink h target p).of_ok rfl hrun
  rw [← hclean, resolve_clean, fromTop_eq] at hj
  obtain rfl := eq_names_of_resolve hplain hj
  refine ⟨hwf, ?_⟩
  have hne : p.names ≠ [] := h.ne_nil_of_nodeAt hfree
  have hnames : p.names = p.names.dropLast ++ [p.names.getLast hne] :=
    (List.dropLast_concat_getLast hne).symm
  refine ⟨_, _, hnames, ⟨c, hnames ▸ hnode⟩, ?_, fun j other hj => ?_⟩
  · rw [← hnames, sight_of_link hnode, hdata]
  · rw [← hnames]
    by_cases hsame : j = p.names
    · exact hsame
    · rw [hplaced.other j hsame] at hj
      obtain ⟨c', hnode'⟩ := nodeAt_of_sight_link hj
      exact absurd hnode' (hplain j c')

end OnlyLink

end Memory

namespace Jail

variable {m m' : Memory} {base p link target : Path}

theorem stat_inside (base : Path) (h : p.climbsOut = false) (m : Memory) :
    (confine Memory.fileSystem base).fileSystem.stat p m =
      ((m.stat (inside base p)).map (·.named p), m) := by
  have hstat : (confine Memory.fileSystem base).fileSystem.stat p =
      Memory.fileSystem.stat (inside base p) >>= fun d => pure (d.named p) := place_bind h
  rw [hstat, Action.bind_pure_apply]
  rfl

theorem readlink_inside (h : p.climbsOut = false) (hshown : m.readlink (inside base p) = .ok target) :
    (confine Memory.fileSystem base).fileSystem.readlink p m = (shownTarget base.clean target, m) := by
  have hreadlink : (confine Memory.fileSystem base).fileSystem.readlink p =
      Memory.fileSystem.readlink (inside base p) >>= fun target =>
        Action.ofExcept (shownTarget base.clean target) := place_bind h
  have hfound : Memory.fileSystem.readlink (inside base p) m = (.ok target, m) := Prod.ext hshown rfl
  rw [hreadlink, Action.bind_apply_of_ok hfound, Action.ofExcept_apply]

theorem symlink_inside (h : link.climbsOut = false) (htarget : target.isAbsolute = true) :
    (confine Memory.fileSystem base).fileSystem.symlink target link =
      Memory.fileSystem.symlink (inside base target) (inside base link) := by
  refine (place_bind h).trans ((storedTarget_bind fun hrelative => ?_).trans ?_)
  · rw [htarget] at hrelative
    cases hrelative
  · rw [if_pos htarget]
    rfl

/-- An absolute target that is stored below an absolute base is shown as it was given, and below a
relative base as it is stored. -/
theorem shownTarget_inside (base : Path) (htarget : target.isAbsolute = true) :
    shownTarget base.clean (inside base target) =
      .ok (if base.isAbsolute then target.fromTop else inside base target) := by
  cases hbase : base.isAbsolute with
  | false =>
    rw [shownTarget, isAbsolute_inside, hbase]
    rfl
  | true =>
    rw [inside_eq hbase (climbsOut_of_isAbsolute htarget), clean_eq_ofNames hbase,
      ← clean_ofNames base.names, Operation.shownTarget_ofNames (isAbsolute_ofNames _),
      names_ofNames, if_pos (List.prefix_append ..), List.drop_left, fromTop_eq]
    rfl

/-- A link with an absolute target has been made through a jail over a tree without links. Below an
absolute base the jail shows the target as it was given, cleaned, and describes the link as it
describes the target. Below a relative base it does not: what it shows is the relative path that is
stored. Below any base the link is described by where the stored target leads that is written after
the directory of the link. -/
theorem symlink_shown (h : m.WellFormed) (hplain : m.Plain) (htarget : target.isAbsolute = true)
    (base link : Path) :
    let fs := (confine Memory.fileSystem base).fileSystem
    ∀ m', fs.symlink target link m = (.ok (), m') →
      (base.isAbsolute = true → fs.readlink link m' = (.ok target.fromTop, m') ∧
        fs.stat link m' = ((fs.stat target m').1.map (·.named link), m')) ∧
      (base.isAbsolute = false → fs.readlink link m' = (.ok (inside base target), m') ∧
        inside base target ≠ target.fromTop) ∧
      fs.stat link m' =
        ((m'.stat ((inside base link).fromTop.dirName.push (inside base target))).map
          (·.named link), m') := by
  intro fs m' hrun
  have hlink : link.climbsOut = false := by
    cases hclimbs : link.climbsOut with
    | false => rfl
    | true =>
      have hrefused : fs.symlink target link = throw .crossedBoundary := place_bind_of_climbsOut hclimbs
      rw [hrefused] at hrun
      cases hrun
  have hmade : Memory.symlink (inside base target) (inside base link) m = (.ok (), m') := by
    rw [show fs.symlink target link = _ from symlink_inside hlink htarget] at hrun
    exact hrun
  obtain ⟨hwf, k, n, hnames, honly⟩ :=
    Memory.onlyLink_of_symlink h hplain (clean_inside base link) hmade
  have hclean := clean_inside base link
  have hshown := readlink_inside hlink (honly.readlink hwf hclean hnames)
  rw [shownTarget_inside base htarget] at hshown
  have hstat := stat_inside base hlink m'
  rw [honly.stat_eq hwf hclean hnames] at hstat
  refine ⟨fun hbase => ⟨?_, ?_⟩, fun hbase => ⟨?_, fun heq => ?_⟩, hstat⟩
  · rw [hshown, if_pos hbase]
  · have hpush : (inside base link).fromTop.dirName.push (inside base target) =
        inside base target := by
      rw [push, isAbsolute_inside, if_pos hbase]
    have htarget' := stat_inside base (climbsOut_of_isAbsolute htarget) m'
    rw [hstat, hpush, htarget']
    cases m'.stat (inside base target) <;> rfl
  · rw [hshown, hbase]
    rfl
  · have habsolute := isAbsolute_fromTop target
    rw [← heq, isAbsolute_inside, hbase] at habsolute
    cases habsolute

/-- A tree with a directory for a jail and a file in it. -/
private def cellar : Memory := (Memory.openFile ⟨[98, 47, 116]⟩ .creating .fresh).2

private theorem wellFormed_cellar : cellar.WellFormed :=
  (Memory.atomic_openFile ⟨[98, 47, 116]⟩ .creating).wellFormed Memory.wellFormed_fresh

private theorem plain_cellar : cellar.Plain := Memory.plain_of_slots (by decide)

/-- In a directory that is made with it, a link stands for the file at the top of the jail. -/
theorem symlink_shown_cellar :
    let fs := (confine Memory.fileSystem ⟨[47, 98]⟩).fileSystem
    ∃ m' d, fs.symlink ⟨[47, 46, 47, 116]⟩ ⟨[100, 47, 108]⟩ cellar = (.ok (), m') ∧
      fs.readlink ⟨[100, 47, 108]⟩ m' = (.ok ⟨[47, 116]⟩, m') ∧
      fs.stat ⟨[100, 47, 108]⟩ m' = (.ok d, m') ∧ d.name = [108] ∧ d.isFile = true := by
  intro fs
  have hrun : fs.symlink ⟨[47, 46, 47, 116]⟩ ⟨[100, 47, 108]⟩ cellar =
      (.ok (), (fs.symlink ⟨[47, 46, 47, 116]⟩ ⟨[100, 47, 108]⟩ cellar).2) := rfl
  obtain ⟨hshown, -, -⟩ := symlink_shown wellFormed_cellar plain_cellar rfl _ _ _ hrun
  obtain ⟨hreadlink, hstat⟩ := hshown rfl
  exact ⟨_, _, hrun, hreadlink, hstat, rfl, rfl⟩

/-- Below the relative base `b` the target `/t` of a link is shown as `b/t`, and the link leads
nowhere, although the target is there. -/
theorem symlink_shown_astray :
    let fs := (confine Memory.fileSystem ⟨[98]⟩).fileSystem
    let m' := (fs.symlink ⟨[47, 116]⟩ ⟨[108]⟩ cellar).2
    cellar.WellFormed ∧ cellar.Plain ∧
      fs.symlink ⟨[47, 116]⟩ ⟨[108]⟩ cellar = (.ok (), m') ∧
      fs.readlink ⟨[108]⟩ m' = (.ok ⟨[98, 47, 116]⟩, m') ∧
      (⟨[98, 47, 116]⟩ : Path) ≠ fromTop ⟨[47, 116]⟩ ∧
      fs.stat ⟨[108]⟩ m' = (.error .entityNotFound, m') ∧
      ∃ d, fs.stat ⟨[47, 116]⟩ m' = (.ok d, m') :=
  ⟨wellFormed_cellar, plain_cellar, rfl, rfl, by decide, rfl, _, rfl⟩

end Jail

end ConfinedFs
