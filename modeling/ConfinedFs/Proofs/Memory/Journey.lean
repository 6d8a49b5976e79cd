import ConfinedFs.Proofs.Memory.Opening

/-!
How a path leads to a place, move by move. A journey goes down and up, and where it follows a link
it makes the moves of the link before those that are left of its own. It ends below directories and
free places, so that the path of its end leads there as well, and no further.
-/

namespace ConfinedFs.Memory

open ConfinedFs.Path

variable {m : Memory} {j k r : Key} {p : Path} {followLast : Bool} {steps rest : List Step}
  {n : Name}

/-- A link that is followed, and the moves that were left to make when it was met. -/
structure Passage where
  link : Key
  rest : List Step

/-- The moves lead from one place to another one, by way of links. -/
inductive Journey (m : Memory) (followLast : Bool) :
    List Step → Key → List Passage → Key → Prop
  | done {k : Key} : Journey m followLast [] k [] k
  | up {rest : List Step} {k r : Key} {links : List Passage}
      (hrest : Journey m followLast rest k.parent links r) :
      Journey m followLast (.up :: rest) k links r
  | through {n : Name} {rest : List Step} {k r : Key} {links : List Passage}
      (hway : m.sight (k ++ [n]) = .way) (hrest : Journey m followLast rest (k ++ [n]) links r) :
      Journey m followLast (.down n :: rest) k links r
  | atFile {n : Name} {k : Key} (hfile : m.sight (k ++ [n]) = .file) :
      Journey m followLast [.down n] k [] (k ++ [n])
  | atLink {n : Name} {k : Key} {target : Path} (hlink : m.sight (k ++ [n]) = .link target)
      (hlast : followLast = false) : Journey m followLast [.down n] k [] (k ++ [n])
  | follow {n : Name} {rest : List Step} {k r : Key} {links : List Passage} {target : Path}
      (hlink : m.sight (k ++ [n]) = .link target) (hfollow : followLast = true ∨ rest ≠ [])
      (hrest : Journey m followLast (target.steps ++ rest) (if target.isAbsolute then [] else k)
        links r) :
      Journey m followLast (.down n :: rest) k (⟨k ++ [n], rest⟩ :: links) r

section Resolve

theorem resolveWithin_nil (m : Memory) (followLast : Bool) (links : Nat) (k : Key) :
    m.resolveWithin followLast links [] k = .ok k := by
  cases links <;> rfl

theorem resolveWithin_up (m : Memory) (followLast : Bool) (links : Nat) (rest : List Step)
    (k : Key) : m.resolveWithin followLast links (.up :: rest) k =
      m.resolveWithin followLast links rest k.parent := by
  cases links <;> rfl

theorem resolveWithin_down (m : Memory) (followLast : Bool) (links : Nat) (n : Name)
    (rest : List Step) (k : Key) : m.resolveWithin followLast links (.down n :: rest) k =
      match m.sight (k ++ [n]) with
      | .way => m.resolveWithin followLast links rest (k ++ [n])
      | .file => if rest.isEmpty then .ok (k ++ [n]) else .error .baseNotDirectory
      | .link target =>
        if followLast || !rest.isEmpty then
          match links with
          | 0 => .error .tooManySymlinks
          | links + 1 => m.resolveWithin followLast links (target.steps ++ rest)
            (if target.isAbsolute then [] else k)
        else .ok (k ++ [n]) := by
  cases links <;> exact advance_down ..

/-- A walk that arrives has made a journey. The induction is on the links that may still be followed
and, between two links, on the moves. -/
theorem exists_journey {links : Nat} (hr : m.resolveWithin followLast links steps k = .ok r) :
    ∃ passed, Journey m followLast steps k passed r ∧ passed.length ≤ links := by
  induction links using Nat.strongRecOn generalizing steps k with
  | ind links ihLinks =>
    induction steps generalizing k with
    | nil =>
      rw [resolveWithin_nil] at hr
      cases hr
      exact ⟨[], .done, Nat.zero_le _⟩
    | cons step rest ih =>
      cases step with
      | up =>
        rw [resolveWithin_up] at hr
        obtain ⟨passed, hjourney, hlength⟩ := ih hr
        exact ⟨passed, .up hjourney, hlength⟩
      | down n =>
        rw [resolveWithin_down] at hr
        cases hsight : m.sight (k ++ [n]) with
        | way =>
          rw [hsight] at hr
          obtain ⟨passed, hjourney, hlength⟩ := ih hr
          exact ⟨passed, .through hsight hjourney, hlength⟩
        | file =>
          simp only [hsight] at hr
          split at hr
          · next hrest =>
            cases hr
            rw [List.isEmpty_iff.1 hrest]
            exact ⟨[], .atFile hsight, Nat.zero_le _⟩
          · cases hr
        | link target =>
          simp only [hsight] at hr
          split at hr
          · next hfollow =>
            have hfollow' : followLast = true ∨ rest ≠ [] := by simpa using hfollow
            cases links with
            | zero => cases hr
            | succ links =>
              obtain ⟨passed, hjourney, hlength⟩ := ihLinks links (Nat.lt_succ_self _) hr
              exact ⟨_, .follow hsight hfollow' hjourney, Nat.succ_le_succ hlength⟩
          · next hstop =>
            cases hr
            obtain ⟨hlast, hrest⟩ : followLast = false ∧ rest = [] := by simpa using hstop
            subst hrest
            exact ⟨[], .atLink hsight hlast, Nat.zero_le _⟩

/-- A journey by way of few enough links is what a walk makes. -/
theorem Journey.resolveWithin {passed : List Passage} {links : Nat}
    (h : Journey m followLast steps k passed r) (hlength : passed.length ≤ links) :
    m.resolveWithin followLast links steps k = .ok r := by
  induction h generalizing links with
  | done => exact resolveWithin_nil ..
  | up _ ih => rw [resolveWithin_up, ih hlength]
  | through hway _ ih =>
    rw [resolveWithin_down, hway]
    exact ih hlength
  | atFile hfile =>
    rw [resolveWithin_down, hfile]
    rfl
  | atLink hlink hlast =>
    rw [resolveWithin_down, hlink, hlast]
    rfl
  | follow hlink hfollow _ ih =>
    cases links with
    | zero => cases hlength
    | succ links =>
      rw [resolveWithin_down, hlink]
      dsimp only
      rw [if_pos (by simpa using hfollow)]
      exact ih (Nat.le_of_succ_le_succ hlength)

/-- A path leads to a place if there is a journey there by way of few enough links. -/
theorem resolve_eq_ok_iff : m.resolve p followLast = .ok k ↔
    ∃ passed, Journey m followLast p.steps [] passed k ∧ passed.length ≤ linkLimit :=
  ⟨exists_journey, fun ⟨_, hjourney, hlength⟩ => hjourney.resolveWithin hlength⟩

end Resolve

section Ends

/-- Above a place that a walk may end at, nothing is in the way. -/
theorem Passable.sight_eq_way (h : m.Passable k) {a : Key} (ha : a <+: k) (hne : a ≠ k) :
    m.sight a = .way := by
  cases hnode : m.nodeAt a with
  | none => exact sight_of_free hnode
  | some node => exact sight_of_dir hnode (h a node ha hne hnode)

theorem nodeAt_of_sight_link {target : Path} (hk : m.sight k = .link target) :
    ∃ c, m.nodeAt k = some ⟨.symlink, c⟩ := by
  unfold sight at hk
  split at hk
  · next hnode => exact ⟨_, hnode⟩
  · cases hk
  · cases hk

theorem NoLinkAt.sight_ne_link (h : m.NoLinkAt k) (target : Path) : m.sight k ≠ .link target := by
  intro hsight
  obtain ⟨c, hnode⟩ := nodeAt_of_sight_link hsight
  exact h c hnode

/-- Moves down through directories and free places. -/
theorem Journey.down {names : Key} (h : m.Passable (k ++ names))
    (hend : followLast = true → m.NoLinkAt (k ++ names)) :
    Journey m followLast (names.map .down) k [] (k ++ names) := by
  induction names generalizing k with
  | nil =>
    rw [List.append_nil]
    exact .done
  | cons n names ih =>
    rw [List.append_cons] at h hend ⊢
    -- Only at the end there may be a file, or a link that is not followed.
    have hlast : m.sight (k ++ [n]) ≠ .way → names = [] := by
      intro hsight
      cases names with
      | nil => rfl
      | cons => exact absurd (h.sight_eq_way (List.prefix_append ..) (by simp)) hsight
    cases hsight : m.sight (k ++ [n]) with
    | way => exact .through hsight (ih h hend)
    | file =>
      obtain rfl := hlast (by simp [hsight])
      rw [List.append_nil]
      exact .atFile hsight
    | link target =>
      obtain rfl := hlast (by simp [hsight])
      rw [List.append_nil] at hend ⊢
      refine .atLink hsight ?_
      cases followLast with
      | false => rfl
      | true => exact absurd hsight ((hend rfl).sight_ne_link target)

/-- A journey that does not end at a link is made as well if a link at the end is followed. -/
theorem Journey.followed {passed : List Passage} (h : Journey m false steps k passed r)
    (hend : m.NoLinkAt r) : Journey m true steps k passed r := by
  induction h with
  | done => exact .done
  | up _ ih => exact .up (ih hend)
  | through hway _ ih => exact .through hway (ih hend)
  | atFile hfile => exact .atFile hfile
  | atLink hlink _ => exact absurd hlink (hend.sight_ne_link _)
  | follow hlink _ _ ih => exact .follow hlink (.inl rfl) (ih hend)

/-- The path of a place leads there if nothing is in the way. -/
theorem resolve_ofNames (hpass : m.Passable k) (hend : followLast = true → m.NoLinkAt k) :
    m.resolve (ofNames k) followLast = .ok k := by
  have hjourney : Journey m followLast (k.map .down) [] [] k := Journey.down hpass hend
  rw [resolve_eq_ok_iff, steps_ofNames]
  exact ⟨[], hjourney, Nat.zero_le _⟩

/-- The path of the place where a path leads to leads to the same place. -/
theorem resolve_path (h : m.WellFormed) (hk : m.resolve p followLast = .ok k) :
    m.resolve k.path followLast = .ok k := by
  refine resolve_ofNames (passable_of_resolve h hk) ?_
  rintro rfl
  exact noLinkAt_resolve h hk

/-- If there is no link at its end, a path leads to the same place whether a link there is followed
or not. -/
theorem resolve_followed (hk : m.resolve p false = .ok k) (hend : m.NoLinkAt k) :
    m.resolve p true = .ok k := by
  obtain ⟨passed, hjourney, hlength⟩ := resolve_eq_ok_iff.1 hk
  exact resolve_eq_ok_iff.2 ⟨passed, hjourney.followed hend, hlength⟩

/-- A journey need not follow a link at its end. -/
theorem Journey.unfollowed {passed : List Passage} (h : Journey m true steps k passed r) :
    ∃ passed' j, Journey m false steps k passed' j ∧ passed'.length ≤ passed.length := by
  induction h with
  | done => exact ⟨[], _, .done, Nat.le_refl 0⟩
  | up _ ih =>
    obtain ⟨passed', j, hj, hlength⟩ := ih
    exact ⟨passed', j, .up hj, hlength⟩
  | through hway _ ih =>
    obtain ⟨passed', j, hj, hlength⟩ := ih
    exact ⟨passed', j, .through hway hj, hlength⟩
  | atFile hfile => exact ⟨[], _, .atFile hfile, Nat.le_refl 0⟩
  | atLink _ hlast => cases hlast
  | @follow n rest k r links target hlink _ _ ih =>
    cases rest with
    | nil => exact ⟨[], _, .atLink hlink rfl, Nat.zero_le _⟩
    | cons step rest =>
      obtain ⟨passed', j, hj, hlength⟩ := ih
      exact ⟨_, j, .follow hlink (.inr nofun) hj, Nat.succ_le_succ hlength⟩

theorem resolve_unfollowed (hk : m.resolve p true = .ok k) : ∃ j, m.resolve p false = .ok j := by
  obtain ⟨passed, hjourney, hlength⟩ := resolve_eq_ok_iff.1 hk
  obtain ⟨passed', j, hj, hlength'⟩ := hjourney.unfollowed
  exact ⟨j, resolve_eq_ok_iff.2 ⟨passed', hj, Nat.le_trans hlength' hlength⟩⟩

/-- What is no link is described in the same way whether a link would be followed or not. -/
theorem stat_eq_lstat (hk : m.resolve p false = .ok k) (hend : m.NoLinkAt k) :
    fileSystem.stat p m = fileSystem.lstat p m := by
  have hdescribed : m.stat p = m.lstat p := by
    rw [stat, lstat, hk, resolve_followed hk hend]
  show (m.stat p, m) = (m.lstat p, m)
  rw [hdescribed]

end Ends

/-- After any calls, the place that a path leads to has a clean absolute path, which leads to the
same place, and nothing but directories and free places above it. It is not a link if a link at the
end is followed. If there is no link at the end it makes no difference whether it would be followed,
and the entry is described in the same way. -/
theorem run_resolve (calls : List Call) (p : Path) :
    let m := (Session.run calls).memory
    (∀ followLast k, m.resolve p followLast = .ok k →
      k.path.isAbsolute = true ∧ k.path.clean = k.path ∧ m.Passable k ∧
      (followLast = true → m.NoLinkAt k) ∧ m.resolve k.path followLast = .ok k) ∧
    ∀ k, m.resolve p false = .ok k → m.NoLinkAt k →
      m.resolve p true = .ok k ∧ fileSystem.stat p m = fileSystem.lstat p m := by
  intro m
  have h : m.WellFormed := Session.wellFormed_run calls
  refine ⟨fun followLast k hk => ?_, fun k hk hend => ?_⟩
  · refine ⟨isAbsolute_ofNames k, clean_ofNames k, passable_of_resolve h hk, ?_, resolve_path h hk⟩
    rintro rfl
    exact noLinkAt_resolve h hk
  · exact ⟨resolve_followed hk hend, stat_eq_lstat hk hend⟩

private def shelfName : Name := ⟨[103], rfl⟩

private def jarName : Name := ⟨[122], rfl⟩

/-- A path goes by way of a link that leads up, and ends at a free place below another one. -/
theorem run_resolve_by_link :
    let m := (Session.run [.createDirAll ⟨[100]⟩ 0o700,
      .symlink ⟨[46, 46, 47, 103]⟩ ⟨[100, 47, 108]⟩]).memory
    m.resolve ⟨[100, 47, 108, 47, 122]⟩ false = .ok [shelfName, jarName] ∧
      m.resolve ⟨[47, 103, 47, 122]⟩ false = .ok [shelfName, jarName] ∧
      m.Passable [shelfName, jarName] ∧
      m.resolve ⟨[100, 47, 108, 47, 122]⟩ true = .ok [shelfName, jarName] := by
  intro m
  have hresolve := run_resolve [.createDirAll ⟨[100]⟩ 0o700,
    .symlink ⟨[46, 46, 47, 103]⟩ ⟨[100, 47, 108]⟩] ⟨[100, 47, 108, 47, 122]⟩
  have hk : m.resolve ⟨[100, 47, 108, 47, 122]⟩ false = .ok [shelfName, jarName] := rfl
  have hfree : m.nodeAt [shelfName, jarName] = none := rfl
  obtain ⟨-, -, hpass, -, hagain⟩ := hresolve.1 false _ hk
  have hend : m.NoLinkAt [shelfName, jarName] := fun c hnode => by cases hfree.symm.trans hnode
  exact ⟨hk, hagain, hpass, (hresolve.2 _ hk hend).1⟩

end ConfinedFs.Memory
