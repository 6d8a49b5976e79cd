import ConfinedFs.Proofs.Memory.Planting
import ConfinedFs.Proofs.Memory.Session

/-!
Moving an entry to another place. What is refused is refused before anything is done. What is
not refused takes one subtree to its new place, node by node and with its numbers; it takes the
place of an entry that may be replaced, and directories are made on the way. Everything else
stays as it is.
-/

namespace ConfinedFs.Memory

open ConfinedFs.Action (Triple)

variable {m m' m₁ : Memory} {a j k r : Key} {i : Nat} {e : FileError} {source target : Path}

/-- Why the place that an entry is moved to does not take it. -/
def obstacle (m : Memory) (j k : Key) : Option FileError :=
  if m.exists? k = false then none
  else if m.isDir j && m.isDir k then
    if m.hasDescendants k then some .directoryNotEmpty else none
  else if m.isDir k then some .notAFile
  else if m.isDir j then some .baseNotDirectory
  else none

/-- Why an entry is not moved from one place to another one. -/
def refusal (m : Memory) (j k : Key) : Option FileError :=
  if j = [] ∨ k = [] then some .baseNotDirectory
  else if m.exists? j = false then some .entityNotFound
  else if j = k then none
  else if j.isPrefixOf k then some .invalidInput
  else m.obstacle j k

/-- A place takes an entry if it is free. Otherwise what is there has to be replaced: an entry
that is no directory by another one that is none, an empty directory by a directory. -/
def Takes (m : Memory) (k : Key) (n : Node) : Prop :=
  m.nodeAt k = none ∨ ∃ n', m.nodeAt k = some n' ∧
    (n'.isDir = false ∧ n.isDir = false ∨
      n'.isDir = true ∧ n.isDir = true ∧ ∀ r, k <+: r → r ≠ k → m.nodeAt r = none)

/-- An entry other than the top may be moved to a place that takes it and is not below it. -/
def Movable (m : Memory) (j k : Key) : Prop :=
  j ≠ [] ∧ k ≠ [] ∧ ∃ n, m.nodeAt j = some n ∧ (j = k ∨ ¬ j <+: k ∧ m.Takes k n)

theorem WellFormed.exists?_eq (h : m.WellFormed) (k : Key) :
    m.exists? k = (m.nodeAt k).isSome := by
  rw [Bool.eq_iff_iff, h.exists?_iff, Option.isSome_iff_exists]

theorem WellFormed.isDir_eq (h : m.WellFormed) (k : Key) :
    m.isDir k = (m.nodeAt k).any Node.isDir := by
  rw [Bool.eq_iff_iff, h.isDir_iff, Option.any_eq_true]

theorem WellFormed.hasDescendants_eq_false_iff (h : m.WellFormed) :
    m.hasDescendants k = false ↔ ∀ r, k <+: r → r ≠ k → m.nodeAt r = none := by
  rw [← Bool.not_eq_true, hasDescendants, Index.hasDescendants_iff h.sorted]
  constructor
  · intro hnone r hstarts hne
    cases hnode : m.nodeAt r with
    | none => rfl
    | some n =>
      obtain ⟨i, hfind, _⟩ := nodeAt_eq_some_iff.1 hnode
      exact absurd ⟨r, i, hfind, hstarts, hne⟩ hnone
  · rintro hfree ⟨r, i, hfind, hstarts, hne⟩
    obtain ⟨n, hn⟩ := h.nodeAt_of_find? hfind
    rw [hfree r hstarts hne] at hn
    cases hn

theorem obstacle_eq_none_iff (h : m.WellFormed) {n : Node} (hj : m.nodeAt j = some n) :
    m.obstacle j k = none ↔ m.Takes k n := by
  rw [obstacle, Takes, h.exists?_eq, h.isDir_eq, h.isDir_eq, hj, ← h.hasDescendants_eq_false_iff]
  cases hk : m.nodeAt k with
  | none => simp
  | some n' =>
    cases hdir : n.isDir <;> cases hdir' : n'.isDir <;> simp [hdir, hdir']

theorem refusal_eq_none_iff (h : m.WellFormed) : m.refusal j k = none ↔ m.Movable j k := by
  rw [refusal, Movable, h.exists?_eq, ← List.isPrefixOf_iff_prefix]
  by_cases htop : j = [] ∨ k = []
  · rw [if_pos htop]
    exact ⟨nofun, fun hmov => (htop.elim hmov.1 hmov.2.1).elim⟩
  rw [if_neg htop]
  cases hj : m.nodeAt j with
  | none => simp
  | some n =>
    have hobstacle := obstacle_eq_none_iff (k := k) h hj
    by_cases heq : j = k
    · simpa [heq] using htop
    · cases hstarts : j.isPrefixOf k <;> simp_all

/-- What becomes of a tree when an entry is moved to another place. -/
structure Moved (m m' : Memory) (j k : Key) : Prop where
  /-- What was at and below the one place is at and below the other one. -/
  moved : ∀ r, m'.index.find? (k ++ r) = m.index.find? (j ++ r) ∧
    m'.nodeAt (k ++ r) = m.nodeAt (j ++ r)
  left : ∀ r, m'.index.find? (j ++ r) = none
  /-- The slot of what has been replaced is free. -/
  replaced : ∀ i, m.index.find? k = some i → m'.nodes.get? i = none
  above : ∀ a, a <+: k → a ≠ k → m.nodeAt a = none →
    Created m m' a .directory ⟨[], defaultDirMode⟩
  same : ∀ a, ¬ j <+: a → ¬ k <+: a → (a <+: k → m.nodeAt a ≠ none) → SameAt m m' a
  content : SameContent m m'

/-- An entry is not at or below a place if neither is above the other one. -/
theorem not_prefix_append (hnot : ¬ j <+: k) (hbelow : ¬ k <+: j) (r : Key) : ¬ k <+: j ++ r := by
  intro hstarts
  rcases List.prefix_or_prefix_of_prefix hstarts (List.prefix_append j r) with hkj | hjk
  · exact hbelow hkj
  · exact hnot hjk

theorem moved_relocate (h : m.WellFormed) (hpass : m.Passable k)
    (hfree : ∀ a, k <+: a → m.index.find? a = none) (hj : j ≠ []) (hk : k ≠ [])
    (hnot : ¬ j <+: k) (hbelow : ¬ k <+: j) :
    ∃ m₁, relocate j k m = (.ok (), m₁.transplant j k) ∧ Founded m m₁ k.parent defaultDirMode ∧
      Moved m (m₁.transplant j k) j k := by
  obtain ⟨m₁, hrun, hdirs, hextends, hstill, -⟩ := relocate_eq h hpass hfree hj hk hnot
  obtain ⟨m₁', hdirs', hfounded⟩ := founded_ensureDirs h (hpass.enterable_parent hk) defaultDirMode
  obtain rfl : m₁ = m₁' := congrArg Prod.snd (hdirs.symm.trans hdirs')
  have h₁ := hfounded.wellFormed
  have habove : ∀ {a}, a <+: k → a ≠ k → ¬ j <+: a ∧ ¬ k <+: a := by
    intro a ha hne
    refine ⟨fun hja => hnot (hja.trans ha), fun hka => hne ?_⟩
    exact ha.eq_of_length (Nat.le_antisymm ha.length_le hka.length_le)
  refine ⟨m₁, hrun, hfounded, ?_, ?_, ?_, ?_, ?_, hfounded.content⟩
  · intro r
    have hsame : SameAt m m₁ (j ++ r) := hfounded.same fun hstarts =>
      absurd ((List.prefix_append j r).trans ((prefix_parent_iff hk).1 hstarts).1) hnot
    exact ⟨(WellFormed.find?_transplant_append hstill h₁ r).trans hsame.1,
      (WellFormed.nodeAt_transplant_append hstill h₁ r).trans hsame.2⟩
  · intro r
    rw [find?_transplant h₁.sorted hstill, if_neg (not_prefix_append hnot hbelow r),
      if_pos (List.prefix_append j r)]
  · intro i hi
    rw [hfree k List.prefix_rfl] at hi
    cases hi
  · intro a ha hne hnone
    obtain ⟨hja, hka⟩ := habove ha hne
    obtain ⟨i, c, hfind, hget, hrest⟩ :=
      hfounded.made ((prefix_parent_iff hk).2 ⟨ha, hne⟩) hnone
    exact ⟨i, c, (WellFormed.find?_transplant_of_not hstill h₁ hka hja).trans hfind, hget, hrest⟩
  · intro a hja hka ha
    have hsame : SameAt m m₁ a :=
      hfounded.same fun hstarts => ha ((prefix_parent_iff hk).1 hstarts).1
    exact ⟨(WellFormed.find?_transplant_of_not hstill h₁ hka hja).trans hsame.1,
      (WellFormed.nodeAt_transplant_of_not hstill h₁ hka hja).trans hsame.2⟩

theorem Parented.passable (h : m.Parented k) : m.Passable k := by
  intro a n ha hne hn
  obtain ⟨n', hn', hdir⟩ := h a ha hne
  rw [hn] at hn'
  cases hn'
  exact hdir

/-- What is dropped first, to make room, is what the place held. -/
theorem moved_replace (h : m.WellFormed) (hj : j ≠ []) (hk : k ≠ []) (hnot : ¬ j <+: k)
    (hbelow : ¬ k <+: j) {n : Node} (hnode : m.nodeAt k = some n) :
    ∃ m', replace j k m = (.ok (), m') ∧ Moved m m' j k := by
  have h₀ := h.prune hk
  have hparented := h.parented_of_nodeAt hnode
  have hpruned : ∀ {a}, ¬ k <+: a → SameAt m (m.prune k) a := fun ha =>
    ⟨by rw [find?_prune h.sorted, if_neg ha], by rw [h.nodeAt_prune, if_neg ha]⟩
  have hshort : ∀ {a}, a <+: k → a ≠ k → ¬ k <+: a := fun ha hne hka =>
    hne (ha.eq_of_length (Nat.le_antisymm ha.length_le hka.length_le))
  have habove : (m.prune k).Parented k := by
    intro a ha hne
    obtain ⟨n, hn, hdir⟩ := hparented a ha hne
    exact ⟨n, (hpruned (hshort ha hne)).2.trans hn, hdir⟩
  obtain ⟨m₁, hrun, hfounded, hmoved⟩ :=
    moved_relocate h₀ habove.passable (fun _ => h.find?_prune_eq_none) hj hk hnot hbelow
  refine ⟨_, (Action.bind_apply_of_ok (Action.update_apply _ m)).trans hrun, ?_, hmoved.left,
    ?_, ?_, ?_, ?_⟩
  · intro r
    have hsame := hpruned (not_prefix_append hnot hbelow r)
    exact ⟨(hmoved.moved r).1.trans hsame.1, (hmoved.moved r).2.trans hsame.2⟩
  · -- No directory is made here that could get the slot.
    intro i hi
    have hgone : (m.prune k).nodes.get? i = none := get?_prune_eq_none h.sorted hi List.prefix_rfl
    cases hget : m₁.nodes.get? i with
    | none => exact hget
    | some n' =>
      obtain ⟨a, ha⟩ := hfounded.wellFormed.placed hget
      have hsame := hfounded.sameAt hk habove a
      obtain ⟨n', hn'⟩ := h₀.stored (hsame.1.symm.trans ha)
      rw [hgone] at hn'
      cases hn'
  · intro a ha hne hnone
    obtain ⟨n, hn, _⟩ := hparented a ha hne
    rw [hnone] at hn
    cases hn
  · intro a hja hka ha
    have hsame := hpruned hka
    have hafter := hmoved.same a hja hka fun hstarts => by
      rw [hsame.2]
      exact ha hstarts
    exact ⟨hafter.1.trans hsame.1, hafter.2.trans hsame.2⟩
  · intro c hc
    have hcells : (m.prune k).cells = m.cells := cells_foldl_dropEntry m _
    rw [hmoved.content c (hcells.symm ▸ hc), Memory.content, Memory.content, hcells]

theorem not_prefix_of_takes (h : m.WellFormed) {n : Node} (hj : m.nodeAt j = some n) (hne : j ≠ k)
    (htakes : m.Takes k n) : ¬ k <+: j := by
  intro hstarts
  obtain ⟨above, habove, hdir⟩ := h.parented_of_nodeAt hj k hstarts hne.symm
  obtain hfree | ⟨n', hn', ⟨hfile, _⟩ | ⟨_, _, hempty⟩⟩ := htakes
  · rw [habove] at hfree
    cases hfree
  · rw [habove] at hn'
    cases hn'
    rw [hdir] at hfile
    cases hfile
  · rw [hempty j hstarts hne] at hj
    cases hj

/-- An entry that may be moved is moved, whether its new place is free or not. -/
theorem moved_of_movable (h : m.WellFormed) (hpass : m.Passable k) (hmovable : m.Movable j k)
    (hne : j ≠ k) :
    (m.exists? k = true → ∃ m', replace j k m = (.ok (), m') ∧ Moved m m' j k) ∧
      (¬ m.exists? k = true → ∃ m', relocate j k m = (.ok (), m') ∧ Moved m m' j k) := by
  obtain ⟨hj, hk, n, hn, heq | ⟨hnot, htakes⟩⟩ := hmovable
  · exact absurd heq hne
  have hbelow := not_prefix_of_takes h hn hne htakes
  constructor
  · intro hexists
    obtain ⟨n', hn'⟩ := h.exists?_iff.1 hexists
    exact moved_replace h hj hk hnot hbelow hn'
  · intro hfree
    obtain ⟨m₁, hrun, -, hmoved⟩ :=
      moved_relocate h hpass (fun a => h.find?_eq_none_of_prefix hfree) hj hk hnot hbelow
    exact ⟨_, hrun, hmoved⟩

/-- Where the two paths of a request lead if the entry may be moved. -/
def verdict (m : Memory) (source target : Path) : Except FileError (Key × Key) := do
  let j ← m.resolve source false
  let k ← m.resolve target false
  match m.refusal j k with
  | some e => throw e
  | none => return (j, k)

theorem verdict_eq (hj : m.resolve source false = .ok j) (hk : m.resolve target false = .ok k) :
    m.verdict source target = match m.refusal j k with
      | some e => .error e
      | none => .ok (j, k) := by
  rw [verdict, hj, hk]
  rfl

theorem verdict_eq_ok_iff (h : m.WellFormed) : m.verdict source target = .ok (j, k) ↔
    m.resolve source false = .ok j ∧ m.resolve target false = .ok k ∧ m.Movable j k := by
  rw [← refusal_eq_none_iff h]
  constructor
  · intro hverdict
    obtain ⟨j', hj, hrest⟩ := exists_of_bind_eq_ok hverdict
    obtain ⟨k', hk, hrefusal⟩ := exists_of_bind_eq_ok hrest
    cases hnone : m.refusal j' k' with
    | some e =>
      rw [hnone] at hrefusal
      cases hrefusal
    | none =>
      rw [hnone] at hrefusal
      cases hrefusal
      exact ⟨hj, hk, hnone⟩
  · rintro ⟨hj, hk, hnone⟩
    rw [verdict_eq hj hk, hnone]

/-- An entry is moved if nothing speaks against it, and otherwise nothing is done. -/
theorem triple_rename_moved (h : m.WellFormed) (source target : Path) :
    Triple (· = m) (rename source target)
      (fun _ m' => ∃ j k, m.verdict source target = .ok (j, k) ∧ (j = k → m' = m) ∧
        (j ≠ k → Moved m m' j k))
      fun e m' => m.verdict source target = .error e ∧ m' = m := by
  unfold rename
  refine Triple.query_bind (fun j hj => ?_) fun e he => ⟨by rw [verdict, he]; rfl, rfl⟩
  refine Triple.query_bind (fun k hk => ?_) fun e he => ⟨by rw [verdict, hj, he]; rfl, rfl⟩
  have hrefused : ∀ {e}, m.refusal j k = some e → ∀ s, s = m →
      m.verdict source target = .error e ∧ s = m :=
    fun he s hs => ⟨by rw [verdict_eq hj hk, he], hs⟩
  have hgranted : m.refusal j k = none → m.verdict source target = .ok (j, k) :=
    fun hnone => by rw [verdict_eq hj hk, hnone]
  refine Triple.guarded (fun htop => hrefused (if_pos htop)) fun htop => Triple.look_bind ?_
  refine Triple.guarded (fun hmissing => hrefused ?_) fun hthere => ?_
  · rw [refusal, if_neg htop, if_pos (by simpa using hmissing)]
  have hplace : m.refusal j k =
      if j = k then none else if j.isPrefixOf k then some .invalidInput else m.obstacle j k := by
    rw [refusal, if_neg htop, if_neg (by simpa using hthere)]
  refine Triple.ite (fun heq => Triple.pure ?_) fun hne => ?_
  · rintro s rfl
    exact ⟨j, k, hgranted (hplace.trans (if_pos heq)), fun _ => rfl, fun hne => absurd heq hne⟩
  rw [if_neg hne] at hplace
  refine Triple.guarded (fun hstarts => hrefused (hplace.trans (if_pos hstarts))) fun hstarts => ?_
  rw [if_neg hstarts] at hplace
  have hmove : ∀ {x : Action FileError Memory Unit}, m.obstacle j k = none →
      (∃ m', x m = (.ok (), m') ∧ Moved m m' j k) →
      Triple (· = m) x (fun _ m' => ∃ j k, m.verdict source target = .ok (j, k) ∧
        (j = k → m' = m) ∧ (j ≠ k → Moved m m' j k))
        fun e m' => m.verdict source target = .error e ∧ m' = m := by
    rintro x hnone ⟨m', hrun, hmoved⟩ s rfl
    rw [hrun]
    exact ⟨j, k, hgranted (hplace.trans hnone), fun heq => absurd heq hne, fun _ => hmoved⟩
  have hdone := fun hnone => moved_of_movable h (passable_of_resolve h hk)
    ((refusal_eq_none_iff h).1 (hplace.trans hnone)) hne
  rw [hplace] at hrefused
  refine Triple.look_bind (Triple.look_bind (Triple.ite (fun hexists => ?_) fun hfree => ?_))
  · refine Triple.look_bind (Triple.ite (fun hdirs => Triple.look_bind ?_) fun hmixed => ?_)
    · have hinside : m.obstacle j k =
          if m.hasDescendants k then some .directoryNotEmpty else none := by
        rw [obstacle, if_neg (by simpa using hexists), if_pos hdirs]
      refine Triple.guarded (fun hfull => hrefused (hinside.trans (if_pos hfull))) fun hempty => ?_
      have hnone := hinside.trans (if_neg hempty)
      exact hmove hnone ((hdone hnone).1 hexists)
    · have hkinds : m.obstacle j k = if m.isDir k then some .notAFile
          else if m.isDir j then some .baseNotDirectory else none := by
        rw [obstacle, if_neg (by simpa using hexists), if_neg hmixed]
      refine Triple.ite (fun hdir => Triple.throw_bind (hrefused (hkinds.trans (if_pos hdir))))
        fun hfile => ?_
      rw [if_neg hfile] at hkinds
      refine Triple.guarded (fun hdir => hrefused (hkinds.trans (if_pos hdir))) fun hfile' => ?_
      have hnone := hkinds.trans (if_neg hfile')
      exact hmove hnone ((hdone hnone).1 hexists)
  · have hnone : m.obstacle j k = none := if_pos (by simpa using hfree)
    exact hmove hnone ((hdone hnone).2 hfree)

/-- After any calls, a rename succeeds if both paths lead somewhere and the entry may be moved.
If they lead to one place nothing changes. Otherwise exactly the entry and what is below it are
moved, over an entry that is replaced or below directories that are made for it, and everything
else stays where and as it was. -/
theorem run_rename (calls : List Call) (source target : Path) :
    let m := (Session.run calls).memory
    ((∃ m', fileSystem.rename source target m = (.ok (), m')) ↔
      ∃ j k, m.resolve source false = .ok j ∧ m.resolve target false = .ok k ∧ m.Movable j k) ∧
    ∀ m' j k, fileSystem.rename source target m = (.ok (), m') →
      m.resolve source false = .ok j → m.resolve target false = .ok k →
      (j = k → m' = m) ∧ (j ≠ k → Moved m m' j k) := by
  intro m
  have h : m.WellFormed := Session.wellFormed_run calls
  have hrename := triple_rename_moved h source target
  refine ⟨⟨?_, ?_⟩, ?_⟩
  · rintro ⟨m', hrun⟩
    obtain ⟨j, k, hverdict, -⟩ := hrename.of_ok rfl hrun
    exact ⟨j, k, (verdict_eq_ok_iff h).1 hverdict⟩
  · rintro ⟨j, k, hmovable⟩
    have hverdict := (verdict_eq_ok_iff h).2 hmovable
    have hpost := hrename m rfl
    cases hrun : rename source target m with
    | mk r m' =>
      cases r with
      | ok a => exact ⟨m', hrun⟩
      | error e =>
        rw [hrun] at hpost
        rw [hverdict] at hpost
        cases hpost.1
  · intro m' j k hrun hj hk
    obtain ⟨j', k', hverdict, hchanged⟩ := hrename.of_ok rfl hrun
    obtain ⟨hj', hk', -⟩ := (verdict_eq_ok_iff h).1 hverdict
    rw [hj] at hj'
    rw [hk] at hk'
    cases hj'
    cases hk'
    exact hchanged

private def boxName : Name := ⟨[120], by decide⟩

private def toyName : Name := ⟨[116], by decide⟩

private def vaultName : Name := ⟨[118], by decide⟩

/-- A directory with another one in it, which is moved below a directory that is missing. -/
theorem run_rename_directory :
    let m := (Session.run [.createDirAll ⟨[120, 47, 116]⟩ 0o700]).memory
    ∃ m', fileSystem.rename ⟨[120]⟩ ⟨[118, 47, 120]⟩ m = (.ok (), m') ∧
      m'.nodeAt [vaultName, boxName, toyName] = m.nodeAt [boxName, toyName] ∧
      Created m m' [vaultName] .directory ⟨[], 0o755⟩ := by
  intro m
  have hrename := run_rename [.createDirAll ⟨[120, 47, 116]⟩ 0o700] ⟨[120]⟩ ⟨[118, 47, 120]⟩
  obtain ⟨m', hrun⟩ : ∃ m', fileSystem.rename ⟨[120]⟩ ⟨[118, 47, 120]⟩ m = (.ok (), m') := ⟨_, rfl⟩
  have hmoved := (hrename.2 m' [boxName] [vaultName, boxName] hrun rfl rfl).2 (by decide)
  refine ⟨m', hrun, (hmoved.moved [toyName]).2, ?_⟩
  exact hmoved.above [vaultName] (by decide) (by decide) rfl

end ConfinedFs.Memory
