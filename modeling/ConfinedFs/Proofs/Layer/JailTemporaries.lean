import ConfinedFs.Proofs.Layer.MemoryJail
import ConfinedFs.Proofs.Memory.Apart
import ConfinedFs.Proofs.Memory.Temporaries
import ConfinedFs.Proofs.Path.Retracing

/-!
Temporary files that are made through a jail over a tree in memory. The jail checks the directory
only. The name is put after it by the filesystem below, which knows of no base, and the bytes that
it starts with may be any: with separators and dots in them it may lead out of the jail.
-/

namespace ConfinedFs

open ConfinedFs.Bytes ConfinedFs.Path

namespace Memory

variable {m : Memory} {j k r : Key} {names : List Name} {followLast : Bool} {steps : List Step}
  {passed : List Passage}

/-- Without links, moves down lead to the place that their names spell. -/
theorem Journey.plain (h : Journey m followLast steps j passed r) (hplain : m.Plain)
    (hsteps : steps = names.map .down) : r = j ++ names := by
  have hlink : ∀ k target, m.sight k ≠ .link target := fun k target hsight => by
    obtain ⟨c, hnode⟩ := nodeAt_of_sight_link hsight
    exact hplain k c hnode
  induction h generalizing names with
  | done =>
    obtain rfl := List.map_eq_nil_iff.1 hsteps.symm
    rw [List.append_nil]
  | up =>
    cases names with
    | nil => cases hsteps
    | cons => cases hsteps
  | through _ _ ih =>
    cases names with
    | nil => cases hsteps
    | cons n names =>
      cases hsteps
      rw [ih rfl, List.append_assoc, List.singleton_append]
  | atFile =>
    cases names with
    | nil => cases hsteps
    | cons n names =>
      obtain ⟨hn, hrest⟩ := List.cons.inj hsteps
      cases hn
      rw [List.map_eq_nil_iff.1 hrest.symm]
  | atLink hsight => exact absurd hsight (hlink _ _)
  | follow hsight => exact absurd hsight (hlink _ _)

theorem eq_names_of_resolve (hplain : m.Plain) (hk : m.resolve (ofNames names) followLast = .ok k) :
    k = names := by
  obtain ⟨passed, hjourney, -⟩ := resolve_eq_ok_iff.1 hk
  exact hjourney.plain hplain (steps_ofNames names)

end Memory

namespace Jail

open ConfinedFs.Memory (Created Planted SameAt)
open ConfinedFs.BareFileSystem (temporaryAttempts temporaryName tempCandidate)

variable {m m' : Memory} {base dir : Path} {draws : Draws} {stem : Bytes}

/-- What is tried below an absolute directory is the path of its names from the top. -/
theorem tempCandidate_eq (hdir : dir.isAbsolute = true) (draws : Draws) (stem : Bytes) (i : Nat) :
    tempCandidate draws dir stem i = ofNames (tempCandidate draws dir stem i).names := by
  have habsolute : (tempCandidate draws dir stem i).isAbsolute = true := isAbsolute_join hdir _
  rw [← clean_eq_ofNames habsolute]
  exact (clean_joined ..).symm

/-- A name that does not hold a separator does not lead out of its directory. -/
theorem climbsOut_temporaryName (h : slash ∉ stem) (dir : Path) (word : UInt32) :
    ((view dir).join ⟨temporaryName stem word⟩).climbsOut = false := by
  have hname := inner_name ⟨_, isName_temporaryName h word⟩
  rw [view_eq, Bool.eq_false_iff]
  intro hclimbs
  rw [climbsOut_join_below, climbs_components, hname, climbs_name] at hclimbs
  exact not_climbs_nil hclimbs

theorem tempFile_eq (hdir : dir.climbsOut = false) (draws : Draws) (stem : Bytes) :
    (confine Memory.fileSystem base).fileSystem.tempFile draws dir stem = (do
      let f ← Memory.fileSystem.tempFile draws (inside base dir) stem
      return f.withName (dir.join f.name.baseName)) :=
  place_bind hdir

theorem tempFile_of_first (hdir : dir.climbsOut = false) {f : OpenFile Memory.Handle}
    (hrun : Memory.openFile (tempCandidate draws (inside base dir) stem 0) .temporary m =
      (.ok f, m')) :
    (confine Memory.fileSystem base).fileSystem.tempFile draws dir stem m =
      (.ok (f.withName (dir.join f.name.baseName)), m') := by
  rw [tempFile_eq hdir, Action.bind_apply_of_ok (Memory.tempFile_of_first hrun)]
  rfl

/-- What a jail over a tree without links does for a temporary file in one of its directories. If it
fails nothing has changed. Otherwise an empty file has been made at a free place with one of the
names that are tried, and the directories that were missing above it. If that name does not climb
out of the jail, as a path of the jail, this is below the base, and outside there is nothing new but
directories that were missing above the base. A name climbs out only if the bytes it starts with
hold a separator. -/
theorem tempFile_planted (h : m.WellFormed) (hplain : m.Plain) (hbase : base.isAbsolute = true)
    (hdir : dir.climbsOut = false) (draws : Draws) (stem : Bytes) :
    let fs := (confine Memory.fileSystem base).fileSystem
    (∀ e m', fs.tempFile draws dir stem m = (.error e, m') → m' = m) ∧
    (∀ f m', fs.tempFile draws dir stem m = (.ok f, m') → ∃ i < temporaryAttempts,
      let k := (tempCandidate draws (inside base dir) stem i).names
      Planted m m' k .file ⟨[], 0o600⟩ ∧
        (((view dir).join ⟨temporaryName stem (draws i)⟩).climbsOut = false →
          base.names <+: k ∧ ∀ j, ¬ base.names <+: j → SameAt m m' j ∨
            j <+: base.names ∧ m.nodeAt j = none ∧
              Created m m' j .directory ⟨[], Memory.defaultDirMode⟩)) ∧
    (slash ∉ stem → ∀ i, ((view dir).join ⟨temporaryName stem (draws i)⟩).climbsOut = false) := by
  intro fs
  have hinside := inside_eq hbase hdir
  have hcandidate : ∀ i, tempCandidate draws (inside base dir) stem i =
      ofNames (tempCandidate draws (inside base dir) stem i).names :=
    fun i => tempCandidate_eq (hinside ▸ isAbsolute_ofNames _) draws stem i
  rw [show fs.tempFile draws dir stem = _ from tempFile_eq hdir draws stem]
  refine ⟨fun e m' hrun => ?_, fun f m' hrun => ?_,
    fun hstem i => climbsOut_temporaryName hstem dir (draws i)⟩
  · cases hbare : Memory.fileSystem.tempFile draws (inside base dir) stem m with
    | mk r m₁ =>
      cases r with
      | error e' =>
        rw [Action.bind_apply_of_error hbare] at hrun
        obtain rfl := congrArg Prod.snd hrun
        exact Memory.tempFile_failed h hbare
      | ok f =>
        rw [Action.bind_apply_of_ok hbare] at hrun
        cases hrun
  · obtain ⟨g, m₁, hbare, hpure⟩ := Action.exists_of_bind hrun
    obtain rfl : m₁ = m' := congrArg Prod.snd hpure
    obtain ⟨i, hi, -, k, hmade⟩ := Memory.tempFile_makes h hbare
    have hk := hmade.place
    rw [hcandidate] at hk
    obtain rfl := Memory.eq_names_of_resolve hplain hk
    refine ⟨i, hi, hmade.planted, fun hstays => ?_⟩
    have hbelow : base.names <+: (tempCandidate draws (inside base dir) stem i).names := by
      rw [view_eq] at hstays
      rw [tempCandidate, hinside, names_join_append base.names dir.names hstays]
      exact List.prefix_append ..
    exact ⟨hbelow, fun j hj => hmade.planted.outside hbelow hj⟩

private def keepName : Name := ⟨[106], rfl⟩

private def gardenName : Name := ⟨[112], rfl⟩

private def scrapName : Name := ⟨temporaryName [116] 0, rfl⟩

/-- In an empty tree the directories above the new file are made with it. -/
theorem tempFile_planted_fresh :
    ∃ f m', (confine Memory.fileSystem ⟨[47, 106]⟩).fileSystem.tempFile (fun _ => 0) ⟨[112]⟩ [116]
        .fresh = (.ok f, m') ∧
      Planted .fresh m' [keepName, gardenName, scrapName] .file ⟨[], 0o600⟩ ∧ SameAt .fresh m' [] := by
  have hbase : (⟨[47, 106]⟩ : Path).isAbsolute = true := rfl
  have hdir : (⟨[112]⟩ : Path).climbsOut = false := rfl
  obtain ⟨-, hmade, hstays⟩ :=
    tempFile_planted Memory.wellFormed_fresh Memory.plain_fresh hbase hdir (fun _ => 0) [116]
  obtain ⟨f, m', hrun⟩ : ∃ f m', (confine Memory.fileSystem ⟨[47, 106]⟩).fileSystem.tempFile
      (fun _ => 0) ⟨[112]⟩ [116] .fresh = (.ok f, m') := ⟨_, _, tempFile_of_first hdir rfl⟩
  obtain ⟨i, -, hplanted, hbelow⟩ := hmade f m' hrun
  obtain ⟨-, houtside⟩ := hbelow (hstays (by decide) i)
  -- All random words are the same here, and so are the names that are tried.
  have hkey : (tempCandidate (fun _ => 0) (inside ⟨[47, 106]⟩ ⟨[112]⟩) [116] i).names =
      [keepName, gardenName, scrapName] := by
    show (tempCandidate (fun _ => 0) (inside ⟨[47, 106]⟩ ⟨[112]⟩) [116] 0).names = _
    decide
  rw [hkey] at hplanted
  refine ⟨f, m', hrun, hplanted, (houtside [] (by decide)).resolve_right ?_⟩
  rintro ⟨-, hfree, -⟩
  cases hfree

/-- With `../x` before the digits the file is made beside the jail. -/
theorem tempFile_leads_out :
    let m' := ((confine Memory.fileSystem ⟨[47, 106]⟩).fileSystem.tempFile (fun _ => 0) ⟨[46]⟩
      [46, 46, 47, 120] .fresh).2
    let k : Key := [⟨temporaryName [120] 0, rfl⟩]
    Memory.Plain .fresh ∧ (⟨[46]⟩ : Path).climbsOut = false ∧ ¬ [keepName] <+: k ∧
      Memory.nodeAt .fresh k = none ∧ ∃ c, m'.nodeAt k = some ⟨.file, c⟩ := by
  intro m' k
  obtain ⟨f, m₁, hrun, hnode⟩ : ∃ f m₁, (confine Memory.fileSystem ⟨[47, 106]⟩).fileSystem.tempFile
      (fun _ => 0) ⟨[46]⟩ [46, 46, 47, 120] .fresh = (.ok f, m₁) ∧
        m₁.nodeAt k = some ⟨.file, 1⟩ := ⟨_, _, tempFile_of_first rfl rfl, rfl⟩
  refine ⟨Memory.plain_fresh, rfl, by decide, rfl, 1, ?_⟩
  show Memory.nodeAt (Prod.snd _) k = _
  rw [hrun]
  exact hnode

end Jail

end ConfinedFs
