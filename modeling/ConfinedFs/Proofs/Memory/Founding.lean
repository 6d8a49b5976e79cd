import ConfinedFs.Proofs.Memory.Temporaries

/-!
Directories that are made. They stand where nothing was, so every path leads where it led before. A
temporary directory is made where its name leads once nothing is found there. If the name is that of
a link to nowhere, the directory is made where the link leads, and the link stays.
-/

namespace ConfinedFs

open ConfinedFs.Path
open ConfinedFs.BareFileSystem (temporaryAttempts temporaryName tempCandidate)

namespace FileSystem

variable {σ H : Type} {fs : FileSystem σ H} {candidate : Nat → Path} {s : σ} {p : Path} {i : Nat}
  {l tried rest : List Nat} {e : FileError} {draws : Draws} {dir : Path} {stem : Bytes}

/-- There is something where the path leads, and asking for it changes nothing. -/
def Found (fs : FileSystem σ H) (s : σ) (p : Path) : Prop := ∃ d, fs.stat p s = (.ok d, s)

theorem exists?_of_found (h : fs.Found s p) : fs.exists? p s = (.ok true, s) := by
  obtain ⟨d, hd⟩ := h
  exact Action.bind_apply_of_ok (Action.outcome_of_run hd)

theorem exists?_of_missing (h : fs.stat p s = (.error e, s)) : fs.exists? p s = (.ok false, s) :=
  Action.bind_apply_of_ok (Action.outcome_of_run h)

/-- Names where something is found are passed over. -/
theorem makeUnused_append_of_found (h : ∀ i ∈ tried, fs.Found s (candidate i)) :
    fs.makeUnused candidate (tried ++ rest) s = fs.makeUnused candidate rest s := by
  induction tried with
  | nil => rfl
  | cons i tried ih =>
    have hfirst := exists?_of_found (h i (List.mem_cons_self ..))
    rw [List.cons_append, makeUnused, Action.bind_apply_of_ok hfirst, if_pos rfl]
    exact ih fun i' hi' => h i' (List.mem_cons_of_mem _ hi')

theorem makeUnused_cons_of_missing (h : fs.stat (candidate i) s = (.error e, s)) :
    fs.makeUnused candidate (i :: l) s =
      (fs.createDirAll (candidate i) 0o700 >>= fun _ => pure (candidate i)) s := by
  rw [makeUnused, Action.bind_apply_of_ok (exists?_of_missing h), if_neg Bool.false_ne_true]

theorem unusedDir_of_first (hi : i < temporaryAttempts)
    (hbefore : ∀ j < i, fs.Found s (tempCandidate draws dir stem j))
    (h : fs.stat (tempCandidate draws dir stem i) s = (.error e, s)) :
    fs.unusedDir draws dir stem s =
      (fs.createDirAll (tempCandidate draws dir stem i) 0o700 >>= fun _ =>
        pure (tempCandidate draws dir stem i)) s := by
  obtain ⟨rest, hrange⟩ := range_eq_append_cons hi
  rw [unusedDir, hrange, makeUnused_append_of_found, makeUnused_cons_of_missing h]
  exact fun j hj => hbefore j (List.mem_range.1 hj)

theorem unusedDir_of_found
    (h : ∀ i < temporaryAttempts, fs.Found s (tempCandidate draws dir stem i)) :
    fs.unusedDir draws dir stem s = (.error .tempFileExhausted, s) := by
  rw [unusedDir, ← List.append_nil (List.range _), makeUnused_append_of_found]
  · rfl
  · exact fun i hi => h i (List.mem_range.1 hi)

end FileSystem

namespace Memory

variable {m m' : Memory} {j k r : Key} {p : Path} {followLast : Bool} {e : FileError}
  {perm : UInt32} {steps : List Step} {passed : List Passage} {node : Node}

section Founded

/-- Moves lead the same way if they meet the same. -/
theorem Journey.of_sight (hsight : ∀ k, m'.sight k = m.sight k)
    (h : Journey m followLast steps j passed r) : Journey m' followLast steps j passed r := by
  induction h with
  | done => exact .done
  | up _ ih => exact .up ih
  | through hway _ ih => exact .through ((hsight _).trans hway) ih
  | atFile hfile => exact .atFile ((hsight _).trans hfile)
  | atLink hlink hlast => exact .atLink ((hsight _).trans hlink) hlast
  | follow hlink hfollow _ ih => exact .follow ((hsight _).trans hlink) hfollow ih

/-- A walk goes through a new directory as it went through the free place. -/
theorem Founded.sight_eq (h : m.WellFormed) (hfounded : Founded m m' k perm) (j : Key) :
    m'.sight j = m.sight j := by
  by_cases hnew : j <+: k ∧ m.nodeAt j = none
  · obtain ⟨c, hnode, -⟩ := (hfounded.made hnew.1 hnew.2).nodeAt
    rw [sight_of_dir hnode rfl, sight_of_free hnew.2]
  · have hsame := hfounded.same fun hstarts hfree => hnew ⟨hstarts, hfree⟩
    rw [sight, hsame.2, sight]
    cases hnode : m.nodeAt j with
    | none => rfl
    | some node =>
      have hcontent := hfounded.content _ (h.cell_lt_of_nodeAt hnode)
      obtain ⟨kind, c⟩ := node
      cases kind with
      | symlink => exact congrArg (fun content => Sight.link ⟨content.data⟩) hcontent
      | _ => rfl

theorem Founded.resolve (h : m.WellFormed) (hfounded : Founded m m' k perm)
    (hr : m.resolve p followLast = .ok r) : m'.resolve p followLast = .ok r := by
  obtain ⟨passed, hjourney, hlength⟩ := resolve_eq_ok_iff.1 hr
  exact resolve_eq_ok_iff.2 ⟨passed, hjourney.of_sight (hfounded.sight_eq h), hlength⟩

/-- What a new directory is described as. -/
theorem Founded.describe (hfounded : Founded m m' k perm) (hfree : m.nodeAt k = none)
    (name : Bytes) : m'.describe k name = .ok ⟨name, .ofDir, perm, 0, 0⟩ := by
  obtain ⟨c, hnode, -, hcontent⟩ := (hfounded.made List.prefix_rfl hfree).nodeAt
  rw [describe_of_stored hnode, hcontent]
  rfl

/-- Nothing is in a new directory. -/
theorem Founded.children (h : m.WellFormed) (hfounded : Founded m m' k perm)
    (hfree : m.nodeAt k = none) : m'.children k = [] := by
  refine hfounded.wellFormed.children_eq_nil fun n => ?_
  have hsame := hfounded.same fun hstarts => absurd hstarts (not_starts_concat k n)
  rw [hsame.2, h.free_concat hfree n]

/-- Where nothing but directories and free places are in the way, the missing ones are made. -/
theorem createDirAll_of_enterable (hk : m.resolve p true = .ok k) (henter : m.Enterable k)
    (h : m.WellFormed) (mode : UInt32) :
    ∃ m', createDirAll p mode m = (.ok (), m') ∧ Founded m m' k (mode &&& permissionMask) := by
  obtain ⟨m', hrun, hfounded⟩ := founded_ensureDirs h henter (mode &&& permissionMask)
  have hplace : (Action.query (Memory.resolve · p true) : Action FileError Memory Key) m =
      (.ok k, m) := Prod.ext hk rfl
  refine ⟨m', ?_, hfounded⟩
  rw [createDirAll, Action.bind_apply_of_ok hplace, Action.bind_apply_of_ok (Action.look_apply _ m)]
  cases hnode : m.nodeAt k with
  | none => exact hrun
  | some n =>
    have hdir : n.isDir = true := henter k n List.prefix_rfl hnode
    dsimp only
    rw [hdir]
    exact hrun

theorem createDirAll_of_free (h : m.WellFormed) (hk : m.resolve p true = .ok k)
    (hfree : m.nodeAt k = none) (mode : UInt32) :
    ∃ m', createDirAll p mode m = (.ok (), m') ∧ Founded m m' k (mode &&& permissionMask) := by
  have henter : m.Enterable k := (passable_of_resolve h hk).enterable fun n hn => by
    cases hfree.symm.trans hn
  exact createDirAll_of_enterable hk henter h mode

end Founded

section TempDir

variable {draws : Draws} {dir : Path} {stem : Bytes}

theorem found_iff (h : m.WellFormed) : fileSystem.Found m p ↔
    ∃ k node, m.resolve p true = .ok k ∧ m.nodeAt k = some node := by
  have hstat : fileSystem.stat p m = (m.stat p, m) := rfl
  rw [FileSystem.Found, hstat]
  cases hk : m.resolve p true with
  | error e =>
    have hlost : m.stat p = .error e := by
      rw [stat, hk]
      rfl
    rw [hlost]
    constructor
    · rintro ⟨d, heq⟩
      cases heq
    · rintro ⟨k, node, heq, -⟩
      cases heq
  | ok k =>
    have hdescribe : m.stat p = m.describe k p.baseName.bytes := by
      rw [stat, hk]
      rfl
    rw [hdescribe]
    cases hnode : m.nodeAt k with
    | none =>
      rw [describe_of_free h hnode]
      constructor
      · rintro ⟨d, heq⟩
        cases heq
      · rintro ⟨k, node, heq, hsome⟩
        cases heq
        cases hnode.symm.trans hsome
    | some node =>
      rw [describe_of_stored hnode]
      constructor
      · intro _
        exact ⟨k, node, rfl, hnode⟩
      · intro _
        exact ⟨_, rfl⟩

/-- A directory that only its owner may use has been made where the path leads, and there was
nothing there. -/
structure MadeDir (m : Memory) (p : Path) (m' : Memory) (k : Key) : Prop where
  place : m.resolve p true = .ok k
  free : m.nodeAt k = none
  founded : Founded m m' k 0o700

/-- What comes of making a temporary directory: something is found at all names, or at the first one
where nothing is found the path leads astray or the directory is made. -/
inductive TriesDirs (m : Memory) (candidate : Nat → Path) : Except FileError Path × Memory → Prop
  | exhausted (hfound : ∀ i < temporaryAttempts, fileSystem.Found m (candidate i)) :
      TriesDirs m candidate (.error .tempFileExhausted, m)
  | astray {i : Nat} {e : FileError} (hi : i < temporaryAttempts)
      (hnot : ¬ fileSystem.Found m (candidate i))
      (hlost : m.resolve (candidate i) true = .error e) : TriesDirs m candidate (.error e, m)
  | made {i : Nat} {k : Key} {m' : Memory} (hi : i < temporaryAttempts)
      (hbefore : ∀ j < i, fileSystem.Found m (candidate j))
      (hmade : MadeDir m (candidate i) m' k) : TriesDirs m candidate (.ok (candidate i), m')

theorem triesDirs_unusedDir (h : m.WellFormed) (draws : Draws) (dir : Path) (stem : Bytes) :
    TriesDirs m (tempCandidate draws dir stem) (fileSystem.unusedDir draws dir stem m) := by
  rcases all_or_first (P := fun i => fileSystem.Found m (tempCandidate draws dir stem i))
    temporaryAttempts with hfound | ⟨i, hi, hbefore, hnot⟩
  · rw [FileSystem.unusedDir_of_found hfound]
    exact .exhausted hfound
  · obtain ⟨e, hmissing⟩ : ∃ e,
        fileSystem.stat (tempCandidate draws dir stem i) m = (.error e, m) := by
      cases hstat : m.stat (tempCandidate draws dir stem i) with
      | ok d => exact absurd ⟨d, Prod.ext hstat rfl⟩ hnot
      | error e => exact ⟨e, Prod.ext hstat rfl⟩
    rw [FileSystem.unusedDir_of_first hi hbefore hmissing]
    cases hk : m.resolve (tempCandidate draws dir stem i) true with
    | error e =>
      have hplace : (Action.query (Memory.resolve · (tempCandidate draws dir stem i) true) :
          Action FileError Memory Key) m = (.error e, m) := Prod.ext hk rfl
      have hrun : fileSystem.createDirAll (tempCandidate draws dir stem i) 0o700 m =
          (.error e, m) := Action.bind_apply_of_error hplace
      rw [Action.bind_apply_of_error hrun]
      exact .astray hi hnot hk
    | ok k =>
      have hfree : m.nodeAt k = none := by
        cases hnode : m.nodeAt k with
        | none => rfl
        | some node => exact absurd ((found_iff h).2 ⟨k, node, hk, hnode⟩) hnot
      obtain ⟨m', hrun, hfounded⟩ := createDirAll_of_free h hk hfree 0o700
      have hcreated : fileSystem.createDirAll (tempCandidate draws dir stem i) 0o700 m =
          (.ok (), m') := hrun
      rw [Action.bind_apply_of_ok hcreated]
      exact .made hi hbefore ⟨hk, hfree, hfounded⟩

/-- At the name of a directory that has been made there is the directory, where nothing was, or a
link that was there before. -/
theorem MadeDir.lstat (h : m.WellFormed) (hmade : MadeDir m p m' k) :
    m.lstat p = .error .entityNotFound ∧
        m'.lstat p = .ok ⟨p.baseName.bytes, .ofDir, 0o700, 0, 0⟩ ∨
      ∃ d : Metadata, d.isSymlink = true ∧ m.lstat p = .ok d ∧ m'.lstat p = .ok d := by
  obtain ⟨hk, hfree, hfounded⟩ := hmade
  obtain ⟨j, hj⟩ := resolve_unfollowed hk
  have hj' := hfounded.resolve h hj
  have hlstat : m.lstat p = m.describe j p.baseName.bytes := by
    rw [Memory.lstat, hj]
    rfl
  have hlstat' : m'.lstat p = m'.describe j p.baseName.bytes := by
    rw [Memory.lstat, hj']
    rfl
  rw [hlstat, hlstat']
  by_cases hend : m.NoLinkAt j
  · obtain rfl : j = k := Except.ok.inj ((resolve_followed hj hend).symm.trans hk)
    exact .inl ⟨describe_of_free h hfree _, hfounded.describe hfree _⟩
  · obtain ⟨c, hlink⟩ : ∃ c, m.nodeAt j = some ⟨.symlink, c⟩ := by
      simpa [NoLinkAt] using hend
    have hsame := hfounded.same fun _ hnone => by cases hlink.symm.trans hnone
    have hcontent := hfounded.content c (h.cell_lt_of_nodeAt hlink)
    rw [describe_of_stored hlink, describe_of_stored (hsame.2.trans hlink), hcontent]
    exact .inr ⟨_, rfl, rfl, rfl⟩

/-- After any calls, the names for a temporary directory are tried in turn, and at the first one
where nothing is found an empty directory for its owner only is made where the name leads. It is at
the name itself if nothing was there; what else can be there is a link to nowhere, which stays as it
is. The names are exhausted if something is found at all of them. A failure changes nothing. -/
theorem run_unusedDir (calls : List Call) (draws : Draws) (dir : Path) (stem : Bytes) :
    let m := (Session.run calls).memory
    let candidate := tempCandidate draws dir stem
    let made := fileSystem.unusedDir draws dir stem m
    (∀ p m', made = (.ok p, m') → ∃ i < temporaryAttempts,
      (∀ j < i, ∃ d, fileSystem.stat (candidate j) m = (.ok d, m)) ∧ p = candidate i ∧
      (∃ k, m.resolve p true = .ok k ∧ m.nodeAt k = none ∧ Founded m m' k 0o700 ∧
        m'.resolve p true = .ok k ∧ m'.children k = []) ∧
      (m.lstat p = .error .entityNotFound ∧
          m'.lstat p = .ok ⟨p.baseName.bytes, .ofDir, 0o700, 0, 0⟩ ∨
        ∃ d : Metadata, d.isSymlink = true ∧ m.lstat p = .ok d ∧ m'.lstat p = .ok d)) ∧
    ((∃ m', made = (.error .tempFileExhausted, m')) ↔
      ∀ i < temporaryAttempts, ∃ d, fileSystem.stat (candidate i) m = (.ok d, m)) ∧
    ∀ e m', made = (.error e, m') → m' = m := by
  intro m candidate made
  have h : m.WellFormed := Session.wellFormed_run calls
  have htries : TriesDirs m candidate made := triesDirs_unusedDir h draws dir stem
  generalize made = run at htries
  refine ⟨fun p m' hrun => ?_, ?_, fun e m' hrun => ?_⟩
  · subst hrun
    cases htries with
    | @made i k _ hi hbefore hmade =>
      exact ⟨i, hi, hbefore, rfl, ⟨k, hmade.place, hmade.free, hmade.founded,
        hmade.founded.resolve h hmade.place, hmade.founded.children h hmade.free⟩, hmade.lstat h⟩
  · cases htries with
    | exhausted hfound => exact ⟨fun _ => hfound, fun _ => ⟨m, rfl⟩⟩
    | @astray i e hi hnot hlost =>
      refine iff_of_false ?_ fun hfound => hnot (hfound i hi)
      rintro ⟨m', heq⟩
      cases heq
      rcases resolve_eq_error hlost with he | he <;> cases he
    | @made i k m' hi _ hmade =>
      refine iff_of_false nofun fun hfound => ?_
      obtain ⟨k', node, hk', hnode⟩ := (found_iff h).1 (hfound i hi)
      cases hmade.place.symm.trans hk'
      cases hmade.free.symm.trans hnode
  · subst hrun
    cases htries with
    | exhausted => rfl
    | astray => rfl

/-- A link to nowhere has the first name that is tried. -/
private def awayByLink : List Call := [.symlink ⟨[100]⟩ ⟨temporaryName [120] 0⟩]

/-- The directory is made where the link leads, and the name is still that of the link. -/
theorem run_unusedDir_dangling_link :
    let m := (Session.run awayByLink).memory
    ∃ p m', fileSystem.unusedDir (fun _ => 0) Path.top [120] m = (.ok p, m') ∧
      (m.lstat p).map (·.isSymlink) = .ok true ∧ m'.lstat p = m.lstat p ∧
      m.nodeAt [⟨[100], rfl⟩] = none ∧
      m'.describe [⟨[100], rfl⟩] [] = .ok ⟨[], .ofDir, 0o700, 0, 0⟩ := by
  intro m
  have hmissing : fileSystem.stat (tempCandidate (fun _ => 0) Path.top [120] 0) m =
      (.error .entityNotFound, m) := rfl
  have hfirst : fileSystem.unusedDir (fun _ => 0) Path.top [120] m = _ :=
    FileSystem.unusedDir_of_first (i := 0) (by decide) nofun hmissing
  exact ⟨_, _, hfirst, rfl, rfl, rfl, rfl⟩

end TempDir

end Memory

end ConfinedFs
