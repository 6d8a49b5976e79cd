import ConfinedFs.Proofs.Memory.Founding
import ConfinedFs.Proofs.Memory.Opening

/-!
Making a directory and all those above it. The missing ones are made where the path leads, through
links too, and nothing that was there is touched. The path leads to the same place afterwards, so
there is nothing left to do when the directory is asked for again.
-/

namespace ConfinedFs.Memory

variable {m m' : Memory} {k : Key} {p : Path} {e : FileError} {perm : UInt32} {c : CellId}

/-- Where a path leads is a file, or a directory can be there. -/
theorem file_or_enterable (h : m.WellFormed) (hk : m.resolve p true = .ok k) :
    (∃ c, m.nodeAt k = some ⟨.file, c⟩) ∨ m.Enterable k := by
  cases hnode : m.nodeAt k with
  | none => exact .inr ((passable_of_resolve h hk).enterable fun n hn => by cases hnode.symm.trans hn)
  | some n =>
    obtain ⟨kind, c⟩ := n
    cases kind with
    | file => exact .inl ⟨c, rfl⟩
    | symlink => exact absurd hnode (noLinkAt_resolve h hk c)
    | directory =>
      refine .inr ((passable_of_resolve h hk).enterable fun n hn => ?_)
      cases hnode.symm.trans hn
      rfl

theorem createDirAll_of_lost (hlost : m.resolve p true = .error e) (mode : UInt32) :
    createDirAll p mode m = (.error e, m) := by
  have hplace : (Action.query (Memory.resolve · p true) : Action FileError Memory Key) m =
      (.error e, m) := Prod.ext hlost rfl
  rw [createDirAll, Action.bind_apply_of_error hplace]

theorem createDirAll_of_file (hk : m.resolve p true = .ok k)
    (hnode : m.nodeAt k = some ⟨.file, c⟩) (mode : UInt32) :
    createDirAll p mode m = (.error .alreadyExists, m) := by
  have hplace : (Action.query (Memory.resolve · p true) : Action FileError Memory Key) m =
      (.ok k, m) := Prod.ext hk rfl
  rw [createDirAll, Action.bind_apply_of_ok hplace, Action.bind_apply_of_ok (Action.look_apply _ m),
    hnode]
  rfl

/-- At the place there is a directory afterwards. -/
theorem Founded.dir (h : Founded m m' k perm) (henter : m.Enterable k) :
    ∃ n, m'.nodeAt k = some n ∧ n.isDir = true := by
  cases hnode : m.nodeAt k with
  | none =>
    obtain ⟨c, hmade, -⟩ := (h.made List.prefix_rfl hnode).nodeAt
    exact ⟨_, hmade, rfl⟩
  | some n =>
    have hsame : SameAt m m' k := h.same fun _ hfree => by cases hnode.symm.trans hfree
    exact ⟨n, hsame.2.trans hnode, henter k n List.prefix_rfl hnode⟩

theorem mem_chain {a : Key} : a ∈ k.chain ↔ a <+: k := by
  induction k generalizing a with
  | nil => rw [Key.chain, List.mem_singleton, List.prefix_nil]
  | cons n rest ih =>
    rw [Key.chain, List.mem_cons, List.mem_map, List.prefix_cons_iff]
    simp only [ih, and_comm, eq_comm]

/-- Nothing is made where all the places hold directories. -/
theorem ensureEach_of_dirs {l : List Key}
    (hdirs : ∀ a ∈ l, ∃ n, m.nodeAt a = some n ∧ n.isDir = true) (perm : UInt32) :
    ensureEach perm l m = (.ok (), m) := by
  induction l with
  | nil => rfl
  | cons a l ih =>
    rw [ensureEach_of_dir (hdirs a (List.mem_cons_self ..))]
    exact ih fun b hb => hdirs b (List.mem_cons_of_mem _ hb)

theorem ensureDirs_of_dir (h : m.WellFormed) (hdir : ∃ n, m.nodeAt k = some n ∧ n.isDir = true)
    (perm : UInt32) : ensureDirs k perm m = (.ok (), m) := by
  exact ensureEach_of_dirs (fun a ha => h.dir_of_prefix hdir (mem_chain.1 ha)) perm

theorem createDirAll_of_dir (h : m.WellFormed) (hk : m.resolve p true = .ok k)
    (hdir : ∃ n, m.nodeAt k = some n ∧ n.isDir = true) (mode : UInt32) :
    createDirAll p mode m = (.ok (), m) := by
  have hplace : (Action.query (Memory.resolve · p true) : Action FileError Memory Key) m =
      (.ok k, m) := Prod.ext hk rfl
  have hrun := ensureDirs_of_dir h hdir (mode &&& permissionMask)
  obtain ⟨n, hnode, hisDir⟩ := hdir
  rw [createDirAll, Action.bind_apply_of_ok hplace, Action.bind_apply_of_ok (Action.look_apply _ m),
    hnode]
  dsimp only
  rw [hisDir]
  exact hrun

theorem stat_of_dir (hk : m.resolve p true = .ok k)
    (hdir : ∃ n, m.nodeAt k = some n ∧ n.isDir = true) :
    ∃ d, fileSystem.stat p m = (.ok d, m) ∧ d.isDir = true := by
  obtain ⟨⟨kind, c⟩, hnode, hisDir⟩ := hdir
  have hkind : kind = .directory := of_decide_eq_true hisDir
  subst hkind
  have hstat : m.stat p = m.describe k p.baseName.bytes := by
    rw [stat, hk]
    rfl
  rw [describe_of_stored hnode] at hstat
  exact ⟨_, Prod.ext hstat rfl, rfl⟩

/-- After any calls, a directory and those above it are made where the path leads, unless that is
a file or the path leads nowhere, and then nothing changes. The directories that were missing are
the only new nodes, each with the permissions asked for; what was there keeps its number, its kind,
its content and its permissions. The path leads to the directory afterwards, and to make it again
changes nothing. -/
theorem run_createDirAll (calls : List Call) (p : Path) (mode : UInt32) :
    let m := (Session.run calls).memory
    let made := fileSystem.createDirAll p mode m
    (∀ e, m.resolve p true = .error e → made = (.error e, m)) ∧
    ∀ k, m.resolve p true = .ok k →
      (∀ c, m.nodeAt k = some ⟨.file, c⟩ → made = (.error .alreadyExists, m)) ∧
      ((∀ c, m.nodeAt k ≠ some ⟨.file, c⟩) →
        ∃ m', made = (.ok (), m') ∧ Founded m m' k (mode &&& permissionMask) ∧
          m'.resolve p true = .ok k ∧
          (∃ d, fileSystem.stat p m' = (.ok d, m') ∧ d.isDir = true) ∧
          ∀ mode', fileSystem.createDirAll p mode' m' = (.ok (), m')) := by
  intro m made
  have h : m.WellFormed := Session.wellFormed_run calls
  refine ⟨fun e hlost => createDirAll_of_lost hlost mode, fun k hk => ⟨?_, ?_⟩⟩
  · intro c hfile
    exact createDirAll_of_file hk hfile mode
  · intro hnot
    have henter : m.Enterable k := (file_or_enterable h hk).resolve_left fun ⟨c, hfile⟩ =>
      hnot c hfile
    obtain ⟨m', hrun, hfounded⟩ := createDirAll_of_enterable hk henter h mode
    have hk' : m'.resolve p true = .ok k := hfounded.resolve h hk
    have hdir := hfounded.dir henter
    exact ⟨m', hrun, hfounded, hk', stat_of_dir hk' hdir,
      createDirAll_of_dir hfounded.wellFormed hk' hdir⟩

/-- The place of `xa/yb/zc`. -/
private def shelfKey : Key := [⟨[120, 97], rfl⟩, ⟨[121, 98], rfl⟩, ⟨[122, 99], rfl⟩]

/-- Directories are made by way of a link to nowhere, which is left as it is. -/
theorem run_createDirAll_dangling_link :
    let m := (Session.run [.symlink ⟨[120, 97, 47, 121, 98]⟩ ⟨[108]⟩]).memory
    ∃ m', fileSystem.createDirAll ⟨[108, 47, 122, 99]⟩ 0o40750 m = (.ok (), m') ∧
      (∀ a, a <+: shelfKey → a ≠ [] →
        m.nodeAt a = none ∧ Created m m' a .directory ⟨[], 0o750⟩) ∧
      m'.nodeAt [⟨[108], rfl⟩] = m.nodeAt [⟨[108], rfl⟩] ∧
      fileSystem.createDirAll ⟨[108, 47, 122, 99]⟩ 0o700 m' = (.ok (), m') := by
  intro m
  have hk : m.resolve ⟨[108, 47, 122, 99]⟩ true = .ok shelfKey := rfl
  have hnot : ∀ c, m.nodeAt shelfKey ≠ some ⟨.file, c⟩ := nofun
  obtain ⟨m', hrun, hfounded, -, -, hagain⟩ :=
    ((run_createDirAll [.symlink ⟨[120, 97, 47, 121, 98]⟩ ⟨[108]⟩] ⟨[108, 47, 122, 99]⟩
      0o40750).2 _ hk).2 hnot
  have hfree : ∀ a ∈ shelfKey.chain, a ≠ [] → m.nodeAt a = none := by
    intro a ha hne
    simp only [shelfKey, Key.chain, List.map_cons, List.map_nil, List.mem_cons,
      List.not_mem_nil, or_false] at ha
    rcases ha with rfl | rfl | rfl | rfl
    · exact absurd rfl hne
    all_goals rfl
  refine ⟨m', hrun, fun a ha hne => ?_, (hfounded.same fun hstarts => ?_).2, hagain 0o700⟩
  · have hmissing := hfree a (mem_chain.2 ha) hne
    exact ⟨hmissing, hfounded.made ha hmissing⟩
  · exact absurd hstarts (by decide)

end ConfinedFs.Memory
