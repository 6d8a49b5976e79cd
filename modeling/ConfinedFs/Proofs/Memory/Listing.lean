import ConfinedFs.Proofs.Memory.Mirror
import ConfinedFs.Proofs.Memory.Removing

/-!
The listing of a directory. Its entries are what is stored directly in it, in the order of their
names, each name once, and each entry is described as its own path describes it.
-/

namespace ConfinedFs

open ConfinedFs.Path

/-- In a list in order, with repetitions, what is left of each of them comes in strict order. -/
theorem pairwise_eraseDups {α : Type} [DecidableEq α] {R : α → α → Prop} {l : List α}
    (h : l.Pairwise fun a b => a = b ∨ R a b) : l.eraseDups.Pairwise R := by
  induction hlength : l.length using Nat.strongRecOn generalizing l with
  | ind length ih =>
    cases l with
    | nil => exact List.Pairwise.nil
    | cons a l =>
      rw [List.eraseDups_cons, List.pairwise_cons]
      obtain ⟨hfirst, hrest⟩ := List.pairwise_cons.1 h
      constructor
      · intro b hb
        obtain ⟨hmem, hne⟩ := List.mem_filter.1 (List.mem_eraseDups.1 hb)
        refine (hfirst b hmem).resolve_left ?_
        rintro rfl
        simp at hne
      · refine ih _ ?_ (hrest.filter _) rfl
        rw [← hlength, List.length_cons]
        exact Nat.lt_succ_of_le (List.length_filter_le _ l)

namespace Memory

variable {m : Memory} {k : Key} {n : Name} {p : Path} {names : List Name} {node : Node}
  {l : Listing} {followLast : Bool}

/-- The names of the entries of a directory are in order, each once. -/
theorem sorted_children (h : m.WellFormed) (k : Key) : (m.children k).Pairwise (· < ·) := by
  rw [children_eq_waysDown]
  apply pairwise_eraseDups
  rw [List.pairwise_filterMap]
  refine (sorted_waysDown h k).imp fun {r r'} hlt n hn n' hn' => ?_
  obtain ⟨rest, rfl⟩ := List.head?_eq_some_iff.1 hn
  obtain ⟨rest', rfl⟩ := List.head?_eq_some_iff.1 hn'
  rcases List.cons_lt_cons_iff.1 hlt with hfirst | ⟨hsame, -⟩
  · exact .inr hfirst
  · exact .inl hsame

/-- A path that leads to a directory or a free place goes on to what is below it. -/
theorem resolve_child (hk : m.resolve (ofNames names) followLast = .ok k) (hway : m.sight k = .way)
    (n : Name) : m.resolve (ofNames (names ++ [n])) false = .ok (k ++ [n]) := by
  obtain ⟨passed, hjourney, hlength⟩ := resolve_eq_ok_iff.1 hk
  refine resolve_eq_ok_iff.2 ⟨passed.map (Passage.longer n), ?_, by rwa [List.length_map]⟩
  rw [steps_ofNames] at hjourney ⊢
  rw [List.map_append]
  exact hjourney.concat hway n

theorem lstat_child (hk : m.resolve (ofNames names) followLast = .ok k) (hway : m.sight k = .way)
    (n : Name) : m.lstat (ofNames (names ++ [n])) = m.describe (k ++ [n]) n.bytes := by
  rw [lstat, resolve_child hk hway n, baseName_ofNames_concat]
  rfl

/-- An entry of the directory at a place, which is listed under some names. -/
def entryIn (m : Memory) (k : Key) (names : List Name) (n : Name) : DirEntry :=
  ⟨ofNames (names ++ [n]), m.describe (k ++ [n]) n.bytes⟩

theorem fileName_entryIn (m : Memory) (k : Key) (names : List Name) (n : Name) :
    (m.entryIn k names n).fileName = n.bytes := by
  rw [DirEntry.fileName, entryIn, fileName?_ofNames_concat]
  rfl

/-- The entries of the directory at a place, listed under some names. -/
def entriesIn (m : Memory) (k : Key) (names : List Name) : List DirEntry :=
  (m.children k).map (m.entryIn k names)

theorem mem_entriesIn {e : DirEntry} :
    e ∈ m.entriesIn k names ↔ ∃ n ∈ m.children k, m.entryIn k names n = e := List.mem_map

theorem sorted_entriesIn (h : m.WellFormed) (k : Key) (names : List Name) :
    (m.entriesIn k names).Pairwise fun e e' => e.fileName < e'.fileName := by
  refine List.pairwise_map.2 ((sorted_children h k).imp fun {n n'} hlt => ?_)
  rw [fileName_entryIn, fileName_entryIn]
  exact hlt

/-- What comes of a listing: the entries of a directory, an error that is not for want of it, or
the place is free. -/
inductive Lists (m : Memory) (p : Path) : Except FileError Listing → Prop
  | entries {k : Key} {node : Node} (hk : m.resolve p true = .ok k)
      (hnode : m.nodeAt k = some node) (hdir : node.isDir = true) :
      Lists m p (.ok ⟨m.entriesIn k p.names⟩)
  | missing {k : Key} (hk : m.resolve p true = .ok k) (hfree : m.nodeAt k = none) :
      Lists m p (.error .entityNotFound)
  | refused {e : FileError} (hother : e ≠ .entityNotFound) : Lists m p (.error e)

/-- What comes of a listing is told by what there is where the path leads. -/
theorem readDir_eq (h : m.WellFormed) (hk : m.resolve p true = .ok k) : m.readDir p =
    match m.nodeAt k with
    | some node =>
      if node.isDir then .ok ⟨m.entriesIn k p.names⟩ else .error .baseNotDirectory
    | none => .error .entityNotFound := by
  cases hnode : m.nodeAt k with
  | none =>
    have hbelow : m.hasDescendants k = false :=
      h.hasDescendants_eq_false_iff.2 fun _ hr _ => h.free_of_prefix hnode hr
    rw [readDir, hk]
    simp only [bind, Except.bind, hnode, hbelow]
    rfl
  | some node =>
    cases hdir : node.isDir with
    | true =>
      have hlisted := congrArg Prod.fst (readDir_of_dir hk hnode hdir)
      simp only [fromTop_eq, push_ofNames] at hlisted
      simp only [hdir, if_true]
      exact hlisted
    | false =>
      rw [readDir, hk]
      simp only [bind, Except.bind, hnode, hdir]
      rfl

theorem readDir_of_error {e : FileError} (he : m.resolve p true = .error e) :
    m.readDir p = .error e := by
  rw [readDir, he]
  rfl

theorem lists_readDir (h : m.WellFormed) (p : Path) : Lists m p (m.readDir p) := by
  cases hk : m.resolve p true with
  | error e =>
    have harrives := resolve_arrives h p true
    rw [hk] at harrives
    rw [readDir_of_error hk]
    exact .refused harrives
  | ok k =>
    rw [readDir_eq h hk]
    cases hnode : m.nodeAt k with
    | none => exact .missing hk hnode
    | some node =>
      dsimp only
      split
      · next hdir => exact .entries hk hnode hdir
      · exact .refused nofun

section Exact

/-- The entry goes by the name, and it is described as the node that is stored under the name in
the directory. A link is described and not followed. -/
def Describes (m : Memory) (k : Key) (n : Name) (e : DirEntry) : Prop :=
  e.fileName = n.bytes ∧ ∃ child, m.nodeAt (k ++ [n]) = some child ∧
    e.metadata = .ok ((m.content child.cell).metadata child.kind n.bytes)

theorem describes_entriesIn (h : m.WellFormed) (k : Key) (names : List Name) :
    List.Forall₂ (m.Describes k) (m.children k) (m.entriesIn k names) := by
  rw [entriesIn, List.forall₂_map_right_iff, List.forall₂_same]
  intro n hn
  obtain ⟨child, hchild⟩ := h.mem_children_iff.1 hn
  exact ⟨fileName_entryIn m k names n, child, hchild, describe_of_stored hchild n.bytes⟩

end Exact

/-- After any calls, a path that leads nowhere gives its error. Where it leads to a directory, the
names of what is stored directly in it are listed, in strict order, each with what is known about
its own node. A file is no directory to list, and neither is a free place. A listing changes
nothing. -/
theorem run_readDir (calls : List Call) (p : Path) :
    let m := (Session.run calls).memory
    (∀ e, m.resolve p true = .error e → fileSystem.readDir p m = (.error e, m)) ∧
    ∀ k, m.resolve p true = .ok k →
      ((∃ l, fileSystem.readDir p m = (.ok l, m)) ↔ ∃ c, m.nodeAt k = some ⟨.directory, c⟩) ∧
      (fileSystem.readDir p m = (.error .baseNotDirectory, m) ↔
        ∃ c, m.nodeAt k = some ⟨.file, c⟩) ∧
      (fileSystem.readDir p m = (.error .entityNotFound, m) ↔ m.nodeAt k = none) ∧
      ∀ l m', fileSystem.readDir p m = (.ok l, m') → m' = m ∧ ∃ names : List Name,
        names.Pairwise (· < ·) ∧
        (∀ n, n ∈ names ↔ ∃ child, m.nodeAt (k ++ [n]) = some child) ∧
        List.Forall₂ (m.Describes k) names l.entries := by
  intro m
  have h : m.WellFormed := Session.wellFormed_run calls
  have hrun : fileSystem.readDir p m = (m.readDir p, m) := rfl
  refine ⟨fun e he => by rw [hrun, readDir_of_error he], fun k hk => ?_⟩
  have hend : m.NoLinkAt k := noLinkAt_resolve h hk
  rw [hrun, readDir_eq h hk]
  cases hnode : m.nodeAt k with
  | none => simp
  | some node =>
    obtain ⟨kind, c⟩ := node
    cases kind with
    | symlink => exact absurd hnode (hend c)
    | file => simp [Node.isDir]
    | directory =>
      refine ⟨by simp [Node.isDir], by simp [Node.isDir], by simp [Node.isDir], ?_⟩
      rintro l m' hlisted
      cases hlisted
      exact ⟨rfl, m.children k, sorted_children h k, fun n => h.mem_children_iff,
        describes_entriesIn h k p.names⟩

private def loftName : Name := ⟨[107], rfl⟩

private def hatchName : Name := ⟨[104], rfl⟩

/-- A directory is listed by way of a link. The link in it is described, although it points to
nothing, and the file beside the directory whose name starts with the same byte is left out. -/
theorem run_readDir_by_link :
    let m := (Session.run [.createDirAll ⟨[107, 47, 98, 47, 99]⟩ 0o755,
      .symlink ⟨[122]⟩ ⟨[107, 47, 104]⟩, .openFile ⟨[107, 97]⟩ .creating,
      .symlink ⟨[107]⟩ ⟨[101]⟩]).memory
    ∃ l, fileSystem.readDir ⟨[101]⟩ m = (.ok l, m) ∧ ∃ names : List Name,
      names.Pairwise (· < ·) ∧ hatchName ∈ names ∧ ⟨[97], rfl⟩ ∉ names ∧
        List.Forall₂ (m.Describes [loftName]) names l.entries := by
  intro m
  have hk : m.resolve ⟨[101]⟩ true = .ok [loftName] := rfl
  have hdir : m.nodeAt [loftName] = some ⟨.directory, 1⟩ := rfl
  obtain ⟨hlists, -, -, hexact⟩ := (run_readDir _ ⟨[101]⟩).2 _ hk
  obtain ⟨l, hl⟩ := hlists.2 ⟨1, hdir⟩
  obtain ⟨-, names, hsorted, hnames, hentries⟩ := hexact l _ hl
  have hlink : m.nodeAt ([loftName] ++ [hatchName]) = some ⟨.symlink, 4⟩ := rfl
  have hfree : m.nodeAt ([loftName] ++ [⟨[97], rfl⟩]) = none := rfl
  refine ⟨l, hl, names, hsorted, (hnames _).2 ⟨_, hlink⟩, fun hmem => ?_, hentries⟩
  obtain ⟨child, hchild⟩ := (hnames _).1 hmem
  cases hfree.symm.trans hchild

end Memory

end ConfinedFs
