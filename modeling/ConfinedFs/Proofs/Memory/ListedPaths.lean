import ConfinedFs.Proofs.Memory.Listing
import ConfinedFs.Proofs.Path.Retracing

/-!
The paths of listed entries. A directory is found move by move, but the paths of its entries are
made from the names that its own path comes down to. They lead to the entries if these names lead to
the directory, and they do unless the path leads up again from where a link has taken it.
-/

namespace ConfinedFs.Memory

open ConfinedFs.Path

variable {m : Memory} {j k r : Key} {n : Name} {p : Path} {names kept : List Name}
  {followLast : Bool} {steps first more : List Step} {passed : List Passage}

section Split

theorem isDir_of_sight {node : Node} (hk : m.sight k = .way) (hnode : m.nodeAt k = some node) :
    node.isDir = true := by
  obtain ⟨kind, c⟩ := node
  cases kind with
  | directory => rfl
  | file | symlink => simp [sight, hnode] at hk

theorem Enterable.sight_eq_way (h : m.Enterable k) : m.sight k = .way := by
  cases hnode : m.nodeAt k with
  | none => exact sight_of_free hnode
  | some node => exact sight_of_dir hnode (h k node (List.prefix_refl k) hnode)

/-- A journey that goes on after some of its moves has arrived, by then, where it can go on. The
links on the way there have been followed, a link at the end included. -/
theorem Journey.split (h : m.WellFormed) (hk : m.Enterable k) (hmore : more ≠ [])
    (hjourney : Journey m followLast (first ++ more) k passed r) :
    ∃ passed₁ passed₂ j, Journey m true first k passed₁ j ∧ m.Enterable j ∧
      Journey m followLast more j passed₂ r ∧ passed₁.length + passed₂.length = passed.length := by
  generalize hsteps : first ++ more = steps at hjourney
  induction hjourney generalizing first with
  | done => exact absurd (List.append_eq_nil_iff.1 hsteps).2 hmore
  | up hrest ih =>
    rcases List.append_eq_cons_iff.1 hsteps with ⟨rfl, rfl⟩ | ⟨first, rfl, rfl⟩
    · exact ⟨[], _, _, .done, hk, .up hrest, Nat.zero_add _⟩
    · obtain ⟨passed₁, passed₂, j, hfirst, hj, hlater, hlength⟩ := ih hk.parent rfl
      exact ⟨passed₁, passed₂, j, .up hfirst, hj, hlater, hlength⟩
  | through hway hrest ih =>
    rcases List.append_eq_cons_iff.1 hsteps with ⟨rfl, rfl⟩ | ⟨first, rfl, rfl⟩
    · exact ⟨[], _, _, .done, hk, .through hway hrest, Nat.zero_add _⟩
    · obtain ⟨passed₁, passed₂, j, hfirst, hj, hlater, hlength⟩ :=
        ih (hk.concat fun node => isDir_of_sight hway) rfl
      exact ⟨passed₁, passed₂, j, .through hway hfirst, hj, hlater, hlength⟩
  | atFile hfile =>
    rcases List.append_eq_cons_iff.1 hsteps with ⟨rfl, rfl⟩ | ⟨first, rfl, hnil⟩
    · exact ⟨[], _, _, .done, hk, .atFile hfile, rfl⟩
    · exact absurd (List.append_eq_nil_iff.1 hnil.symm).2 hmore
  | atLink hlink hlast =>
    rcases List.append_eq_cons_iff.1 hsteps with ⟨rfl, rfl⟩ | ⟨first, rfl, hnil⟩
    · exact ⟨[], _, _, .done, hk, .atLink hlink hlast, rfl⟩
    · exact absurd (List.append_eq_nil_iff.1 hnil.symm).2 hmore
  | @follow n rest k r passed target hlink hfollow hrest ih =>
    rcases List.append_eq_cons_iff.1 hsteps with ⟨rfl, rfl⟩ | ⟨first, rfl, rfl⟩
    · exact ⟨[], _, _, .done, hk, .follow hlink hfollow hrest, Nat.zero_add _⟩
    · have hstart : m.Enterable (if target.isAbsolute then [] else k) := by
        split
        · exact h.enterable_top
        · exact hk
      obtain ⟨passed₁, passed₂, j, hfirst, hj, hlater, hlength⟩ :=
        ih hstart (List.append_assoc target.steps first more)
      refine ⟨_, passed₂, j, .follow hlink (.inl rfl) hfirst, hj, hlater, ?_⟩
      rw [List.length_cons, List.length_cons, Nat.succ_add, hlength]

end Split

section Entries

/-- One move down is made by way of no link, unless there is one to be followed. -/
theorem Journey.of_one_down (h : Journey m followLast [.down n] k passed r)
    (hend : followLast = true → m.NoLinkAt (k ++ [n])) : r = k ++ [n] := by
  cases h with
  | through _ hrest =>
    cases hrest
    rfl
  | atFile => rfl
  | atLink => rfl
  | follow hlink hfollow =>
    have hlast : followLast = true := hfollow.resolve_right fun hne => hne rfl
    exact absurd hlink ((hend hlast).sight_ne_link _)

/-- The path of an entry leads to it if and only if the path of its directory leads there. -/
theorem resolve_entry_iff (h : m.WellFormed) (hk : m.sight k = .way) :
    m.resolve (ofNames (names ++ [n])) false = .ok (k ++ [n]) ↔
      m.resolve (ofNames names) true = .ok k := by
  refine ⟨fun hentry => ?_, fun hdir => resolve_child hdir hk n⟩
  obtain ⟨passed, hjourney, hlength⟩ := resolve_eq_ok_iff.1 hentry
  rw [steps_ofNames, List.map_append] at hjourney
  obtain ⟨passed₁, passed₂, j, hfirst, -, hlast, hsum⟩ :=
    hjourney.split h h.enterable_top (List.cons_ne_nil _ _)
  obtain rfl : k = j := List.append_cancel_right (hlast.of_one_down nofun)
  rw [← steps_ofNames] at hfirst
  exact resolve_eq_ok_iff.2 ⟨passed₁, hfirst, by omega⟩

end Entries

section Retracing

/-- Each move up takes back a name, the last one of those that are left, and no link is there. -/
def Retraces (m : Memory) : List Name → List Step → Prop
  | _, [] => True
  | kept, .down n :: rest => m.Retraces (kept ++ [n]) rest
  | kept, .up :: rest =>
    (∀ j, m.resolve (ofNames kept) false = .ok j → m.NoLinkAt j) ∧ m.Retraces kept.dropLast rest

theorem retraces_of_up_notMem (hup : Step.up ∉ steps) : m.Retraces kept steps := by
  induction steps generalizing kept with
  | nil => trivial
  | cons step rest ih =>
    cases step with
    | up => simp at hup
    | down n => exact ih fun hmem => hup (List.mem_cons_of_mem _ hmem)

/-- Where no link is at the end of some names, one level up is the end of all of them but the
last. -/
theorem Journey.parent (h : m.WellFormed) (hlength : passed.length ≤ linkLimit)
    (hjourney : Journey m true (kept.map .down) [] passed k)
    (hend : ∀ j, m.resolve (ofNames kept) false = .ok j → m.NoLinkAt j) :
    ∃ passed', Journey m true (kept.dropLast.map .down) [] passed' k.parent ∧
      m.Enterable k.parent ∧ passed'.length ≤ passed.length := by
  rcases List.eq_nil_or_concat kept with rfl | ⟨kept, n, rfl⟩
  · cases hjourney
    exact ⟨[], .done, h.enterable_top, Nat.le_refl 0⟩
  · rw [List.concat_eq_append, List.map_append] at hjourney
    obtain ⟨passed₁, passed₂, j, hfirst, hj, hlast, hsum⟩ :=
      hjourney.split h h.enterable_top (List.cons_ne_nil _ _)
    have hdir : m.resolve (ofNames kept) true = .ok j := by
      rw [resolve_eq_ok_iff, steps_ofNames]
      exact ⟨passed₁, hfirst, by omega⟩
    rw [List.concat_eq_append] at hend ⊢
    obtain rfl : k = j ++ [n] :=
      hlast.of_one_down fun _ => hend _ (resolve_child hdir hj.sight_eq_way n)
    rw [List.dropLast_concat, Key.parent, List.dropLast_concat]
    exact ⟨passed₁, hfirst, hj, by omega⟩

/-- A journey that takes back nothing but names at which there is no link is made by the names that
are left as well. The induction is on the moves after those names. -/
theorem Journey.retraced (h : m.WellFormed) (hlength : passed.length ≤ linkLimit)
    (hjourney : Journey m true (kept.map .down ++ steps) [] passed k)
    (hretraces : m.Retraces kept steps) :
    ∃ passed', Journey m true ((namesAfter kept steps).map .down) [] passed' k ∧
      passed'.length ≤ passed.length := by
  induction steps generalizing kept passed with
  | nil =>
    rw [List.append_nil] at hjourney
    exact ⟨passed, hjourney, Nat.le_refl _⟩
  | cons step rest ih =>
    cases step with
    | down n =>
      rw [List.append_cons, ← List.map_singleton, ← List.map_append] at hjourney
      exact ih hlength hjourney hretraces
    | up =>
      obtain ⟨hend, hretraces⟩ := hretraces
      obtain ⟨passed₁, passed₂, j, hfirst, -, hlater, hsum⟩ :=
        hjourney.split h h.enterable_top (List.cons_ne_nil _ _)
      obtain ⟨passed₃, hfirst, hparent, hfewer⟩ := hfirst.parent h (by omega) hend
      cases hlater with
      | up hlater =>
        have hshort := hfirst.append hparent.sight_eq_way hlater (.inl rfl)
        have hcount : (passed₃.map (Passage.before rest) ++ passed₂).length ≤ passed.length := by
          rw [List.length_append, List.length_map]
          omega
        obtain ⟨passed', hleft, hless⟩ := ih (Nat.le_trans hcount hlength) hshort hretraces
        exact ⟨passed', hleft, Nat.le_trans hless hcount⟩

/-- The names that such a path comes down to lead to where it leads itself. -/
theorem resolve_fromTop (h : m.WellFormed) (hk : m.resolve p true = .ok k)
    (hretraces : m.Retraces [] p.steps) : m.resolve p.fromTop true = .ok k := by
  obtain ⟨passed, hjourney, hlength⟩ := resolve_eq_ok_iff.1 hk
  have hnone : Journey m true (([] : List Name).map .down ++ p.steps) [] passed k := hjourney
  obtain ⟨passed', hleft, hless⟩ := hnone.retraced h hlength hretraces
  rw [← names_eq_namesAfter, ← steps_ofNames, ← fromTop_eq] at hleft
  exact resolve_eq_ok_iff.2 ⟨passed', hleft, Nat.le_trans hless hlength⟩

end Retracing

/-- The path of the entry is described as the entry is. -/
def LeadsBack (m : Memory) (e : DirEntry) : Prop :=
  ∃ d, e.metadata = .ok d ∧ fileSystem.lstat e.path m = (.ok d, m)

theorem leadsBack_entryIn (hk : m.resolve (ofNames names) true = .ok k) (hway : m.sight k = .way)
    {child : Node} (hchild : m.nodeAt (k ++ [n]) = some child) :
    m.LeadsBack (m.entryIn k names n) := by
  have hdescribed := describe_of_stored hchild n.bytes
  exact ⟨_, hdescribed, Prod.ext ((lstat_child hk hway n).trans hdescribed) rfl⟩

/-- After any calls, the entries that are listed for a path are those of the directory that it leads
to. The path of an entry leads to that entry if and only if the directory is also where the cleaned
absolute path leads, and then it is described as it was listed. This is so if the path goes up only
from where there is no link, as it is if it does not go up at all. -/
theorem run_readDir_paths (calls : List Call) (p : Path) :
    let m := (Session.run calls).memory
    ∀ l m', fileSystem.readDir p m = (.ok l, m') → m' = m ∧ ∃ k, m.resolve p true = .ok k ∧
      (∀ e ∈ l.entries, ∃ n : Name, e.fileName = n.bytes ∧
        (∃ child, m.nodeAt (k ++ [n]) = some child) ∧
        (m.resolve e.path false = .ok (k ++ [n]) ↔ m.resolve p.fromTop true = .ok k)) ∧
      (m.resolve p.fromTop true = .ok k → ∀ e ∈ l.entries, m.LeadsBack e) ∧
      (m.Retraces [] p.steps → m.resolve p.fromTop true = .ok k) ∧
      (.parent ∉ p.components → m.Retraces [] p.steps) := by
  intro m l m' hlisted
  have h : m.WellFormed := Session.wellFormed_run calls
  have hlists := lists_readDir h p
  obtain ⟨hl, rfl⟩ : m.readDir p = .ok l ∧ m = m' := Prod.mk.inj hlisted
  rw [hl] at hlists
  cases hlists with
  | @entries k node hk hnode hdir =>
    have hway : m.sight k = .way := sight_of_dir hnode hdir
    refine ⟨rfl, k, hk, fun e he => ?_, fun htop e he => ?_, resolve_fromTop h hk, ?_⟩
    · obtain ⟨n, hn, rfl⟩ := mem_entriesIn.1 he
      refine ⟨n, fileName_entryIn m k p.names n, h.mem_children_iff.1 hn, ?_⟩
      rw [fromTop_eq]
      exact resolve_entry_iff h hway
    · obtain ⟨n, hn, rfl⟩ := mem_entriesIn.1 he
      obtain ⟨child, hchild⟩ := h.mem_children_iff.1 hn
      rw [fromTop_eq] at htop
      exact leadsBack_entryIn htop hway hchild
    · intro hparent
      apply retraces_of_up_notMem
      rw [steps_eq_names hparent]
      simp

/-- A path goes by a link, and down and up again at a free place. -/
theorem run_readDir_paths_by_link :
    let m := (Session.run [.createDirAll ⟨[100, 47, 101, 47, 102]⟩ 0o755,
      .symlink ⟨[100]⟩ ⟨[108]⟩]).memory
    ∃ e, fileSystem.readDir ⟨[108, 47, 113, 47, 46, 46, 47, 101]⟩ m = (.ok ⟨[e]⟩, m) ∧
      e.path = ⟨[47, 108, 47, 101, 47, 102]⟩ ∧ m.LeadsBack e := by
  intro m
  have hlisted : ∃ e, fileSystem.readDir ⟨[108, 47, 113, 47, 46, 46, 47, 101]⟩ m =
      (.ok ⟨[e]⟩, m) ∧ e.path = ⟨[47, 108, 47, 101, 47, 102]⟩ := ⟨_, rfl, rfl⟩
  obtain ⟨e, he, hpath⟩ := hlisted
  obtain ⟨-, k, -, -, hback, hretraced, -⟩ := run_readDir_paths _ _ _ _ he
  refine ⟨e, he, hpath, hback (hretraced ⟨fun j hj c hlink => ?_, trivial⟩) e ?_⟩
  · have hfree : m.resolve ⟨[47, 108, 47, 113]⟩ false = .ok [⟨[100], rfl⟩, ⟨[113], rfl⟩] := rfl
    obtain rfl := Except.ok.inj (hfree.symm.trans hj)
    cases hlink
  · exact List.mem_singleton_self e

/-- A path goes by a link and up again, to a place above the one that the link points to. The
directory is listed, but the path of its entry leads to a free place. -/
theorem listed_astray :
    let m := (Session.run [.createDirAll ⟨[120, 47, 121]⟩ 0o755,
      .symlink ⟨[47, 120, 47, 121]⟩ ⟨[108]⟩]).memory
    ∃ e, fileSystem.readDir ⟨[108, 47, 46, 46]⟩ m = (.ok ⟨[e]⟩, m) ∧ e.path = ⟨[47, 121]⟩ ∧
      e.metadata.map (·.isDir) = .ok true ∧
      fileSystem.lstat e.path m = (.error .entityNotFound, m) :=
  ⟨_, rfl, rfl, rfl, rfl⟩

end ConfinedFs.Memory
