import ConfinedFs.Proofs.Os.Sound

/-!
A directory cuts a tree in two: what can be reached from it, and what can be
reached from the top around it. Two trees are compared on one of the parts. Of
the directory itself nothing counts but the one that it takes for the directory
above it, which belongs to the other part.
-/

namespace ConfinedFs.Os

/-- The node without what it says about the directory above it. -/
def Inode.detached : Inode → Inode
  | .directory d => .directory { d with parent := Tree.top }
  | n => n

namespace Tree

/-- What can be reached from a directory, itself included. -/
inductive Under (t : Tree) (base : NodeId) : NodeId → Prop where
  | base : Under t base base
  | entry {dir : NodeId} {d : Directory} {n : Name} {i : NodeId} (hdir : Under t base dir)
      (hd : t.dir? dir = some d) (hn : (n, i) ∈ d.entries) : Under t base i

/-- What can be reached from the top without passing through a directory. -/
inductive Apart (t : Tree) (base : NodeId) : NodeId → Prop where
  | top (h : top ≠ base) : Apart t base top
  | entry {dir : NodeId} {d : Directory} {n : Name} {i : NodeId} (hdir : Apart t base dir)
      (hd : t.dir? dir = some d) (hn : (n, i) ∈ d.entries) (hi : i ≠ base) : Apart t base i

/-- No node has a name on either side of the border of a directory: there are
no hard links across it. -/
def Severed (t : Tree) (base : NodeId) : Prop := ∀ i, t.Under base i → ¬ t.Apart base i

/-- The node of an identity as it is seen from a base directory, which does not
see what is above itself. -/
def seen (t : Tree) (base i : NodeId) : Option Inode :=
  if i = base then (t.node? i).map Inode.detached else t.node? i

/-- The second tree holds the same nodes as the first one from a directory
down, and the caller creates entries with the same mask. -/
structure AgreeUnder (base : NodeId) (t t' : Tree) : Prop where
  umask : t'.umask = t.umask
  nodes : ∀ i, t.Under base i → t'.seen base i = t.seen base i

/-- The second tree holds the same nodes as the first one outside of a
directory, found at the same places, and the directory is at its old place. -/
structure SameOutside (base : NodeId) (t u : Tree) : Prop where
  reached : ∀ i, u.Apart base i ↔ t.Apart base i
  nodes : ∀ i, (t.node? i).isSome → t.Apart base i ∨ ¬ t.Under base i → u.node? i = t.node? i
  place : (u.dir? base).map (·.parent) = (t.dir? base).map (·.parent)

variable {t t' : Tree} {base i j dir : NodeId} {d : Directory} {l : List NodeId}

theorem seen_of_ne (t : Tree) (h : i ≠ base) : t.seen base i = t.node? i := if_neg h

/-- Directories that look the same from a base differ in the directory above them
at the most. -/
theorem dir?_of_seen_eq (h : t'.seen base i = t.seen base i) (hd : t.dir? i = some d) :
    ∃ above, t'.dir? i = some { d with parent := above } := by
  have hnode := dir?_eq_some_iff.1 hd
  unfold seen at h
  split at h
  · rw [hnode] at h
    obtain ⟨n, hnode', hdetached⟩ := Option.map_eq_some_iff.1 h
    cases n with
    | directory d' =>
      refine ⟨d'.parent, ?_⟩
      simp only [Inode.detached, Inode.directory.injEq, Directory.mk.injEq] at hdetached
      obtain ⟨hperm, _, hentries, hcreated, hremoved⟩ := hdetached
      rw [dir?_eq_some_iff, hnode', ← hperm, ← hentries, ← hcreated, ← hremoved]
    | file => cases hdetached
    | symlink => cases hdetached
    | special => cases hdetached
  · exact ⟨d.parent, dir?_eq_some_iff.2 (h.trans hnode)⟩

theorem created_of_seen_eq (h : t'.seen base i = t.seen base i) :
    (t'.dir? i).map (·.created) = (t.dir? i).map (·.created) := by
  cases hd : t.dir? i with
  | some d =>
    obtain ⟨above, hd'⟩ := dir?_of_seen_eq h hd
    rw [hd']
    rfl
  | none =>
    cases hd' : t'.dir? i with
    | none => rfl
    | some d' =>
      obtain ⟨above, hsome⟩ := dir?_of_seen_eq h.symm hd'
      rw [hd] at hsome
      cases hsome

theorem AgreeUnder.under_iff (h : AgreeUnder base t t') : t'.Under base i ↔ t.Under base i := by
  constructor
  · intro hi
    induction hi with
    | base => exact .base
    | @entry dir d n i _ hd hn ih =>
      obtain ⟨above, hd'⟩ := dir?_of_seen_eq (h.nodes dir ih).symm hd
      exact .entry ih hd' hn
  · intro hi
    induction hi with
    | base => exact .base
    | @entry dir d n i hdir hd hn ih =>
      obtain ⟨above, hd'⟩ := dir?_of_seen_eq (h.nodes dir hdir) hd
      exact .entry ih hd' hn

section Bounds

variable {l m : List NodeId}

/-- A list that the entries do not lead out of holds everything under each of its
directories. -/
theorem mem_of_under (hbase : base ∈ l)
    (hclosed : ∀ dir ∈ l, ∀ e ∈ ((t.dir? dir).map (·.entries)).getD [], e.2 ∈ l)
    (hi : t.Under base i) : i ∈ l := by
  induction hi with
  | base => exact hbase
  | @entry dir d n i _ hd hn ih =>
    have hentries := hclosed dir ih
    rw [hd] at hentries
    exact hentries (n, i) hn

theorem mem_of_apart (htop : top ∈ m)
    (hclosed : ∀ dir ∈ m, ∀ e ∈ ((t.dir? dir).map (·.entries)).getD [], e.2 ≠ base → e.2 ∈ m)
    (hi : t.Apart base i) : i ∈ m := by
  induction hi with
  | top _ => exact htop
  | @entry dir d n i _ hd hn hne ih =>
    have hentries := hclosed dir ih
    rw [hd] at hentries
    exact hentries (n, i) hn hne

end Bounds

namespace Sound

/-- The way up from what lies under a directory passes through it. -/
theorem mem_ascends_of_under (h : t.Sound) (hi : t.Under base i) (hd : t.dir? i = some d)
    (hl : t.Ascends i l) : base ∈ l := by
  induction hi generalizing d l with
  | base => exact hl.mem_self
  | @entry dir s n i hdir hs hn ih =>
    obtain ⟨hne, hparent⟩ := h.entry_parent hs hn hd
    cases hl with
    | here => exact absurd rfl hne
    | up hd' _ hl =>
      rw [hd] at hd'
      cases hd'
      rw [hparent] at hl
      exact List.mem_cons_of_mem _ (ih hs hl)

/-- What lies above a directory does not lie under it. -/
theorem not_under_of_mem_ascends (h : t.Sound) (hl : t.Ascends base l) (hi : i ∈ l)
    (hne : i ≠ base) : ¬ t.Under base i := by
  intro hunder
  obtain ⟨d, hd⟩ := h.dir?_of_ascends hl hi
  cases hl with
  | here => exact hne (List.mem_singleton.1 hi)
  | up hbase htop hl =>
    rcases List.mem_cons.1 hi with rfl | hi
    · exact hne rfl
    · obtain ⟨before, rest, hsplit, hrest⟩ := hl.rest_of_mem hi
      have hmem := h.mem_ascends_of_under hunder hd hrest
      refine Ascends.not_mem_of_up hbase htop hl ?_
      rw [hsplit]
      exact List.mem_append_right _ hmem

/-- No directory has an entry for one that it lies under. -/
theorem not_mem_entries_of_under (h : t.Sound) (hbase : t.isDir base = true)
    (hdir : t.Under base dir) (hd : t.dir? dir = some d) (n : Name) : (n, base) ∉ d.entries := by
  intro hn
  obtain ⟨s, hs⟩ := isDir_iff.1 hbase
  obtain ⟨hne, hparent⟩ := h.entry_parent hd hn hs
  obtain ⟨l, hl⟩ := h.grounded hd
  refine Ascends.not_mem_of_up hs hne (hparent ▸ hl) ?_
  exact h.mem_ascends_of_under hdir hd hl

/-- What lies strictly under a base is above a directory under it in both of two
trees that agree there, or in neither. -/
theorem mem_ascends_iff (h : t.Sound) (h' : t'.Sound) (hagree : AgreeUnder base t t')
    (hi : t.Under base i) (hne : i ≠ base) (hj : t.Under base j) {l' : List NodeId}
    (hl : t.Ascends j l) (hl' : t'.Ascends j l') : i ∈ l ↔ i ∈ l' := by
  have hbase : ∀ {l l'}, t.Ascends base l → t'.Ascends base l' → (i ∈ l ↔ i ∈ l') := by
    intro l l' hl hl'
    constructor
    · intro hmem
      exact absurd hi (h.not_under_of_mem_ascends hl hmem hne)
    · intro hmem
      exact absurd (hagree.under_iff.2 hi) (h'.not_under_of_mem_ascends hl' hmem hne)
  induction hj generalizing l l' with
  | base => exact hbase hl hl'
  | @entry dir d n j hdir hd hn ih =>
    by_cases hj : j = base
    · subst hj
      exact hbase hl hl'
    · obtain ⟨s, hs⟩ := h.dir?_of_ascends hl hl.mem_self
      have hs' : t'.dir? j = some s := by
        have hseen := hagree.nodes j (.entry hdir hd hn)
        rw [seen_of_ne _ hj, seen_of_ne _ hj] at hseen
        rw [dir?_congr hseen, hs]
      obtain ⟨htop, hparent⟩ := h.entry_parent hd hn hs
      cases hl with
      | here => exact absurd rfl htop
      | up hs₁ _ hup =>
        cases hl' with
        | here => exact absurd rfl htop
        | up hs₂ _ hup' =>
          rw [hs] at hs₁
          rw [hs'] at hs₂
          cases hs₁
          cases hs₂
          rw [hparent] at hup hup'
          rw [List.mem_cons, List.mem_cons]
          exact or_congr Iff.rfl (ih hup hup')

end Sound

end Tree

end ConfinedFs.Os
