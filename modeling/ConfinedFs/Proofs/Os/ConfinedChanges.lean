import ConfinedFs.Proofs.Os.SideBySide
import ConfinedFs.Proofs.Os.SoundChanges

/-!
The same change inside of an enclosure, made in two trees that look the same
there, leaves trees that look the same there.
-/

namespace ConfinedFs.Os

namespace Tree

theorem seen_congr {t u : Tree} {i : NodeId} (base : NodeId) (h : t.node? i = u.node? i) :
    t.seen base i = u.seen base i := by
  unfold seen
  rw [h]

end Tree

namespace Enclosure

variable {E : Enclosure} {t t' : Tree} {i dir : NodeId} {f : Directory → Directory}

theorem Local.modifyDir (hi : E.inside i)
    (hplace : i = E.base → ∀ d, (f d).parent = d.parent) : E.Local t (t.modifyDir i f) := by
  refine ⟨?_, ?_⟩
  · intro j hj
    refine Tree.node?_modifyDir_of_ne f ?_
    rintro rfl
    exact hj hi
  · rw [Tree.dir?_modifyDir]
    by_cases h : E.base = i
    · rw [if_pos h, h, Option.map_map]
      exact congrArg (Option.map · _) (funext (hplace h.symm))
    · rw [if_neg h]

theorem Twin.modifyDir (h : E.Twin t t') (hi : E.inside i)
    (hparent : i = E.base → ∀ d above, f { d with parent := above } = { f d with parent := above })
    (hentries : ∀ d, t.dir? i = some d → ∀ n j, (n, j) ∈ (f d).entries → E.inside j)
    (hcreated : ∀ d, d.created ≤ (f d).created) :
    E.Twin (t.modifyDir i f) (t'.modifyDir i f) := by
  refine ⟨by simpa using h.umask, h.base_inside, ?_, ?_, ?_, ?_⟩
  · rw [Tree.isDir_modifyDir]
    exact h.base_dir
  · intro j hj
    by_cases hji : j = i
    · subst hji
      rcases h.node?_cases hi with ⟨_, heq⟩ | ⟨hbase, d, above, hnode, hnode'⟩
      · refine Tree.seen_congr E.base ?_
        rw [Tree.node?_modifyDir, Tree.node?_modifyDir, heq]
      · rw [Tree.seen, Tree.seen, if_pos hbase, if_pos hbase, Tree.node?_modifyDir,
          Tree.node?_modifyDir, if_pos rfl, if_pos rfl, hnode, hnode']
        simp only [Option.map_some, Inode.mapDir, Inode.detached, hparent hbase d above]
    · rw [Tree.seen_congr E.base (Tree.node?_modifyDir_of_ne f hji),
        Tree.seen_congr E.base (Tree.node?_modifyDir_of_ne f hji), h.seen hj]
  · intro j d n k hj hd hn
    rw [Tree.dir?_modifyDir] at hd
    by_cases hji : j = i
    · rw [if_pos hji] at hd
      obtain ⟨s, hs, rfl⟩ := Option.map_eq_some_iff.1 hd
      exact hentries s hs n k hn
    · rw [if_neg hji] at hd
      exact h.closed hj hd hn
  · intro j count hj hcount
    have hold : ((t.dir? j).map (·.created)).getD 0 ≤ count := by
      refine Nat.le_trans ?_ hcount
      rw [Tree.dir?_modifyDir]
      by_cases hji : j = i
      · rw [if_pos hji, hji]
        cases t.dir? i with
        | none => exact Nat.le_refl _
        | some d => exact hcreated d
      · exact Nat.le_of_eq (by rw [if_neg hji])
    obtain ⟨hinside, hnone⟩ := h.vacant count hj hold
    refine ⟨hinside, ?_⟩
    rw [← Option.isNone_iff_eq_none, ← Option.not_isSome, Tree.node?_isSome_modifyDir,
      Option.not_isSome, hnone]
    rfl

theorem Local.put (hi : E.inside i) (hne : i ≠ E.base) (n : Inode) : E.Local t (t.put i n) := by
  refine ⟨?_, ?_⟩
  · intro j hj
    rw [Tree.node?_put, if_neg]
    rintro rfl
    exact hj hi
  · rw [Tree.dir?_put_of_ne n (Ne.symm hne)]

/-- A node may be put in the place of another one, or where its directory has
counted one already. -/
theorem Twin.put (h : E.Twin t t') (hne : i ≠ E.base) {node : Inode}
    (hused : ∀ j count, E.inside j → ((t.dir? j).map (·.created)).getD 0 ≤ count →
      j.child count ≠ i)
    (hnode : ∀ d, node = .directory d → d.entries = [] ∧ d.created = 0)
    (hcreated : ((t.dir? i).map (·.created)).getD 0 = 0) :
    E.Twin (t.put i node) (t'.put i node) := by
  have hdir : ∀ {j d}, (t.put i node).dir? j = some d →
      j = i ∧ node = .directory d ∨ t.dir? j = some d := by
    intro j d hd
    by_cases hji : j = i
    · left
      refine ⟨hji, ?_⟩
      rw [hji, Tree.dir?_eq_some_iff, Tree.node?_put, if_pos rfl] at hd
      exact Option.some.inj hd
    · right
      rwa [Tree.dir?_put_of_ne node hji] at hd
  refine ⟨h.umask, h.base_inside, ?_, ?_, ?_, ?_⟩
  · obtain ⟨d, hd⟩ := Tree.isDir_iff.1 h.base_dir
    exact Tree.isDir_iff.2 ⟨d, by rw [Tree.dir?_put_of_ne node (Ne.symm hne), hd]⟩
  · intro j hj
    by_cases hji : j = i
    · refine Tree.seen_congr E.base ?_
      rw [Tree.node?_put, Tree.node?_put, if_pos hji, if_pos hji]
    · have hold : ∀ u : Tree, (u.put i node).seen E.base j = u.seen E.base j := fun u =>
        Tree.seen_congr E.base (by rw [Tree.node?_put, if_neg hji])
      rw [hold, hold, h.seen hj]
  · intro j d n k hj hd hn
    rcases hdir hd with ⟨_, heq⟩ | hd
    · rw [(hnode d heq).1] at hn
      cases hn
    · exact h.closed hj hd hn
  · intro j count hj hcount
    have hold : ((t.dir? j).map (·.created)).getD 0 ≤ count := by
      by_cases hji : j = i
      · rw [hji, hcreated]
        exact Nat.zero_le count
      · rwa [Tree.dir?_put_of_ne node hji] at hcount
    obtain ⟨hinside, hnone⟩ := h.vacant count hj hold
    refine ⟨hinside, ?_⟩
    rw [Tree.node?_put, if_neg (hused j count hj hold), hnone]

theorem Twin.congr {u u' : Tree} (h : E.Twin t t') (hmask : u'.umask = u.umask)
    (hu : ∀ j, u.node? j = t.node? j) (hu' : ∀ j, u'.node? j = t'.node? j) : E.Twin u u' := by
  have hdir : ∀ j, u.dir? j = t.dir? j := fun j => Tree.dir?_congr (hu j)
  refine ⟨hmask, h.base_inside, ?_, ?_, ?_, ?_⟩
  · rw [Tree.isDir, hdir]
    exact h.base_dir
  · intro j hj
    rw [Tree.seen_congr E.base (hu j), Tree.seen_congr E.base (hu' j), h.seen hj]
  · intro j d n k hj hd hn
    exact h.closed hj (hdir j ▸ hd) hn
  · intro j count hj hcount
    rw [hu]
    exact h.vacant count hj (hdir j ▸ hcount)

/-- The identity that comes next in a directory inside is inside, and not that
of a node. -/
theorem Twin.nextId (h : E.Twin t t') (hdir : E.inside dir) :
    E.inside (t.nextId dir) ∧ t.node? (t.nextId dir) = none :=
  h.vacant _ hdir (Nat.le_refl _)

theorem Twin.nextId_ne_base (h : E.Twin t t') (hdir : E.inside dir) :
    t.nextId dir ≠ E.base := by
  intro heq
  obtain ⟨s, hs⟩ := Tree.isDir_iff.1 h.base_dir
  rw [← heq, Tree.dir?_eq_some_iff, (h.nextId hdir).2] at hs
  cases hs

/-- Counting a node and putting it into the tree are done in either order. -/
theorem node?_grow (t : Tree) (dir : NodeId) (node : Inode) (j : NodeId) :
    (t.grow dir node).node? j =
      ((t.modifyDir dir fun d => { d with created := d.created + 1 }).put (t.nextId dir)
        node).node? j := by
  have hne : t.nextId dir ≠ dir := NodeId.child_ne_self dir _
  rw [Tree.grow, Tree.node?_modifyDir, Tree.node?_put, Tree.node?_put, Tree.node?_put,
    Tree.node?_modifyDir, if_neg hne.symm]
  by_cases hj : j = dir
  · rw [if_pos hj, if_neg (hj ▸ hne.symm), if_pos hj]
  · rw [if_neg hj, if_neg hj]

theorem Local.grow (h : E.Twin t t') (hdir : E.inside dir) (node : Inode) :
    E.Local t (t.grow dir node) :=
  (Local.put (h.nextId hdir).1 (h.nextId_ne_base hdir) node).trans
    (.modifyDir hdir fun _ _ => rfl)

theorem Twin.grow (h : E.Twin t t') (hdir : E.inside dir) (hisDir : t.isDir dir = true)
    {node : Inode} (hnode : ∀ d, node = .directory d → d.entries = [] ∧ d.created = 0) :
    E.Twin (t.grow dir node) (t'.grow dir node) := by
  obtain ⟨hinside, hnone⟩ := h.nextId hdir
  obtain ⟨d, hd⟩ := Tree.isDir_iff.1 hisDir
  have hne : t.nextId dir ≠ dir := NodeId.child_ne_self dir _
  have hcounted : E.Twin (t.modifyDir dir fun d => { d with created := d.created + 1 })
      (t'.modifyDir dir fun d => { d with created := d.created + 1 }) :=
    h.modifyDir hdir (fun _ _ _ => rfl) (fun _ hs n j hn => h.closed hdir hs hn)
      fun d => Nat.le_succ d.created
  have hne_base := h.nextId_ne_base hdir
  have hput := hcounted.put (i := t.nextId dir) hne_base ?_ hnode ?_
  · rw [← h.nextId_eq hdir] at hput
    refine hput.congr (by simpa [Tree.grow] using h.umask) ?_ (node?_grow t' dir node)
    intro j
    rw [node?_grow, h.nextId_eq hdir]
  · intro j count hj hcount hchild
    obtain ⟨rfl, rfl⟩ := NodeId.child_inj.1 hchild
    rw [Tree.dir?_modifyDir, if_pos rfl, hd] at hcount
    simp only [Option.map_some, Option.getD_some] at hcount
    exact absurd hcount (Nat.not_succ_le_self _)
  · rw [Tree.dir?_modifyDir_of_ne _ hne]
    cases hs : t.dir? (t.nextId dir) with
    | none => rfl
    | some s =>
      rw [Tree.dir?_eq_some_iff, hnone] at hs
      cases hs

end Enclosure

end ConfinedFs.Os
