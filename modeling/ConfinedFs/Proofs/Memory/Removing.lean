import ConfinedFs.Proofs.Memory.Moving
import ConfinedFs.Proofs.Memory.Thinning
import ConfinedFs.Proofs.Path.LastName

/-!
How an entry is removed with everything below it. What a removal does depends on where its path
leads when it comes to it. It goes down one level with each name, unless a link that the path goes
by has been removed; as there are only so many links and so many levels, it ends by itself.
-/

namespace ConfinedFs.Memory

open ConfinedFs.Action (Keeps Triple)
open ConfinedFs.Path

variable {m m' m₁ : Memory} {j k r s : Key} {p : Path} {n : Name} {node : Node}
  {levels levels' : Nat}

section Entries

/-- The places above a stored one are stored as well, so there are more entries than it has
names. -/
theorem WellFormed.length_lt (h : m.WellFormed) (hk : m.nodeAt k = some node) :
    k.length < m.index.entries.length := by
  have hnodup : ((List.range (k.length + 1)).map (k.take ·)).Nodup := by
    rw [List.Nodup, List.pairwise_map]
    refine List.Pairwise.imp_of_mem ?_ List.nodup_range
    intro i i' hi hi' hne heq
    have hlength := congrArg List.length heq
    rw [List.mem_range] at hi hi'
    rw [List.length_take, List.length_take] at hlength
    omega
  have hsubset : (List.range (k.length + 1)).map (k.take ·) ⊆ m.index.entries.map (·.key) := by
    intro a ha
    obtain ⟨i, -, rfl⟩ := List.mem_map.1 ha
    obtain ⟨above, habove⟩ := h.stored_of_prefix hk (List.take_prefix i k)
    obtain ⟨number, hfind, -⟩ := nodeAt_eq_some_iff.1 habove
    exact List.mem_map.2 ⟨_, (Index.find?_eq_some_iff h.sorted).1 hfind, rfl⟩
  have hlength := hnodup.length_le_of_subset hsubset
  rwa [List.length_map, List.length_map, List.length_range] at hlength

/-- The entries of a directory are stored below it. -/
theorem WellFormed.mem_children_iff (h : m.WellFormed) :
    n ∈ m.children k ↔ ∃ node, m.nodeAt (k ++ [n]) = some node := by
  rw [children, List.mem_eraseDups, List.mem_filterMap]
  constructor
  · rintro ⟨e, he, hn⟩
    obtain ⟨hmem, ⟨rest, hrest⟩, -⟩ := (Index.mem_descendants_iff h.sorted).1 he
    rw [← hrest, List.drop_left] at hn
    obtain ⟨rest, rfl⟩ := List.head?_eq_some_iff.1 hn
    obtain ⟨node, hnode⟩ := h.nodeAt_of_find? (Index.find?_of_mem h.sorted hmem)
    have hstarts : k ++ [n] <+: e.key := by
      rw [← hrest]
      exact ⟨rest, by simp⟩
    exact h.stored_of_prefix hnode hstarts
  · rintro ⟨node, hnode⟩
    obtain ⟨number, hfind, -⟩ := nodeAt_eq_some_iff.1 hnode
    refine ⟨_, (Index.mem_descendants_iff h.sorted).2
      ⟨(Index.find?_eq_some_iff h.sorted).1 hfind, List.prefix_append .., by simp⟩, ?_⟩
    rw [List.drop_left]
    rfl

theorem WellFormed.children_eq_nil (h : m.WellFormed) (hfree : ∀ n, m.nodeAt (k ++ [n]) = none) :
    m.children k = [] := by
  rw [List.eq_nil_iff_forall_not_mem]
  intro n hn
  obtain ⟨node, hnode⟩ := h.mem_children_iff.1 hn
  rw [hfree n] at hnode
  cases hnode

/-- What is stored below a directory is at or below one of its entries. -/
theorem WellFormed.exists_child (h : m.WellFormed) (hj : m.nodeAt j = some node) (hk : k <+: j)
    (hne : j ≠ k) : ∃ n ∈ m.children k, k ++ [n] <+: j := by
  obtain ⟨rest, rfl⟩ := hk
  cases rest with
  | nil => simp at hne
  | cons n rest =>
    have hstarts : k ++ [n] <+: k ++ n :: rest := ⟨rest, by simp⟩
    exact ⟨n, h.mem_children_iff.2 (h.stored_of_prefix hj hstarts), hstarts⟩

/-- If nothing is left of the entries of a directory, nothing is left below it. -/
theorem Thinned.none_below (hthinned : Thinned m k m') (h : m.WellFormed)
    (hgone : ∀ n ∈ m.children k, ∀ j, k ++ [n] <+: j → m'.nodeAt j = none) :
    ∀ j, k <+: j → j ≠ k → m'.nodeAt j = none := by
  intro j hj hne
  cases hstored : m'.nodeAt j with
  | none => rfl
  | some node =>
    obtain ⟨n, hn, hstarts⟩ := h.exists_child (hthinned.nodeAt_eq_some hstored) hj hne
    rw [hgone n hn j hstarts] at hstored
    cases hstored

end Entries

section Outcomes

theorem remove_eq (h : m.WellFormed) (hs : m.resolve p false = .ok s) : remove p m =
    if s = [] then (.error .baseNotDirectory, m)
    else if (m.nodeAt s).isNone then (.error .entityNotFound, m)
    else if m.hasDescendants s then (.error .directoryNotEmpty, m)
    else (.ok (), m.prune s) := by
  have hquery : (Action.query (resolve · p false) : Action FileError Memory Key) m = (.ok s, m) :=
    Prod.ext hs rfl
  unfold remove
  rw [Action.bind_apply_of_ok hquery]
  by_cases htop : s = []
  · rw [if_pos htop, if_pos htop]
    rfl
  · simp only [htop, if_false, Action.bind_apply_of_ok (Action.look_apply _ m), h.exists?_eq]
    cases hnode : m.nodeAt s with
    | none => rfl
    | some node =>
      simp only [Option.isSome_some, Option.isNone_some, Bool.not_true, Bool.false_eq_true,
        if_false, Action.bind_apply_of_ok (Action.look_apply _ m)]
      cases m.hasDescendants s <;> rfl

/-- What has nothing below it is removed, unless it is the top. -/
theorem remove_emptied (h : m.WellFormed) (hs : m.resolve p false = .ok s)
    (hnode : m.nodeAt s = some node) (hbelow : ∀ j, s <+: j → j ≠ s → m.nodeAt j = none) :
    ∃ m', remove p m = (if s = [] then .error .baseNotDirectory else .ok (), m') ∧
      Thinned m s m' ∧ ∀ j, s <+: j → j ≠ [] → m'.nodeAt j = none := by
  rw [remove_eq h hs, h.hasDescendants_eq_false_iff.2 hbelow, hnode]
  by_cases htop : s = []
  · rw [if_pos htop, if_pos htop]
    exact ⟨m, rfl, .refl h s, fun j hj hne => hbelow j hj (htop ▸ hne)⟩
  · rw [if_neg htop, if_neg htop]
    refine ⟨m.prune s, rfl, .prune h htop, fun j hj _ => ?_⟩
    rw [h.nodeAt_prune, if_pos hj]

theorem remove_of_error {e : FileError} (he : m.resolve p false = .error e) :
    remove p m = (.error e, m) := by
  have hquery : (Action.query (resolve · p false) : Action FileError Memory Key) m =
      (.error e, m) := Prod.ext he rfl
  exact Action.bind_apply_of_error hquery

theorem describe_of_free (h : m.WellFormed) (hfree : m.nodeAt k = none) (name : Bytes) :
    m.describe k name = .error .entityNotFound := by
  have hbelow : m.hasDescendants k = false :=
    h.hasDescendants_eq_false_iff.2 fun _ hr _ => h.free_of_prefix hfree hr
  rw [describe, hfree]
  simp [hbelow]

theorem lstat_of_free (h : m.WellFormed) (hs : m.resolve p false = .ok s)
    (hfree : m.nodeAt s = none) : fileSystem.lstat p m = (.error .entityNotFound, m) := by
  have hnone : m.lstat p = .error .entityNotFound := by
    rw [lstat, hs]
    exact describe_of_free h hfree _
  exact Prod.ext hnone rfl

theorem lstat_of_error {e : FileError} (he : m.resolve p false = .error e) :
    fileSystem.lstat p m = (.error e, m) := by
  have hlost : m.lstat p = .error e := by
    rw [lstat, he]
    rfl
  exact Prod.ext hlost rfl

theorem describe_of_stored (hnode : m.nodeAt k = some node) (name : Bytes) :
    m.describe k name = .ok ((m.content node.cell).metadata node.kind name) := by
  rw [describe, hnode]

theorem named_describe (m : Memory) (k : Key) (name : Bytes) (p : Path) :
    (m.describe k name).map (·.named p) = m.describe k p.baseName.bytes := by
  unfold describe
  split
  · rfl
  · split <;> rfl

theorem exists_describe (hnode : m.nodeAt k = some node) (name : Bytes) :
    ∃ d : Metadata, m.describe k name = .ok d ∧ d.isDir = node.isDir := by
  refine ⟨_, describe_of_stored hnode name, ?_⟩
  obtain ⟨kind, c⟩ := node
  cases kind <;> rfl

theorem lstat_of_stored (hs : m.resolve p false = .ok s) (hnode : m.nodeAt s = some node) :
    ∃ d : Metadata, fileSystem.lstat p m = (.ok d, m) ∧ d.isDir = node.isDir := by
  obtain ⟨d, hd, hkind⟩ := exists_describe hnode p.baseName.bytes
  refine ⟨d, Prod.ext ?_ rfl, hkind⟩
  show m.lstat p = .ok d
  rw [lstat, hs]
  exact hd

/-- The entries of a directory by their names. -/
theorem readDir_of_dir (hs : m.resolve p true = .ok s) (hnode : m.nodeAt s = some node)
    (hdir : node.isDir = true) : fileSystem.readDir p m = (.ok ⟨(m.children s).map fun n =>
      { path := p.fromTop.push ⟨n.bytes⟩, metadata := m.describe (s ++ [n]) n.bytes }⟩, m) := by
  have hlisted : m.readDir p = .ok ⟨(m.children s).map fun n =>
      { path := p.fromTop.push ⟨n.bytes⟩, metadata := m.describe (s ++ [n]) n.bytes }⟩ := by
    rw [readDir, hs]
    simp [bind, Except.bind, hnode, hdir, pure, Except.pure]
  exact Prod.ext hlisted rfl

theorem removeAll_apply (p : Path) (m : Memory) : fileSystem.removeAll p m =
    fileSystem.removeAllWithin ((m.index.entries.length + 1) * (m.index.entries.length + 1)) p m :=
  rfl

theorem removeAllWithin_of_error (h : m.WellFormed) {e : FileError}
    (he : m.resolve p false = .error e) :
    fileSystem.removeAllWithin (levels + 1) p m = (.error e, m) := by
  have hlast := resolve_arrives h p false
  rw [he] at hlast
  rw [FileSystem.removeAllWithin,
    Action.bind_apply_of_ok (Action.outcome_of_run (lstat_of_error he))]
  cases e with
  | entityNotFound => exact absurd rfl hlast
  | _ => rfl

theorem removeAllWithin_of_free (h : m.WellFormed) (hs : m.resolve p false = .ok s)
    (hfree : m.nodeAt s = none) : fileSystem.removeAllWithin (levels + 1) p m = (.ok (), m) := by
  rw [FileSystem.removeAllWithin,
    Action.bind_apply_of_ok (Action.outcome_of_run (lstat_of_free h hs hfree))]
  rfl

theorem removeAllWithin_of_leaf (hs : m.resolve p false = .ok s) (hnode : m.nodeAt s = some node)
    (hleaf : node.isDir = false) :
    fileSystem.removeAllWithin (levels + 1) p m = remove p m := by
  obtain ⟨d, hd, hisDir⟩ := lstat_of_stored hs hnode
  rw [FileSystem.removeAllWithin, Action.bind_apply_of_ok (Action.outcome_of_run hd)]
  simp only [hisDir, hleaf]
  rfl

/-- The entries of a directory are removed one after the other, then the directory. -/
theorem removeAllWithin_of_dir (hs : m.resolve p false = .ok s) (hnode : m.nodeAt s = some node)
    (hdir : node.isDir = true) : fileSystem.removeAllWithin (levels + 1) p m =
      ((m.children s).forM (fun n => fileSystem.removeAllWithin levels (p.join ⟨n.bytes⟩)) >>=
        fun _ => remove p) m := by
  obtain ⟨d, hd, hisDir⟩ := lstat_of_stored hs hnode
  have hend := noLinkAt_of_dir hnode hdir
  have hlisted := readDir_of_dir (resolve_followed hs hend) hnode hdir
  rw [FileSystem.removeAllWithin, Action.bind_apply_of_ok (Action.outcome_of_run hd)]
  simp only [hisDir, hdir, if_true]
  rw [Action.bind_apply_of_ok hlisted]
  simp only [List.forM_eq_forM, List.forM_map, DirEntry.fileName, fileName?_push, Option.getD_some]
  rfl

end Outcomes

section Thinning

/-- What is removed is the entry that the path led to. -/
theorem triple_remove_thinned (h : Thinned m k m₁) (hr : k <+: r)
    (hs : m₁.resolve p false = .ok s) (hends : Ends k r m₁ s) :
    Triple (· = m₁) (remove p)
      (fun _ m' => Thinned m k m' ∧ ∀ j, r <+: j → m'.nodeAt j = none)
      fun _ m' => Thinned m k m' := by
  rintro m₁ rfl
  rw [remove_eq h.wellFormed hs]
  by_cases htop : s = []
  · rw [if_pos htop]
    exact h
  rw [if_neg htop]
  cases hnode : m₁.nodeAt s with
  | none => exact h
  | some node =>
    cases hbelow : m₁.hasDescendants s with
    | true => exact h
    | false =>
      obtain rfl := hends.eq_of_stored hnode
      refine ⟨h.trans ((Thinned.prune h.wellFormed htop).mono hr), fun j hj => ?_⟩
      rw [h.wellFormed.nodeAt_prune, if_pos hj]

/-- A removal drops entries and nothing else, wherever its paths lead. -/
theorem keeps_thinned_removeAllWithin (levels : Nat) (p : Path) :
    Keeps (Thinned m []) (fileSystem.removeAllWithin levels p) := by
  have hremove : ∀ p, Keeps (Thinned m []) (remove p) := by
    refine fun p => Keeps.of_fixed fun m₁ h₁ => ?_
    cases hs : m₁.resolve p false with
    | error e =>
      rintro m₁ rfl
      rw [remove_of_error hs]
      exact h₁
    | ok s =>
      exact (triple_remove_thinned h₁ List.nil_prefix hs (.inl rfl)).weaken (fun _ hm => hm)
        (fun _ _ hdone => hdone.1) fun _ _ hm => hm
  induction levels generalizing p with
  | zero => exact Keeps.throw _
  | succ levels ih =>
    rw [FileSystem.removeAllWithin]
    refine Keeps.bind (Keeps.outcome (Keeps.query _)) fun found => ?_
    split
    · exact Keeps.pure _
    · exact Keeps.throw _
    · refine Keeps.ite (Keeps.bind (Keeps.query _) fun listing => ?_) (hremove p)
      exact Keeps.bind (Keeps.forM fun e _ => ih (p.join ⟨e.fileName⟩)) fun _ => hremove p

end Thinning

section Links

/-- The places of the links. -/
def links (m : Memory) : List Key :=
  (m.index.entries.map (·.key)).filter fun k => (m.nodeAt k).any (·.kind = .symlink)

theorem WellFormed.nodup_keys (h : m.WellFormed) : (m.index.entries.map (·.key)).Nodup := by
  rw [List.Nodup, List.pairwise_map]
  refine List.Pairwise.imp (fun hlt heq => ?_) h.sorted
  rw [heq] at hlt
  exact List.lt_irrefl _ hlt

theorem WellFormed.mem_links_iff (h : m.WellFormed) :
    k ∈ m.links ↔ ∃ c, m.nodeAt k = some ⟨.symlink, c⟩ := by
  rw [links, List.mem_filter, List.mem_map]
  constructor
  · rintro ⟨-, hkind⟩
    obtain ⟨⟨kind, c⟩, hnode, hkind⟩ := (Option.any_eq_true _ _).1 hkind
    obtain rfl : kind = .symlink := of_decide_eq_true hkind
    exact ⟨c, hnode⟩
  · rintro ⟨c, hnode⟩
    obtain ⟨number, hfind, -⟩ := nodeAt_eq_some_iff.1 hnode
    exact ⟨⟨_, (Index.find?_eq_some_iff h.sorted).1 hfind, rfl⟩, by simp [hnode]⟩

theorem WellFormed.nodup_links (h : m.WellFormed) : m.links.Nodup := h.nodup_keys.filter _

theorem length_links_le (m : Memory) : m.links.length ≤ m.index.entries.length := by
  have hlength : m.links.length ≤ (m.index.entries.map (·.key)).length := List.length_filter_le ..
  rwa [List.length_map] at hlength

theorem Thinned.links_subset (h : Thinned m k m') (hm : m.WellFormed) : m'.links ⊆ m.links := by
  intro j hj
  obtain ⟨c, hnode⟩ := h.wellFormed.mem_links_iff.1 hj
  exact hm.mem_links_iff.2 ⟨c, h.nodeAt_eq_some hnode⟩

/-- In a thinned tree all links are there, or there are fewer of them. -/
theorem Thinned.links_cases (h : Thinned m k m') (hm : m.WellFormed) :
    (∀ j target, m.sight j = .link target → m'.sight j = m.sight j) ∨
      m'.links.length < m.links.length := by
  by_cases hkept : m.links ⊆ m'.links
  · refine .inl fun j target hsight => (h.sight_cases j).resolve_right fun hgone => ?_
    have hmem := hkept (hm.mem_links_iff.2 (nodeAt_of_sight_link hsight))
    obtain ⟨c, hnode⟩ := h.wellFormed.mem_links_iff.1 hmem
    cases hgone.2.symm.trans hnode
  · obtain ⟨j, hj, hlost⟩ : ∃ j ∈ m.links, j ∉ m'.links := by
      simpa [List.subset_def] using hkept
    have hsubset : m'.links ⊆ m.links.erase j := by
      intro i hi
      refine (List.mem_erase_of_ne ?_).2 (h.links_subset hm hi)
      rintro rfl
      exact hlost hi
    have hlength := h.wellFormed.nodup_links.length_le_of_subset hsubset
    rw [List.length_erase_of_mem hj] at hlength
    have hpos := List.length_pos_of_mem hj
    exact .inr (by omega)

end Links

section Enough

/-- A round does the same with fewer levels if the rounds below do. -/
theorem removeAllWithin_congr (h : m.WellFormed)
    (hround : ∀ s, m.resolve p false = .ok s → m.isDir s = true → m.children s ≠ [] →
      ∀ (n : Name) m₁, Thinned m [] m₁ →
        fileSystem.removeAllWithin levels' (p.join ⟨n.bytes⟩) m₁ =
          fileSystem.removeAllWithin levels (p.join ⟨n.bytes⟩) m₁) :
    fileSystem.removeAllWithin (levels' + 1) p m = fileSystem.removeAllWithin (levels + 1) p m := by
  cases hs : m.resolve p false with
  | error e => rw [removeAllWithin_of_error h hs, removeAllWithin_of_error h hs]
  | ok s =>
    cases hnode : m.nodeAt s with
    | none => rw [removeAllWithin_of_free h hs hnode, removeAllWithin_of_free h hs hnode]
    | some node =>
      cases hkind : node.isDir with
      | false =>
        rw [removeAllWithin_of_leaf hs hnode hkind, removeAllWithin_of_leaf hs hnode hkind]
      | true =>
        rw [removeAllWithin_of_dir hs hnode hkind, removeAllWithin_of_dir hs hnode hkind]
        apply Action.bind_congr_left
        cases hchildren : m.children s with
        | nil => rfl
        | cons =>
          have hrounds := hround s hs (h.isDir_iff.2 ⟨node, hnode, hkind⟩) (by simp [hchildren])
          exact Action.forM_congr hrounds (fun n => keeps_thinned_removeAllWithin levels _)
            (Thinned.refl h [])

/-- One level more makes no difference once there are enough of them: below the place, and for each
link from the top on. The induction is on the levels. Either a round goes one level down, or a link
has been removed before it. -/
theorem removeAllWithin_succ {bound : Nat} (h : m.WellFormed)
    (hbound : ∀ j node, m.nodeAt j = some node → j.length < bound) (hclean : p.clean = p)
    (hpos : 0 < levels)
    (hlevels : ∀ s, m.resolve p false = .ok s → m.isDir s = true →
      m.links.length * bound + bound ≤ s.length + levels) :
    fileSystem.removeAllWithin (levels + 1) p m = fileSystem.removeAllWithin levels p m := by
  induction levels generalizing m p with
  | zero => exact absurd hpos (Nat.lt_irrefl 0)
  | succ levels ih =>
    refine removeAllWithin_congr h fun s hs hdir hchildren n m₁ h₁ => ?_
    have henough := hlevels s hs hdir
    obtain ⟨child, hchild⟩ := List.exists_mem_of_ne_nil _ hchildren
    obtain ⟨node, hnode⟩ := h.mem_children_iff.1 hchild
    have hlength := hbound _ _ hnode
    rw [List.length_append, List.length_singleton] at hlength
    refine ih h₁.wellFormed (fun j node hj => hbound j node (h₁.nodeAt_eq_some hj))
      (clean_joined ..) (by omega) fun s₁ hs₁ _ => ?_
    rcases h₁.links_cases h with hkept | hfewer
    · have hleads : m.Leads (fun l => m₁.sight l.link = m.sight l.link) p.clean s := by
        rw [hclean]
        exact leads_of_resolve hs fun l => hkept l.link
      obtain ⟨node, hnode, hkind⟩ := h.isDir_iff.1 hdir
      have hchild := hleads.child (sight_of_dir hnode hkind) (fun l n hl => hl) n
      obtain rfl : s ++ [n] = s₁ :=
        Except.ok.inj ((hchild.thinned_of_kept h₁ fun _ hl => hl).resolve.symm.trans hs₁)
      have hlinks := h₁.wellFormed.nodup_links.length_le_of_subset (h₁.links_subset h)
      have hproduct := Nat.mul_le_mul_right bound hlinks
      rw [List.length_append, List.length_singleton]
      omega
    · have hproduct := Nat.mul_le_mul_right bound hfewer
      rw [Nat.succ_mul] at hproduct
      omega

theorem removeAllWithin_of_le {bound : Nat} (h : m.WellFormed)
    (hbound : ∀ j node, m.nodeAt j = some node → j.length < bound) (hclean : p.clean = p)
    (hlevels : m.links.length * bound + bound ≤ levels) (hle : levels ≤ levels') :
    fileSystem.removeAllWithin levels' p m = fileSystem.removeAllWithin levels p m := by
  obtain ⟨top, htop, -⟩ := h.nodeAt_top
  have hpos := hbound [] top htop
  induction hle with
  | refl => rfl
  | @step levels' hle ih =>
    have hle' : levels ≤ levels' := hle
    rw [← ih]
    exact removeAllWithin_succ h hbound hclean (by omega) fun s _ _ => by omega

/-- The levels that a removal starts with are enough: with more of them it does the same. -/
theorem removeAll_levels (h : m.WellFormed)
    (hle : (m.index.entries.length + 1) * (m.index.entries.length + 1) ≤ levels) (p : Path) :
    fileSystem.removeAllWithin levels p m = fileSystem.removeAll p m := by
  have hsquare : (m.index.entries.length + 1) * (m.index.entries.length + 1) =
      m.index.entries.length * m.index.entries.length + m.index.entries.length +
        m.index.entries.length + 1 := by
    rw [Nat.succ_mul, Nat.mul_succ]
    omega
  cases levels with
  | zero => omega
  | succ levels =>
    rw [removeAll_apply, hsquare]
    refine removeAllWithin_congr h fun s _ _ _ n m₁ h₁ => ?_
    have hlinks := h₁.wellFormed.nodup_links.length_le_of_subset (h₁.links_subset h)
    have hproduct := Nat.mul_le_mul_right m.index.entries.length
      (Nat.le_trans hlinks (length_links_le m))
    exact removeAllWithin_of_le h₁.wellFormed
      (fun j node hj => h.length_lt (h₁.nodeAt_eq_some hj)) (clean_joined ..) (by omega) (by omega)

end Enough

end ConfinedFs.Memory
