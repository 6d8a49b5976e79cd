import ConfinedFs.Proofs.Os.Sound

/-!
The changes that the calls of the system are made of keep a tree sound, each
under the conditions that the calls check before they make it.
-/

namespace ConfinedFs.Os

theorem NodeId.child_ne_self (i : NodeId) (count : Nat) : i.child count ≠ i := by
  intro h
  have hdepth := congrArg NodeId.depth h
  simp [NodeId.child] at hdepth

/-- A directory after a loss of entries. It stays where it is and counts no fewer
nodes. -/
structure Directory.Pruned (s d : Directory) : Prop where
  parent : d.parent = s.parent
  entries : d.entries.Sublist s.entries
  created : s.created ≤ d.created

theorem Directory.Pruned.refl (s : Directory) : s.Pruned s := ⟨rfl, .refl _, Nat.le_refl _⟩

namespace Tree

/-- The tree with a new node that its directory has counted but has no entry for
yet. -/
def grow (t : Tree) (dir : NodeId) (node : Inode) : Tree :=
  (t.put (t.nextId dir) node).modifyDir dir fun d => { d with created := d.created + 1 }

/-- The tree in which the node of one entry has come to stand under another one. -/
def relocate (t : Tree) (dir : NodeId) (n : Name) (newDir : NodeId) (newName : Name) (i : NodeId) :
    Tree :=
  ((t.unlink dir n).link newDir newName i).modifyDir i fun d => { d with parent := newDir }

variable {t u : Tree} {i j dir : NodeId} {d : Directory} {f : Directory → Directory}

/-- Directories from which at most entries are lost. -/
theorem pruned_modifyDir (hf : ∀ d : Directory, d.Pruned (f d)) (i : NodeId) :
    (∀ {j d}, (t.modifyDir i f).dir? j = some d → ∃ s, t.dir? j = some s ∧ s.Pruned d) ∧
      ∀ {j s}, t.dir? j = some s → ∃ d, (t.modifyDir i f).dir? j = some d ∧ s.Pruned d := by
  constructor
  · intro j d hd
    rw [dir?_modifyDir] at hd
    split at hd
    · next heq =>
      obtain ⟨s, hs, rfl⟩ := Option.map_eq_some_iff.1 hd
      exact ⟨s, heq ▸ hs, hf s⟩
    · exact ⟨d, hd, .refl d⟩
  · intro j s hs
    rw [dir?_modifyDir]
    split
    · next heq =>
      subst heq
      rw [hs]
      exact ⟨f s, rfl, hf s⟩
    · exact ⟨s, hs, .refl s⟩

namespace Sound

/-- Losing entries does no harm. -/
theorem of_pruned (h : t.Sound) (hnode : ∀ i, (u.node? i).isSome = (t.node? i).isSome)
    (hback : ∀ {i d}, u.dir? i = some d → ∃ s, t.dir? i = some s ∧ s.Pruned d)
    (hforth : ∀ {i s}, t.dir? i = some s → ∃ d, u.dir? i = some d ∧ s.Pruned d) : u.Sound := by
  constructor
  case top_dir =>
    obtain ⟨s, hs, hparent⟩ := h.top_dir
    obtain ⟨d, hd, hpruned⟩ := hforth hs
    exact ⟨d, hd, hpruned.parent.trans hparent⟩
  case grounded =>
    intro i d hd
    obtain ⟨s, hs, _⟩ := hback hd
    obtain ⟨l, hl⟩ := h.grounded hs
    refine ⟨l, hl.transfer ?_⟩
    intro j _ s hs
    obtain ⟨d, hd, hpruned⟩ := hforth hs
    exact ⟨d, hd, hpruned.parent⟩
  case entry_node =>
    intro dir d n i hd hn
    obtain ⟨s, hs, hpruned⟩ := hback hd
    rw [hnode]
    exact h.entry_node hs (hpruned.entries.subset hn)
  case entry_parent =>
    intro dir d n i e hd hn he
    obtain ⟨s, hs, hpruned⟩ := hback hd
    obtain ⟨s', hs', hpruned'⟩ := hback he
    have hold := h.entry_parent hs (hpruned.entries.subset hn) hs'
    exact ⟨hold.1, hpruned'.parent.trans hold.2⟩
  case entry_unique =>
    intro dir d n m i e hd hn hm he
    obtain ⟨s, hs, hpruned⟩ := hback hd
    obtain ⟨s', hs', _⟩ := hback he
    exact h.entry_unique hs (hpruned.entries.subset hn) (hpruned.entries.subset hm) hs'
  case names_nodup =>
    intro dir d hd
    obtain ⟨s, hs, hpruned⟩ := hback hd
    exact (h.names_nodup hs).sublist (hpruned.entries.map Prod.fst)
  case born =>
    intro i hi
    rw [hnode] at hi
    rcases h.born hi with htop | ⟨dir, s, count, hchild, hs, hlt⟩
    · exact .inl htop
    · obtain ⟨d, hd, hpruned⟩ := hforth hs
      exact .inr ⟨dir, d, count, hchild, hd, Nat.lt_of_lt_of_le hlt hpruned.created⟩

/-- Only what the directories are and which nodes there are counts. -/
theorem congr (h : t.Sound) (hdir : ∀ i, u.dir? i = t.dir? i)
    (hnode : ∀ i, (u.node? i).isSome = (t.node? i).isSome) : u.Sound := by
  apply h.of_pruned hnode
  · intro i d hd
    exact ⟨d, (hdir i).symm.trans hd, .refl d⟩
  · intro i s hs
    exact ⟨s, (hdir i).trans hs, .refl s⟩

theorem modifyDir (h : t.Sound) (i : NodeId) (hf : ∀ d : Directory, d.Pruned (f d)) :
    (t.modifyDir i f).Sound :=
  h.of_pruned (node?_isSome_modifyDir t i f) (pruned_modifyDir hf i).1 (pruned_modifyDir hf i).2

theorem unlink (h : t.Sound) (dir : NodeId) (n : Name) : (t.unlink dir n).Sound :=
  h.modifyDir dir fun _ => ⟨rfl, List.filter_sublist, Nat.le_refl _⟩

theorem retire (h : t.Sound) (i : NodeId) : (t.retire i).Sound :=
  h.modifyDir i fun _ => ⟨rfl, .refl _, Nat.le_refl _⟩

/-- A node that is no directory may change, as long as it does not become one. -/
theorem put (h : t.Sound) {node : Inode} (hi : (t.node? i).isSome) (hdir : t.dir? i = none)
    (hnode : ∀ d, node ≠ .directory d) : (t.put i node).Sound := by
  apply h.congr
  · intro j
    by_cases hj : j = i
    · rw [hj, dir?_put_self, hdir]
      cases node with
      | directory d => exact absurd rfl (hnode d)
      | file perm data => rfl
      | symlink standing target => rfl
      | special perm => rfl
    · exact dir?_put_of_ne node hj
  · intro j
    rw [node?_put]
    by_cases hj : j = i
    · rw [if_pos hj, hj, hi]
      rfl
    · rw [if_neg hj]

theorem node?_nextId_eq_none (h : t.Sound) (dir : NodeId) : t.node? (t.nextId dir) = none :=
  h.node?_child_eq_none dir _ (Nat.le_refl _)

/-- A file may get other data and other permissions. -/
theorem put_file (h : t.Sound) {perm : Permissions} {data : Bytes}
    (hi : t.node? i = some (.file perm data)) (perm' : Permissions) (data' : Bytes) :
    (t.put i (.file perm' data')).Sound := by
  apply h.put
  · rw [hi]
    rfl
  · rw [dir?, hi]
  · intro d hd
    cases hd

/-- What the directories are after a node has been created in one of them. -/
theorem dir?_grow (h : t.Sound) (dir : NodeId) (node : Inode) :
    (∀ {j d}, (t.grow dir node).dir? j = some d →
      j = t.nextId dir ∧ node = .directory d ∨ ∃ s, t.dir? j = some s ∧ s.Pruned d) ∧
    ∀ {j s}, t.dir? j = some s → ∃ d, (t.grow dir node).dir? j = some d ∧ s.Pruned d := by
  have hcounted : ∀ d : Directory, d.Pruned { d with created := d.created + 1 } :=
    fun d => ⟨rfl, .refl _, Nat.le_succ d.created⟩
  have hne : t.nextId dir ≠ dir := NodeId.child_ne_self dir _
  constructor
  · intro j d hd
    obtain ⟨s, hs, hpruned⟩ := (pruned_modifyDir hcounted dir).1 hd
    by_cases hj : j = t.nextId dir
    · subst hj
      left
      rw [grow, dir?_modifyDir_of_ne _ hne, dir?_eq_some_iff, node?_put, if_pos rfl] at hd
      exact ⟨rfl, Option.some.inj hd⟩
    · rw [dir?_put_of_ne node hj] at hs
      exact .inr ⟨s, hs, hpruned⟩
  · intro j s hs
    apply (pruned_modifyDir hcounted dir).2
    rw [dir?_put_of_ne node, hs]
    rintro rfl
    rw [dir?_eq_some_iff, h.node?_nextId_eq_none] at hs
    cases hs

theorem nextId_ne_top (h : t.Sound) (dir : NodeId) : t.nextId dir ≠ top := by
  intro htop
  obtain ⟨d, hd, _⟩ := h.top_dir
  rw [← htop, dir?_eq_some_iff, h.node?_nextId_eq_none] at hd
  cases hd

/-- An entry is an old one, and so it does not lead to the new node. -/
theorem entry_of_grow (h : t.Sound) {node : Inode}
    (hnode : ∀ d, node = .directory d → d.entries = []) {n : Name}
    (hd : (t.grow dir node).dir? j = some d) (hn : (n, i) ∈ d.entries) :
    i ≠ t.nextId dir ∧ ∃ s, t.dir? j = some s ∧ (n, i) ∈ s.entries := by
  rcases (h.dir?_grow dir node).1 hd with ⟨_, heq⟩ | ⟨s, hs, hpruned⟩
  · rw [hnode d heq] at hn
    cases hn
  · have hold := hpruned.entries.subset hn
    refine ⟨?_, s, hs, hold⟩
    rintro rfl
    have hsome := h.entry_node hs hold
    rw [h.node?_nextId_eq_none] at hsome
    cases hsome

theorem node?_grow_isSome (t : Tree) (dir : NodeId) (node : Inode) (j : NodeId) :
    ((t.grow dir node).node? j).isSome ↔ j = t.nextId dir ∨ (t.node? j).isSome := by
  rw [Tree.grow, node?_isSome_modifyDir, node?_put]
  by_cases hj : j = t.nextId dir
  · simp [hj]
  · simp [hj]

/-- Creating a node in a directory keeps the tree sound, also as long as the
directory has no entry for it. -/
theorem grow (h : t.Sound) (hdir : t.isDir dir = true) {node : Inode}
    (hnode : ∀ d, node = .directory d → d.entries = [] ∧ d.parent = dir) :
    (t.grow dir node).Sound := by
  obtain ⟨hback, hforth⟩ := h.dir?_grow dir node
  have hlater : ∀ {j s l}, t.dir? j = some s → t.Ascends j l → (t.grow dir node).Ascends j l := by
    intro j s l hs hl
    apply hl.transfer
    intro k _ s hs
    obtain ⟨d, hd, hpruned⟩ := hforth hs
    exact ⟨d, hd, hpruned.parent⟩
  have hentry : ∀ {j d n i}, (t.grow dir node).dir? j = some d → (n, i) ∈ d.entries →
      i ≠ t.nextId dir ∧ ∃ s, t.dir? j = some s ∧ (n, i) ∈ s.entries :=
    h.entry_of_grow fun d heq => (hnode d heq).1
  constructor
  case top_dir =>
    obtain ⟨s, hs, hparent⟩ := h.top_dir
    obtain ⟨d, hd, hpruned⟩ := hforth hs
    exact ⟨d, hd, hpruned.parent.trans hparent⟩
  case grounded =>
    intro j d hd
    rcases hback hd with ⟨rfl, heq⟩ | ⟨s, hs, _⟩
    · obtain ⟨s, hs⟩ := isDir_iff.1 hdir
      obtain ⟨l, hl⟩ := h.grounded hs
      refine ⟨t.nextId dir :: l, .up hd (h.nextId_ne_top dir) ?_⟩
      rw [(hnode d heq).2]
      exact hlater hs hl
    · obtain ⟨l, hl⟩ := h.grounded hs
      exact ⟨l, hlater hs hl⟩
  case entry_node =>
    intro j d n i hd hn
    obtain ⟨_, s, hs, hold⟩ := hentry hd hn
    exact (node?_grow_isSome t dir node i).2 (.inr (h.entry_node hs hold))
  case entry_parent =>
    intro j d n i e hd hn he
    obtain ⟨hne, s, hs, hold⟩ := hentry hd hn
    rcases hback he with ⟨heq, _⟩ | ⟨s', hs', hpruned⟩
    · exact absurd heq hne
    · have hparent := h.entry_parent hs hold hs'
      exact ⟨hparent.1, hpruned.parent.trans hparent.2⟩
  case entry_unique =>
    intro j d n m i e hd hn hm he
    obtain ⟨hne, s, hs, hold⟩ := hentry hd hn
    obtain ⟨_, s₁, hs₁, hold'⟩ := hentry hd hm
    rw [hs] at hs₁
    cases hs₁
    rcases hback he with ⟨heq, _⟩ | ⟨s', hs', _⟩
    · exact absurd heq hne
    · exact h.entry_unique hs hold hold' hs'
  case names_nodup =>
    intro j d hd
    rcases hback hd with ⟨_, heq⟩ | ⟨s, hs, hpruned⟩
    · rw [(hnode d heq).1]
      exact List.nodup_nil
    · exact (h.names_nodup hs).sublist (hpruned.entries.map Prod.fst)
  case born =>
    intro j hj
    rcases (node?_grow_isSome t dir node j).1 hj with rfl | hold
    · obtain ⟨s, hs⟩ := isDir_iff.1 hdir
      have hgrown : (t.grow dir node).dir? dir = some { s with created := s.created + 1 } := by
        have hne : t.nextId dir ≠ dir := NodeId.child_ne_self dir _
        rw [Tree.grow, dir?_modifyDir, if_pos rfl, dir?_put_of_ne node hne.symm, hs]
        rfl
      refine .inr ⟨dir, _, _, rfl, hgrown, ?_⟩
      rw [hs]
      exact Nat.lt_succ_self s.created
    · rcases h.born hold with htop | ⟨above, s, count, hchild, hs, hlt⟩
      · exact .inl htop
      · obtain ⟨d, hd, hpruned⟩ := hforth hs
        exact .inr ⟨above, d, count, hchild, hd, Nat.lt_of_lt_of_le hlt hpruned.created⟩

section Link

variable {n : Name}

/-- A directory after a link has been made: it has its old entries and perhaps the new
one. -/
theorem dir?_link_eq_some (h : t.Sound) (hd : (t.link dir n i).dir? j = some d) :
    ∃ s, t.dir? j = some s ∧ d.parent = s.parent ∧ (d.entries.map Prod.fst).Nodup ∧
      ∀ e ∈ d.entries, e ∈ s.entries ∨ j = dir ∧ e = (n, i) := by
  rw [dir?_link] at hd
  split at hd
  · next heq =>
    obtain ⟨s, hs, rfl⟩ := Option.map_eq_some_iff.1 hd
    refine ⟨s, heq ▸ hs, rfl, Association.nodup_keys_insert (h.names_nodup hs) n i, ?_⟩
    intro e he
    rcases Association.mem_insert.1 he with hnew | ⟨hold, _⟩
    · exact .inr ⟨heq, hnew⟩
    · exact .inl hold
  · exact ⟨d, hd, rfl, h.names_nodup hd, fun e he => .inl he⟩

theorem dir?_link_of_dir? {s : Directory} (hs : t.dir? j = some s) :
    ∃ d, (t.link dir n i).dir? j = some d ∧ d.parent = s.parent ∧ d.created = s.created := by
  rw [dir?_link]
  split
  · next heq =>
    subst heq
    rw [hs]
    exact ⟨_, rfl, rfl, rfl⟩
  · exact ⟨s, hs, rfl, rfl⟩

/-- A directory gets an entry for a node. If that is a directory itself, it has to
take the first one for the directory above it and must not have an entry yet. -/
theorem link (h : t.Sound) (hi : (t.node? i).isSome)
    (hfree : ∀ s, t.dir? i = some s →
      i ≠ top ∧ s.parent = dir ∧ ∀ j d m, t.dir? j = some d → (m, i) ∉ d.entries) :
    (t.link dir n i).Sound := by
  have hnode : ∀ j, ((t.link dir n i).node? j).isSome = (t.node? j).isSome :=
    node?_isSome_modifyDir t dir _
  constructor
  case top_dir =>
    obtain ⟨s, hs, hparent⟩ := h.top_dir
    obtain ⟨d, hd, hkept, _⟩ := dir?_link_of_dir? hs
    exact ⟨d, hd, hkept.trans hparent⟩
  case grounded =>
    intro j d hd
    obtain ⟨s, hs, _⟩ := h.dir?_link_eq_some hd
    obtain ⟨l, hl⟩ := h.grounded hs
    refine ⟨l, hl.transfer ?_⟩
    intro k _ s hs
    obtain ⟨d, hd, hkept, _⟩ := dir?_link_of_dir? hs
    exact ⟨d, hd, hkept⟩
  case entry_node =>
    intro j d m k hd hm
    obtain ⟨s, hs, _, _, hentries⟩ := h.dir?_link_eq_some hd
    rw [hnode]
    rcases hentries _ hm with hold | ⟨_, heq⟩
    · exact h.entry_node hs hold
    · cases heq
      exact hi
  case entry_parent =>
    intro j d m k e hd hm he
    obtain ⟨s, hs, _, _, hentries⟩ := h.dir?_link_eq_some hd
    obtain ⟨s', hs', hkept, _⟩ := h.dir?_link_eq_some he
    rw [hkept]
    rcases hentries _ hm with hold | ⟨rfl, heq⟩
    · exact h.entry_parent hs hold hs'
    · cases heq
      obtain ⟨htop, hparent, _⟩ := hfree s' hs'
      exact ⟨htop, hparent⟩
  case entry_unique =>
    intro j d m m' k e hd hm hm' he
    obtain ⟨s, hs, _, _, hentries⟩ := h.dir?_link_eq_some hd
    obtain ⟨s', hs', _⟩ := h.dir?_link_eq_some he
    rcases hentries _ hm with hold | ⟨_, heq⟩
    · rcases hentries _ hm' with hold' | ⟨_, heq'⟩
      · exact h.entry_unique hs hold hold' hs'
      · cases heq'
        exact absurd hold ((hfree s' hs').2.2 j s m hs)
    · cases heq
      rcases hentries _ hm' with hold' | ⟨_, heq'⟩
      · exact absurd hold' ((hfree s' hs').2.2 j s m' hs)
      · exact (Prod.mk.inj heq').1.symm
  case names_nodup =>
    intro j d hd
    obtain ⟨_, _, _, hnodup, _⟩ := h.dir?_link_eq_some hd
    exact hnodup
  case born =>
    intro j hj
    rw [hnode] at hj
    rcases h.born hj with htop | ⟨above, s, count, hchild, hs, hlt⟩
    · exact .inl htop
    · obtain ⟨d, hd, _, hcreated⟩ := dir?_link_of_dir? hs
      exact .inr ⟨above, d, count, hchild, hd, hcreated ▸ hlt⟩

end Link

/-- A new node gets its name. -/
theorem addEntry (h : t.Sound) (hdir : t.isDir dir = true) (n : Name) {node : Inode}
    (hnode : ∀ d, node = .directory d → d.entries = [] ∧ d.parent = dir) :
    ((t.grow dir node).link dir n (t.nextId dir)).Sound := by
  apply (h.grow hdir hnode).link
  · exact (node?_grow_isSome t dir node _).2 (.inl rfl)
  · intro s hs
    refine ⟨h.nextId_ne_top dir, ?_, ?_⟩
    · rcases (h.dir?_grow dir node).1 hs with ⟨_, heq⟩ | ⟨s', hs', _⟩
      · exact (hnode s heq).2
      · rw [dir?_eq_some_iff, h.node?_nextId_eq_none] at hs'
        cases hs'
    · intro j d m hj hm
      exact (h.entry_of_grow (fun d heq => (hnode d heq).1) hj hm).1 rfl

section Reparent

variable {newDir : NodeId} {l : List NodeId} {s₀ : Directory}

theorem dir?_reparent_eq_some
    (hd : (t.modifyDir i fun d => { d with parent := newDir }).dir? j = some d) :
    ∃ s, t.dir? j = some s ∧ d.entries = s.entries ∧ (j ≠ i → d = s) := by
  rw [dir?_modifyDir] at hd
  split at hd
  · next heq =>
    obtain ⟨s, hs, rfl⟩ := Option.map_eq_some_iff.1 hd
    exact ⟨s, heq ▸ hs, rfl, fun hne => absurd heq hne⟩
  · exact ⟨d, hd, rfl, fun _ => rfl⟩

/-- A way up that passes the directory goes on above its new place. -/
theorem ascends_reparent (hi : t.dir? i = some s₀) (htop : i ≠ top)
    (hl : t.Ascends newDir l) (habove : i ∉ l) {m : List NodeId} (hm : t.Ascends j m) :
    ∃ m', (t.modifyDir i fun d => { d with parent := newDir }).Ascends j m' := by
  have hnewDir : (t.modifyDir i fun d => { d with parent := newDir }).Ascends newDir l := by
    apply hl.transfer
    intro k hk s hs
    have hne : k ≠ i := by
      rintro rfl
      exact habove hk
    exact ⟨s, (dir?_modifyDir_of_ne _ hne).trans hs, rfl⟩
  induction hm with
  | here => exact ⟨[top], .here⟩
  | @up j d m hd hj _ ih =>
    by_cases hji : j = i
    · subst hji
      exact ⟨j :: l, .up (dir?_modifyDir_self hi _) htop hnewDir⟩
    · obtain ⟨m', hm'⟩ := ih
      exact ⟨j :: m', .up ((dir?_modifyDir_of_ne _ hji).trans hd) hj hm'⟩

/-- A directory without an entry takes another one for the directory above it,
which must not lie below it. -/
theorem reparent (h : t.Sound) (hi : t.dir? i = some s₀) (htop : i ≠ top)
    (hfree : ∀ j d m, t.dir? j = some d → (m, i) ∉ d.entries)
    (hl : t.Ascends newDir l) (habove : i ∉ l) :
    (t.modifyDir i fun d => { d with parent := newDir }).Sound := by
  have hforth : ∀ {j s}, t.dir? j = some s → j ≠ i →
      (t.modifyDir i fun d => { d with parent := newDir }).dir? j = some s :=
    fun hs hne => (dir?_modifyDir_of_ne _ hne).trans hs
  have hnode := node?_isSome_modifyDir t i fun d => { d with parent := newDir }
  constructor
  case top_dir =>
    obtain ⟨s, hs, hparent⟩ := h.top_dir
    exact ⟨s, hforth hs htop.symm, hparent⟩
  case grounded =>
    intro j d hd
    obtain ⟨s, hs, _⟩ := dir?_reparent_eq_some hd
    obtain ⟨m, hm⟩ := h.grounded hs
    exact ascends_reparent hi htop hl habove hm
  case entry_node =>
    intro j d n k hd hn
    obtain ⟨s, hs, hentries, _⟩ := dir?_reparent_eq_some hd
    rw [hnode]
    exact h.entry_node hs (hentries ▸ hn)
  case entry_parent =>
    intro j d n k e hd hn he
    obtain ⟨s, hs, hentries, _⟩ := dir?_reparent_eq_some hd
    obtain ⟨s', hs', _, hkept⟩ := dir?_reparent_eq_some he
    rw [hentries] at hn
    have hne : k ≠ i := by
      rintro rfl
      exact hfree j s n hs hn
    rw [hkept hne]
    exact h.entry_parent hs hn hs'
  case entry_unique =>
    intro j d n m k e hd hn hm he
    obtain ⟨s, hs, hentries, _⟩ := dir?_reparent_eq_some hd
    obtain ⟨s', hs', _⟩ := dir?_reparent_eq_some he
    rw [hentries] at hn hm
    exact h.entry_unique hs hn hm hs'
  case names_nodup =>
    intro j d hd
    obtain ⟨s, hs, hentries, _⟩ := dir?_reparent_eq_some hd
    rw [hentries]
    exact h.names_nodup hs
  case born =>
    intro j hj
    rw [hnode] at hj
    rcases h.born hj with heq | ⟨above, s, count, hchild, hs, hlt⟩
    · exact .inl heq
    · by_cases habove : above = i
      · subst habove
        rw [hi] at hs
        cases hs
        exact .inr ⟨above, _, count, hchild, dir?_modifyDir_self hi _, hlt⟩
      · exact .inr ⟨above, s, count, hchild, hforth hs habove, hlt⟩

end Reparent

/-- Once the name of a directory is taken away, no entry leads to it. -/
theorem not_mem_entries_unlink (h : t.Sound) {n : Name} {s : Directory}
    (hd : t.dir? dir = some d) (hn : (n, i) ∈ d.entries) (hi : t.dir? i = some s) {e : Directory}
    {m : Name} (he : (t.unlink dir n).dir? j = some e) : (m, i) ∉ e.entries := by
  intro hm
  unfold Tree.unlink at he
  rw [dir?_modifyDir] at he
  split at he
  · rw [hd] at he
    cases he
    obtain ⟨hold, hne⟩ := Association.mem_erase.1 hm
    exact hne (h.entry_unique hd hold hn hi)
  · next hne =>
    have hparent := (h.entry_parent hd hn hi).2
    have hparent' := (h.entry_parent he hm hi).2
    exact hne (hparent'.symm.trans hparent)

section Move

variable {newDir : NodeId} {newName : Name} {l : List NodeId} {s : Directory}

/-- What is no directory only gets its new name. -/
theorem place_other (h : t.Sound) (hsome : (t.node? i).isSome) (hi : t.dir? i = none) :
    ((t.link newDir newName i).modifyDir i f).Sound := by
  have hlinked : (t.link newDir newName i).Sound := by
    apply h.link hsome
    intro s hs
    rw [hi] at hs
    cases hs
  rw [modifyDir_of_dir?_eq_none]
  · exact hlinked
  · rw [dir?_link]
    split
    · next heq =>
      rw [← heq, hi]
      rfl
    · exact hi

/-- A directory without an entry is taken to its new place before it gets its new
name there. -/
theorem place_dir (h : t.Sound) (hi : t.dir? i = some s) (htop : i ≠ top)
    (hfree : ∀ j e m, t.dir? j = some e → (m, i) ∉ e.entries)
    (hl : t.Ascends newDir l) (habove : i ∉ l) :
    ((t.link newDir newName i).modifyDir i fun d => { d with parent := newDir }).Sound := by
  have hne : i ≠ newDir := by
    rintro rfl
    exact habove hl.mem_self
  have hlinked : ((t.modifyDir i fun d => { d with parent := newDir }).link newDir newName
      i).Sound := by
    apply (h.reparent hi htop hfree hl habove).link
    · rw [node?_isSome_modifyDir]
      exact node?_isSome_of_dir? hi
    · intro s' hs'
      rw [dir?_modifyDir_self hi _] at hs'
      cases hs'
      refine ⟨htop, rfl, ?_⟩
      intro j d m hj
      obtain ⟨s', hs', hentries, _⟩ := dir?_reparent_eq_some hj
      rw [hentries]
      exact hfree j s' m hs'
  apply hlinked.congr
  · intro j
    by_cases hj : j = i
    · subst hj
      simp only [dir?_modifyDir, dir?_link, if_neg hne, if_true]
    · simp only [dir?_modifyDir, dir?_link, if_neg hj, if_neg hne.symm]
  · intro j
    simp only [Tree.link, node?_isSome_modifyDir]

/-- An entry is moved to a directory that does not lie below its node. -/
theorem move (h : t.Sound) {n : Name} (hd : t.dir? dir = some d) (hn : (n, i) ∈ d.entries)
    (hnew : t.isDir newDir = true) (habove : t.isAbove i newDir = false) (newName : Name) :
    (t.relocate dir n newDir newName i).Sound := by
  have hunlinked := h.unlink dir n
  have hpruned : ∀ d : Directory, d.Pruned { d with entries := Association.erase n d.entries } :=
    fun _ => ⟨rfl, List.filter_sublist, Nat.le_refl _⟩
  obtain ⟨hback, hforth⟩ := pruned_modifyDir (t := t) hpruned dir
  cases hi : (t.unlink dir n).dir? i with
  | none =>
    apply hunlinked.place_other _ hi
    rw [Tree.unlink, node?_isSome_modifyDir]
    exact h.entry_node hd hn
  | some s =>
    obtain ⟨s₀, hs₀, _⟩ := hback hi
    obtain ⟨e, he⟩ := isDir_iff.1 hnew
    obtain ⟨l, hl⟩ := h.grounded he
    have htop := (h.entry_parent hd hn hs₀).1
    have hfree : ∀ j e m, (t.unlink dir n).dir? j = some e → (m, i) ∉ e.entries :=
      fun _ _ _ he => h.not_mem_entries_unlink hd hn hs₀ he
    have hl' : (t.unlink dir n).Ascends newDir l := by
      apply hl.transfer
      intro j _ s hs
      obtain ⟨d, hd, hpruned⟩ := hforth hs
      exact ⟨d, hd, hpruned.parent⟩
    have hnot : i ∉ l := by
      rw [← h.isAbove_iff hl, habove]
      exact Bool.false_ne_true
    exact hunlinked.place_dir hi htop hfree hl' hnot

end Move

end Sound

end Tree

end ConfinedFs.Os
