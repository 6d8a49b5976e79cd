import ConfinedFs.Memory.FileSystem
import ConfinedFs.Proofs.Memory.Resolve
import ConfinedFs.Proofs.Triple

/-!
Operations on a tree in memory are done as a whole or not at all. Directories can
be created wherever a path leads, so that nothing fails once the tree has been
changed.
-/

namespace ConfinedFs.Memory

open ConfinedFs.Action (Triple)

variable {m m' : Memory} {k j source target : Key} {α : Type}

/-- A memory with directories that were free places at or above a place. -/
structure Extends (m m' : Memory) (k : Key) : Prop where
  wellFormed : m'.WellFormed
  kept : ∀ {j n}, m.nodeAt j = some n → m'.nodeAt j = some n
  added : ∀ {j n}, m'.nodeAt j = some n → m.nodeAt j = some n ∨ n.isDir = true
  other : ∀ {j}, ¬ j <+: k → m'.index.find? j = m.index.find? j

section EnsureDirs

theorem parented_nil (m : Memory) : m.Parented [] :=
  fun _ ha hne => absurd (List.prefix_nil.1 ha) hne

/-- Nothing is done where a directory is stored. -/
theorem ensureEach_of_dir (hdir : ∃ n, m.nodeAt k = some n ∧ n.isDir = true) (perm : UInt32)
    (rest : List Key) : ensureEach perm (k :: rest) m = ensureEach perm rest m := by
  obtain ⟨n, hnode, hdir⟩ := hdir
  rw [ensureEach, Action.bind_apply_of_ok (Action.look_apply _ m), hnode]
  dsimp only
  rw [if_pos hdir]

/-- A directory at one place, created if it is missing. -/
theorem ensureEach_cons (h : m.WellFormed) (habove : m.Parented k)
    (hdir : ∀ n, m.nodeAt k = some n → n.isDir = true) (perm : UInt32) :
    ∃ m', Extends m m' k ∧ (∃ n, m'.nodeAt k = some n ∧ n.isDir = true) ∧
      ∀ rest, ensureEach perm (k :: rest) m = ensureEach perm rest m' := by
  cases hnode : m.nodeAt k with
  | some n =>
    have hhere : ∃ n, m.nodeAt k = some n ∧ n.isDir = true := ⟨n, hnode, hdir n hnode⟩
    exact ⟨m, ⟨h, id, .inl, fun _ => rfl⟩, hhere, ensureEach_of_dir hhere perm⟩
  | none =>
    have hnew := h.nodeAt_addNode k .directory ⟨[], perm⟩
    refine ⟨m.addNode k .directory ⟨[], perm⟩, ⟨h.addNode hnode habove _ _, ?_, ?_, ?_⟩, ?_, ?_⟩
    · intro j n hj
      rw [hnew, if_neg, hj]
      rintro rfl
      rw [hnode] at hj
      cases hj
    · intro j n hj
      rw [hnew] at hj
      split at hj
      · cases hj
        exact .inr rfl
      · exact .inl hj
    · intro j hj
      show (m.index.insert k _).find? j = _
      rw [Index.find?_insert, if_neg]
      rintro rfl
      exact hj List.prefix_rfl
    · exact ⟨_, by rw [hnew, if_pos rfl], rfl⟩
    · intro rest
      rw [ensureEach, Action.bind_apply_of_ok (Action.look_apply _ m), hnode]
      rfl

theorem Extends.trans {m'' : Memory} {k' : Key} (h : Extends m m' k) (h' : Extends m' m'' k')
    (hk : k <+: k') : Extends m m'' k' := by
  refine ⟨h'.wellFormed, fun hj => h'.kept (h.kept hj), ?_, ?_⟩
  · intro j n hj
    rcases h'.added hj with hold | hdir
    · exact h.added hold
    · exact .inr hdir
  · intro j hj
    rw [h'.other hj, h.other fun hp => hj (hp.trans hk)]

/-- Above what is in a stored directory there are directories. -/
theorem WellFormed.parented_concat (h : m.WellFormed)
    (hdir : ∃ n, m.nodeAt k = some n ∧ n.isDir = true) (name : Name) :
    m.Parented (k ++ [name]) := by
  intro a ha hne
  exact h.dir_of_prefix hdir ((List.prefix_concat_iff.1 ha).resolve_left hne)

/-- The places on the way down, the first of them set apart. -/
theorem map_chain_cons (passed : Key) (n : Name) (rest : Key) :
    (Key.chain (n :: rest)).map (passed ++ ·) =
      passed :: (Key.chain rest).map (passed ++ [n] ++ ·) := by
  simp [Key.chain, Function.comp_def]

/-- Directories are created one below the other. The induction is on what is left
of the place; what has been passed is stored as directories. -/
theorem ensureEach_chain (h : m.WellFormed) (passed rest : Key) (habove : m.Parented passed)
    (henter : m.Enterable (passed ++ rest)) (perm : UInt32) :
    ∃ m', ensureEach perm ((Key.chain rest).map (passed ++ ·)) m = (.ok (), m') ∧
      Extends m m' (passed ++ rest) ∧ ∃ n, m'.nodeAt (passed ++ rest) = some n ∧ n.isDir = true := by
  induction rest generalizing m passed with
  | nil =>
    rw [List.append_nil] at henter ⊢
    obtain ⟨m', hextends, hhere, hrun⟩ :=
      ensureEach_cons h habove (fun n hn => henter passed n List.prefix_rfl hn) perm
    refine ⟨m', ?_, hextends, hhere⟩
    show ensureEach perm [passed ++ []] m = _
    rw [List.append_nil, hrun []]
    rfl
  | cons n rest ih =>
    have hsplit : passed ++ n :: rest = passed ++ [n] ++ rest := by simp
    have hstarts : passed <+: passed ++ n :: rest := List.prefix_append passed _
    obtain ⟨m₁, hextends, hhere, hrun⟩ :=
      ensureEach_cons h habove (fun n hn => henter passed n hstarts hn) perm
    have habove' := hextends.wellFormed.parented_concat hhere n
    have henter' : m₁.Enterable (passed ++ [n] ++ rest) := by
      intro a node ha hnode
      rcases hextends.added hnode with hold | hisDir
      · exact henter a node (hsplit ▸ ha) hold
      · exact hisDir
    obtain ⟨m', hrest, hextends', hend⟩ := ih hextends.wellFormed (passed ++ [n]) habove' henter'
    rw [← hsplit] at hextends' hend
    refine ⟨m', ?_, hextends.trans hextends' hstarts, hend⟩
    rw [map_chain_cons, hrun, hrest]

/-- Directories can be created at every enterable place. -/
theorem ensureDirs_eq (h : m.WellFormed) (hk : m.Enterable k) (perm : UInt32) :
    ∃ m', ensureDirs k perm m = (.ok (), m') ∧ Extends m m' k ∧
      ∃ n, m'.nodeAt k = some n ∧ n.isDir = true := by
  obtain ⟨m', hrun, hextends, hend⟩ := ensureEach_chain h [] k (parented_nil m) hk perm
  refine ⟨m', ?_, hextends, hend⟩
  rw [← hrun]
  simp [ensureDirs]

end EnsureDirs

/-- The places strictly above a place other than the top are those at and above
its parent. -/
theorem prefix_parent_iff {a : Key} (hk : k ≠ []) : a <+: k.parent ↔ a <+: k ∧ a ≠ k := by
  have hsplit : k.parent ++ [k.getLast hk] = k := List.dropLast_concat_getLast hk
  constructor
  · intro ha
    refine ⟨ha.trans (List.dropLast_prefix k), ?_⟩
    rintro rfl
    have hlength := ha.length_le
    have hpos := List.length_pos_iff.2 hk
    rw [Key.parent, List.length_dropLast] at hlength
    omega
  · rintro ⟨ha, hne⟩
    rw [← hsplit] at ha hne
    rcases List.prefix_concat_iff.1 ha with heq | ha
    · exact absurd heq hne
    · exact ha

theorem not_starts_concat (k : Key) (n : Name) : ¬ k ++ [n] <+: k := by
  intro hstarts
  have hlength := hstarts.length_le
  rw [List.length_append, List.length_singleton] at hlength
  omega

theorem Passable.enterable_parent (h : m.Passable k) (hk : k ≠ []) : m.Enterable k.parent := by
  intro a n ha hnode
  obtain ⟨hstarts, hne⟩ := (prefix_parent_iff hk).1 ha
  exact h a n hstarts hne hnode

theorem Passable.enterable (h : m.Passable k)
    (hk : ∀ n, m.nodeAt k = some n → n.isDir = true) : m.Enterable k := by
  intro a n ha hnode
  by_cases heq : a = k
  · exact hk n (heq ▸ hnode)
  · exact h a n ha heq hnode

theorem Passable.prune (hpass : m.Passable k) (h : m.WellFormed) : (m.prune j).Passable k := by
  intro a n ha hne hnode
  rw [h.nodeAt_prune] at hnode
  split at hnode
  · cases hnode
  · exact hpass a n ha hne hnode

/-- Where nothing but directories and free places are in the way, the directories
above a place can be created. -/
theorem ensureParent_eq (h : m.WellFormed) (hpass : m.Passable k) (hk : k ≠ []) (perm : UInt32) :
    ∃ m', ensureDirs k.parent perm m = (.ok (), m') ∧ Extends m m' k.parent ∧ m'.Parented k := by
  obtain ⟨m', hrun, hextends, hdir⟩ := ensureDirs_eq h (hpass.enterable_parent hk) perm
  refine ⟨m', hrun, hextends, ?_⟩
  intro a ha hne
  exact hextends.wellFormed.dir_of_prefix hdir ((prefix_parent_iff hk).2 ⟨ha, hne⟩)

theorem WellFormed.ne_nil_of_nodeAt (h : m.WellFormed) (hk : m.nodeAt k = none) : k ≠ [] := by
  rintro rfl
  obtain ⟨n, hn, _⟩ := h.nodeAt_top
  rw [hk] at hn
  cases hn

theorem not_prefix_parent (hk : k ≠ []) (hj : k <+: j) : ¬ j <+: k.parent := by
  intro hparent
  obtain ⟨hstarts, hne⟩ := (prefix_parent_iff hk).1 hparent
  exact hne (hstarts.eq_of_length (Nat.le_antisymm hstarts.length_le hj.length_le))

/-- A node can be created at every free place that a path leads to, which stays free
while the directories above are created. -/
theorem createNode_eq (h : m.WellFormed) (hpass : m.Passable k) (hk : m.nodeAt k = none)
    (kind : NodeKind) (c : Content) :
    ∃ m' : Memory, createNode k kind c m = (.ok m'.cells.length, m'.addNode k kind c) ∧
      ensureDirs k.parent defaultDirMode m = (.ok (), m') ∧ Extends m m' k.parent ∧
      m'.nodeAt k = none ∧ (m'.addNode k kind c).WellFormed := by
  have hne := h.ne_nil_of_nodeAt hk
  obtain ⟨m', hrun, hextends, habove⟩ := ensureParent_eq h hpass hne defaultDirMode
  have hfree : m'.nodeAt k = none := by
    unfold nodeAt
    rw [hextends.other (not_prefix_parent hne List.prefix_rfl), h.find?_eq_none hk]
    rfl
  refine ⟨m', ?_, hrun, hextends, hfree, hextends.wellFormed.addNode hfree habove kind c⟩
  unfold createNode
  rw [Action.bind_apply_of_ok hrun]
  rfl

/-- The last part of a rename to a place that is free. -/
def relocate (source target : Key) : Action FileError Memory Unit := do
  ensureDirs target.parent defaultDirMode
  Action.update (transplant · source target)

/-- The last part of a rename that takes the place of what the target holds. -/
def replace (source target : Key) : Action FileError Memory Unit := do
  Action.update (prune · target)
  relocate source target

/-- From a memory in which the target is free and can be reached, the last part of a rename
does not fail. The target stays free while the directories above it are created. -/
theorem relocate_eq (h : m.WellFormed) (hpass : m.Passable target)
    (hfree : ∀ j, target <+: j → m.index.find? j = none) (hsource : source ≠ [])
    (htarget : target ≠ []) (hnot : ¬ source <+: target) :
    ∃ m' : Memory, relocate source target m = (.ok (), m'.transplant source target) ∧
      ensureDirs target.parent defaultDirMode m = (.ok (), m') ∧ Extends m m' target.parent ∧
      (∀ j, target <+: j → m'.index.find? j = none) ∧
      (m'.transplant source target).WellFormed := by
  obtain ⟨m', hrun, hextends, habove⟩ := ensureParent_eq h hpass htarget defaultDirMode
  have hstill : ∀ j, target <+: j → m'.index.find? j = none := by
    intro j hj
    rw [hextends.other (not_prefix_parent htarget hj), hfree j hj]
  refine ⟨m', ?_, hrun, hextends, hstill,
    hextends.wellFormed.transplant hstill hsource htarget hnot habove⟩
  rw [relocate, Action.bind_apply_of_ok hrun]
  rfl

/-- On every well-formed memory the operation succeeds and leaves a well-formed
one, or it fails and changes nothing. -/
def Atomic (x : Action FileError Memory α) : Prop :=
  ∀ m, m.WellFormed → Triple (· = m) x (fun _ => WellFormed) fun _ m' => m' = m

theorem Atomic.wellFormed {x : Action FileError Memory α} (hx : Atomic x) (h : m.WellFormed) :
    (x m).2.WellFormed := by
  have hrun := hx m h m rfl
  cases hxm : x m with
  | mk r m' =>
    rw [hxm] at hrun
    cases r with
    | ok a => exact hrun
    | error e =>
      dsimp only at hrun
      rw [hrun]
      exact h

/-- What fails has changed nothing. -/
theorem Atomic.eq_of_error {x : Action FileError Memory α} (hx : Atomic x) (h : m.WellFormed)
    {e : FileError} (hrun : x m = (.error e, m')) : m' = m := by
  have hpost := hx m h m rfl
  rw [hrun] at hpost
  exact hpost

section Operations

theorem atomic_createNode_of (h : m.WellFormed) (hpass : m.Passable k) (hk : m.nodeAt k = none)
    (kind : NodeKind) (c : Content) :
    Triple (· = m) (createNode k kind c) (fun _ => WellFormed) fun _ m' => m' = m := by
  obtain ⟨m', hrun, _, _, _, hm'⟩ := createNode_eq h hpass hk kind c
  rintro s rfl
  rw [hrun]
  exact hm'

/-- What an open request finds at a key. -/
def fileStored (m : Memory) (k : Key) : Except FileError CellId :=
  match m.nodeAt k with
  | some ⟨.file, c⟩ => .ok c
  | some _ => .error .notAFile
  | none => if m.hasDescendants k then .error .notAFile else .error .entityNotFound

theorem nodeAt_of_fileStored (h : m.fileStored k = .ok c) : m.nodeAt k = some ⟨.file, c⟩ := by
  unfold fileStored at h
  split at h
  · next hnode =>
    cases h
    exact hnode
  · cases h
  · split at h <;> cases h

theorem nodeAt_eq_none_of_fileStored (h : m.fileStored k = .error .entityNotFound) :
    m.nodeAt k = none := by
  unfold fileStored at h
  split at h
  · cases h
  · cases h
  · assumption

/-- A request that wants a new file is refused for what is there, or for a path that does not
resolve. Every other answer is what is stored where the path leads. -/
theorem fileAt_cases (m : Memory) (p : Path) (o : OpenOptions) :
    m.fileAt p o = (m.resolve p true).bind m.fileStored ∨
      m.fileAt p o = .error .alreadyExists ∨
      ∃ e, m.resolve p false = .error e ∧ m.fileAt p o = .error e := by
  unfold fileAt
  cases o.createNew with
  | false => exact .inl rfl
  | true =>
    cases hlast : m.resolve p false with
    | error e => exact .inr (.inr ⟨e, rfl, rfl⟩)
    | ok k =>
      cases hexists : m.exists? k with
      | true =>
        refine .inr (.inl ?_)
        simp only [hexists, bind, Except.bind]
        rfl
      | false =>
        refine .inl ?_
        simp only [hexists, bind, Except.bind]
        rfl

/-- A missing file is one that can be created. -/
theorem nodeAt_of_fileAt (h : m.WellFormed) {p : Path} {o : OpenOptions}
    (hfile : m.fileAt p o = .error .entityNotFound) (hk : m.resolve p true = .ok k) :
    m.nodeAt k = none := by
  obtain hfound | hexists | ⟨e, hlast, he⟩ := fileAt_cases m p o
  · rw [hfound, hk] at hfile
    exact nodeAt_eq_none_of_fileStored hfile
  · rw [hexists] at hfile
    cases hfile
  · -- A path never fails to resolve for want of an entry.
    have harrives := resolve_arrives h p false
    rw [hlast] at harrives
    rw [he] at hfile
    exact absurd (Except.error.inj hfile) harrives

/-- A file is found, or it is created where the path leads. -/
theorem triple_fileFor_of {p : Path} {o : OpenOptions} {Q : CellId → Memory → Prop}
    (h : m.WellFormed) (hfound : ∀ c, m.fileAt p o = .ok c → Q c m)
    (hcreate : ∀ k, m.resolve p true = .ok k → m.nodeAt k = none →
      Triple (· = m) (createNode k .file ⟨[], o.mode &&& permissionMask⟩) Q fun _ m' => m' = m) :
    Triple (· = m) (fileFor p o) Q fun _ m' => m' = m := by
  unfold fileFor
  apply Triple.look_bind
  cases hfile : m.fileAt p o with
  | ok c =>
    apply Triple.pure
    rintro s rfl
    exact hfound c hfile
  | error e =>
    cases e with
    | entityNotFound =>
      apply Triple.query_bind
      · intro k hk
        exact hcreate k hk (nodeAt_of_fileAt h hfile hk)
      · intro e _
        rfl
    | _ => exact Triple.throw fun s hs => hs

theorem atomic_fileFor (p : Path) (o : OpenOptions) : Atomic (fileFor p o) := by
  intro m h
  refine triple_fileFor_of h (fun _ _ => h) fun k hk hfree => ?_
  exact atomic_createNode_of h (passable_of_resolve h hk) hfree _ _

/-- The memory after a file has been found: it is emptied if the request asks for that. -/
def emptied (m : Memory) (c : CellId) (o : OpenOptions) : Memory :=
  if o.truncate then m.modifyCell c fun cell => { cell with data := [] } else m

/-- The last part of an opening, once the file is found: it is emptied if that is asked for,
and a handle on it is given out. -/
def handOut (p : Path) (o : OpenOptions) (c : CellId) :
    Action FileError Memory (OpenFile Handle) := do
  if o.truncate then
    Action.update fun m => m.modifyCell c fun cell => { cell with data := [] }
  let handle ← Action.look fun m => Handle.ofCell m c o
  return { handle, path := p }

theorem handOut_apply (p : Path) (o : OpenOptions) (c : CellId) (m : Memory) :
    handOut p o c m =
      (.ok { handle := Handle.ofCell (m.emptied c o) c o, path := p }, m.emptied c o) := by
  unfold handOut emptied
  cases o.truncate <;> rfl

theorem openFile_eq (p : Path) (o : OpenOptions) :
    openFile p o =
      (if o.creates then fileFor p o else Action.query (fileAt · p o)) >>= handOut p o := by
  unfold openFile handOut
  cases o.creates <;> cases o.truncate <;> rfl

/-- A file that has been opened is a new handle on a cell, under the path it was asked for. -/
theorem eq_of_openFile {p : Path} {o : OpenOptions} {f : OpenFile Handle}
    (hrun : openFile p o m = (.ok f, m')) : f = ⟨Handle.ofCell m' f.handle.cell o, p, []⟩ := by
  rw [openFile_eq] at hrun
  obtain ⟨c, m₁, -, hout⟩ := Action.exists_of_bind hrun
  rw [handOut_apply] at hout
  cases hout
  rfl

theorem name_of_openFile {p : Path} {o : OpenOptions} {f : OpenFile Handle}
    (hrun : openFile p o m = (.ok f, m')) : f.name = p := by
  rw [eq_of_openFile hrun]
  rfl

/-- A file is found or created, and given out. -/
theorem triple_openFile_of {p : Path} {o : OpenOptions} {Q : CellId → Memory → Prop}
    {Q' : OpenFile Handle → Memory → Prop}
    (hfile : Triple (· = m) (fileFor p o) Q fun _ m' => m' = m)
    (hfound : ∀ c, m.fileAt p o = .ok c → Q c m)
    (hopen : ∀ c m', Q c m' →
      Q' { handle := Handle.ofCell (m'.emptied c o) c o, path := p } (m'.emptied c o)) :
    Triple (· = m) (openFile p o) Q' fun _ m' => m' = m := by
  rw [openFile_eq]
  refine Triple.bind (Q := Q) (Triple.ite (fun _ => hfile) fun _ => ?_) fun c m' hc => ?_
  · apply Triple.query
    · rintro _ c rfl hc
      exact hfound c hc
    · exact fun _ _ hs _ => hs
  · rw [handOut_apply]
    exact hopen c m' hc

theorem WellFormed.emptied (h : m.WellFormed) (c : CellId) (o : OpenOptions) :
    (m.emptied c o).WellFormed := by
  unfold Memory.emptied
  split
  · exact h.modifyCell c _
  · exact h

theorem atomic_openFile (p : Path) (o : OpenOptions) : Atomic (openFile p o) := by
  intro m h
  exact triple_openFile_of (atomic_fileFor p o m h) (fun _ _ => h) fun c _ hs => hs.emptied c o

theorem atomic_createDirAll (p : Path) (mode : UInt32) : Atomic (createDirAll p mode) := by
  intro m h
  unfold createDirAll
  apply Triple.query_bind
  · intro k hk
    apply Triple.look_bind
    have hcreate : (∀ n, m.nodeAt k = some n → n.isDir = true) →
        Triple (· = m) (ensureDirs k (mode &&& permissionMask)) (fun _ => WellFormed)
          fun _ m' => m' = m := by
      intro hdir
      obtain ⟨m', hrun, hextends, _⟩ :=
        ensureDirs_eq h ((passable_of_resolve h hk).enterable hdir) (mode &&& permissionMask)
      rintro s rfl
      rw [hrun]
      exact hextends.wellFormed
    cases hnode : m.nodeAt k with
    | none => exact hcreate fun n hn => by rw [hnode] at hn; cases hn
    | some n =>
      refine Triple.guarded_fixed fun hdir => hcreate ?_
      intro n' hn'
      rw [hnode] at hn'
      cases hn'
      simpa using hdir
  · intro e _
    rfl

theorem atomic_symlink (target link : Path) : Atomic (symlink target link) := by
  intro m h
  unfold symlink
  apply Triple.query_bind
  · intro k hk
    apply Triple.look_bind
    apply Triple.guarded_fixed
    intro hexists
    have hnode := h.free_of_not_exists hexists
    apply Triple.bind (atomic_createNode_of h (passable_of_resolve h hk) hnode _ _)
    exact fun _ => Triple.pure fun s hs => hs
  · intro e _
    rfl

theorem atomic_remove (p : Path) : Atomic (remove p) := by
  intro m h
  unfold remove
  apply Triple.query_bind
  · intro k _
    apply Triple.guarded_fixed
    intro hk
    apply Triple.look_bind
    apply Triple.guarded_fixed
    intro _
    apply Triple.look_bind
    apply Triple.guarded_fixed
    intro _
    apply Triple.update
    rintro s rfl
    exact h.prune hk
  · intro e _
    rfl

theorem triple_relocate {F : FileError → Memory → Prop} (h : m.WellFormed)
    (hpass : m.Passable target) (hfree : ∀ j, target <+: j → m.index.find? j = none)
    (hsource : source ≠ []) (htarget : target ≠ []) (hnot : ¬ source <+: target) :
    Triple (· = m) (relocate source target) (fun _ => WellFormed) F := by
  obtain ⟨m', hrun, _, _, _, hwf⟩ := relocate_eq h hpass hfree hsource htarget hnot
  rintro s rfl
  rw [hrun]
  exact hwf

theorem triple_replace {F : FileError → Memory → Prop} (h : m.WellFormed)
    (hpass : m.Passable target) (hsource : source ≠ []) (htarget : target ≠ [])
    (hnot : ¬ source <+: target) :
    Triple (· = m) (replace source target) (fun _ => WellFormed) F := by
  apply Triple.bind_of_run (Action.update_apply _ m)
  exact triple_relocate (h.prune htarget) (hpass.prune h) (fun _ => h.find?_prune_eq_none)
    hsource htarget hnot

theorem atomic_rename (source target : Path) : Atomic (rename source target) := by
  intro m h
  unfold rename
  apply Triple.query_bind
  · intro s hs
    apply Triple.query_bind
    · intro t ht
      have hpass := passable_of_resolve h ht
      refine Triple.guarded_fixed fun hroots => ?_
      have hsource : s ≠ [] := fun heq => hroots (.inl heq)
      have htarget : t ≠ [] := fun heq => hroots (.inr heq)
      refine Triple.look_bind (Triple.guarded_fixed fun _ => ?_)
      refine Triple.ite (fun _ => Triple.pure fun s hs => hs ▸ h) fun _ => ?_
      refine Triple.guarded_fixed fun hstarts => ?_
      have hnot : ¬ s <+: t := fun hp => hstarts (List.isPrefixOf_iff_prefix.2 hp)
      refine Triple.look_bind (Triple.look_bind (Triple.ite (fun _ => ?_) fun hexists => ?_))
      · have hreplace := triple_replace (F := fun _ m' => m' = m) h hpass hsource htarget hnot
        refine Triple.look_bind (Triple.ite (fun _ => ?_) fun _ => ?_)
        · exact Triple.look_bind (Triple.guarded_fixed fun _ => hreplace)
        · refine Triple.ite (fun _ => Triple.throw_bind fun s hs => hs) fun _ => ?_
          exact Triple.guarded_fixed fun _ => hreplace
      · apply triple_relocate h hpass _ hsource htarget hnot
        exact fun j hj => h.find?_eq_none_of_prefix hexists hj
    · intro e _
      rfl
  · intro e _
    rfl

/-- A temporary file is the first one that can be created, and every attempt before
it changed nothing. -/
theorem atomic_openUnused (candidate : Nat → Path) (l : List Nat) :
    Atomic (bareFileSystem.openUnused candidate l) := by
  intro m h
  induction l with
  | nil => exact Triple.throw fun s hs => hs
  | cons i l ih =>
    have hopen := atomic_openFile (candidate i) .temporary m h
    unfold BareFileSystem.openUnused
    refine Triple.bind (Triple.outcome hopen) fun r => ?_
    cases r with
    | ok f => exact Triple.pure fun s hs => hs
    | error e =>
      cases e with
      | alreadyExists => exact ih
      | _ => exact Triple.throw fun s hs => hs

theorem wellFormed_tempFile (h : m.WellFormed) (draws : Draws) (dir : Path) (stem : Bytes) :
    (fileSystem.tempFile draws dir stem m).2.WellFormed := by
  simp only [fileSystem, BareFileSystem.unusedFile]
  generalize List.range BareFileSystem.temporaryAttempts = attempts
  exact (atomic_openUnused _ attempts).wellFormed h

end Operations

end ConfinedFs.Memory
