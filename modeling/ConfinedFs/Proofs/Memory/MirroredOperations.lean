import ConfinedFs.Proofs.Memory.TwinHandles
import ConfinedFs.Proofs.Path.LastName

/-!
The same request to two trees that mirror one another, for what is below the base of each.
Both succeed with the same answer or both fail for the same reason, and the trees go on
mirroring one another.
-/

namespace ConfinedFs.Memory

open ConfinedFs.Action (Coupled)
open ConfinedFs.Path

variable {m n m₀ n₀ : Memory} {b b' k passed source target names : Key} {p : Path}
  {c c' : CellId} {R : CellId → CellId → Prop} {kind : NodeKind} {content : Content}
  {o : OpenOptions} {perm mode : UInt32}

section Creating

/-- On the way down to a place below directories there is nothing to do at those. -/
theorem ensureEach_append
    (hdirs : ∀ a, a <+: b → a ≠ b → ∃ d, m.nodeAt (passed ++ a) = some d ∧ d.isDir = true)
    (k : Key) (perm : UInt32) :
    ensureEach perm ((Key.chain (b ++ k)).map (passed ++ ·)) m =
      ensureEach perm ((Key.chain k).map (passed ++ b ++ ·)) m := by
  induction b generalizing passed with
  | nil => rw [List.nil_append, List.append_nil]
  | cons x b ih =>
    have hhere := hdirs [] List.nil_prefix nofun
    rw [List.append_nil] at hhere
    rw [List.cons_append, map_chain_cons, ensureEach_of_dir hhere, List.append_cons passed x b]
    apply ih
    intro a ha hne
    have hbelow := hdirs (x :: a) (List.cons_prefix_cons.2 ⟨rfl, ha⟩)
      fun heq => hne (List.cons.inj heq).2
    rwa [List.append_cons] at hbelow

theorem ensureDirs_append (h : m.WellFormed) (hbase : ∃ d, m.nodeAt b = some d ∧ d.isDir = true)
    (k : Key) (perm : UInt32) :
    ensureDirs (b ++ k) perm m = ensureEach perm ((Key.chain k).map (b ++ ·)) m := by
  obtain ⟨d, hd, -⟩ := hbase
  have habove : ∀ a, a <+: b → a ≠ b → ∃ d, m.nodeAt ([] ++ a) = some d ∧ d.isDir = true :=
    h.parented_of_nodeAt hd
  simpa [ensureDirs] using ensureEach_append habove k perm

/-- One directory on the way down is created on both sides or on neither. -/
theorem coupled_ensureEach_cons {l l' : List Key} (h : Mirror R b b' m₀ n₀ m n)
    (habove : m.Parented (b ++ k)) (habove' : n.Parented (b' ++ k))
    (hrest : ∀ m' n', Mirror R b b' m₀ n₀ m' n' →
      (∃ d, m'.nodeAt (b ++ k) = some d ∧ d.isDir = true) →
        Coupled (Mirror R b b' m₀ n₀) (fun _ _ => True) (ensureEach perm l) (ensureEach perm l')
          m' n') :
    Coupled (Mirror R b b' m₀ n₀) (fun _ _ => True) (ensureEach perm ((b ++ k) :: l))
      (ensureEach perm ((b' ++ k) :: l')) m n := by
  apply Coupled.look_bind
  rcases h.dir_cases k with ⟨hnode, hnode'⟩ | ⟨d, d', hnode, hnode', hdir⟩
  · have hwf := h.left.wellFormed.addNode hnode habove .directory ⟨[], perm⟩
    have hwf' := h.right.wellFormed.addNode hnode' habove' .directory ⟨[], perm⟩
    rw [hnode, hnode']
    apply Coupled.update_bind
    refine hrest _ _ (h.addNode (h.left.ne_nil hnode) nofun hwf hwf')
      ⟨⟨.directory, m.cells.length⟩, ?_, rfl⟩
    rw [h.left.wellFormed.nodeAt_addNode, if_pos rfl]
  · rw [hnode, hnode']
    refine Coupled.ite (by rw [hdir]) (fun hisDir _ => ?_) fun _ _ => Coupled.throw h _
    exact hrest m n h ⟨d, hnode, hisDir⟩

/-- The induction is on what is left of the place; what has been passed is stored as
directories on both sides. -/
theorem coupled_ensureEach_chain (h : Mirror R b b' m₀ n₀ m n) (passed rest : Key)
    (habove : m.Parented (b ++ passed)) (habove' : n.Parented (b' ++ passed)) (perm : UInt32) :
    Coupled (Mirror R b b' m₀ n₀) (fun _ _ => True)
      (ensureEach perm ((Key.chain rest).map (b ++ passed ++ ·)))
      (ensureEach perm ((Key.chain rest).map (b' ++ passed ++ ·))) m n := by
  induction rest generalizing m n passed with
  | nil =>
    have hend : ∀ k : Key, (Key.chain []).map (k ++ ·) = [k] := by simp [Key.chain]
    rw [hend, hend]
    exact coupled_ensureEach_cons h habove habove' fun m' n' h' _ => Coupled.pure h' trivial
  | cons x rest ih =>
    rw [map_chain_cons, map_chain_cons]
    refine coupled_ensureEach_cons h habove habove' fun m' n' h' hdir => ?_
    have hbelow := h'.left.wellFormed.parented_concat hdir x
    have hbelow' := h'.right.wellFormed.parented_concat ((h'.dir_iff passed).1 hdir) x
    rw [List.append_assoc] at hbelow hbelow'
    have hrest := ih h' (passed ++ [x]) hbelow hbelow'
    rwa [← List.append_assoc, ← List.append_assoc] at hrest

theorem coupled_ensureDirs (h : Mirror R b b' m₀ n₀ m n) (k : Key) (perm : UInt32) :
    Coupled (Mirror R b b' m₀ n₀) (fun _ _ => True) (ensureDirs (b ++ k) perm)
      (ensureDirs (b' ++ k) perm) m n := by
  have hparented : ∀ {m : Memory} {b : Key}, m.WellFormed →
      (∃ d, m.nodeAt b = some d ∧ d.isDir = true) → m.Parented (b ++ []) := by
    rintro m b hm ⟨d, hd, -⟩
    rw [List.append_nil]
    exact hm.parented_of_nodeAt hd
  have hchain := coupled_ensureEach_chain h [] k (hparented h.left.wellFormed h.left.base)
    (hparented h.right.wellFormed h.right.base) perm
  rw [List.append_nil, List.append_nil] at hchain
  exact hchain.congr (ensureDirs_append h.left.wellFormed h.left.base k perm)
    (ensureDirs_append h.right.wellFormed h.right.base k perm)

/-- The cells of two nodes that are created at once correspond. -/
theorem coupled_createNode (h : Mirror R b b' m₀ n₀ m n) (hpass : m.Passable (b ++ k))
    (hpass' : n.Passable (b' ++ k)) (hfree : m.nodeAt (b ++ k) = none)
    (hfree' : n.nodeAt (b' ++ k) = none) (hkind : kind ≠ .symlink) (content : Content) :
    Coupled (Mirror R b b' m₀ n₀) R (createNode (b ++ k) kind content)
      (createNode (b' ++ k) kind content) m n := by
  have hk := h.left.ne_nil hfree
  obtain ⟨m', hrun, hdirs, -, -, hwf⟩ :=
    createNode_eq h.left.wellFormed hpass hfree kind content
  obtain ⟨n', hrun', hdirs', -, -, hwf'⟩ :=
    createNode_eq h.right.wellFormed hpass' hfree' kind content
  have hmirror := (coupled_ensureDirs h k.parent defaultDirMode).states
  rw [← Key.parent_append b hk, ← Key.parent_append b' hk, hdirs, hdirs'] at hmirror
  refine ⟨?_, ?_⟩
  · rw [hrun, hrun']
    exact hmirror.addNode hk hkind hwf hwf'
  · rw [hrun, hrun']
    exact hmirror.next 0

theorem coupled_createDirAll (h : Mirror R b b' m₀ n₀ m n) (names : Key) (mode : UInt32) :
    Coupled (Mirror R b b' m₀ n₀) (fun _ _ => True) (createDirAll (ofNames (b ++ names)) mode)
      (createDirAll (ofNames (b' ++ names)) mode) m n := by
  refine Coupled.query_bind h (h.resolve_outcomes names true) ?_
  rintro _ _ - - ⟨rfl, rfl⟩
  apply Coupled.look_bind
  have hcreate := coupled_ensureDirs h names (mode &&& permissionMask)
  rcases h.dir_cases names with ⟨hnode, hnode'⟩ | ⟨d, d', hnode, hnode', hdir⟩
  · rw [hnode, hnode']
    exact hcreate
  · rw [hnode, hnode']
    exact Coupled.guarded h (by rw [hdir]) fun _ _ => hcreate

end Creating

section Opening

theorem fileStored_outcomes (h : Mirror R b b' m₀ n₀ m n) (k : Key) :
    Outcomes R (m.fileStored (b ++ k)) (n.fileStored (b' ++ k)) := by
  unfold fileStored
  by_cases hk : k = []
  · have hdir : ∀ {m : Memory} {b : Key}, (∃ d, m.nodeAt b = some d ∧ d.isDir = true) →
        ∃ c, m.nodeAt (b ++ []) = some ⟨.directory, c⟩ := by
      rintro m b ⟨⟨kind, c⟩, hd, hdir⟩
      obtain rfl : kind = .directory := by simpa [Node.isDir] using hdir
      exact ⟨c, by rw [List.append_nil, hd]⟩
    obtain ⟨c, hnode⟩ := hdir h.left.base
    obtain ⟨c', hnode'⟩ := hdir h.right.base
    rw [hk, hnode, hnode']
    rfl
  · rcases h.node_cases hk with ⟨hnone, hnone'⟩ | ⟨kind, c, c', hsome, hsome', hc⟩
    · simp only [hnone, hnone', h.hasDescendants_eq k]
      split <;> rfl
    · rw [hsome, hsome']
      cases kind with
      | file => exact hc
      | directory | symlink => rfl

theorem fileAt_outcomes (h : Mirror R b b' m₀ n₀ m n) (names : Key) (o : OpenOptions) :
    Outcomes R (m.fileAt (ofNames (b ++ names)) o) (n.fileAt (ofNames (b' ++ names)) o) := by
  have hfound : Outcomes R ((m.resolve (ofNames (b ++ names)) true).bind m.fileStored)
      ((n.resolve (ofNames (b' ++ names)) true).bind n.fileStored) := by
    refine (h.resolve_outcomes names true).bind ?_
    rintro _ _ ⟨rfl, rfl⟩
    exact fileStored_outcomes h names
  unfold fileAt
  cases o.createNew with
  | false => exact hfound
  | true =>
    refine (h.resolve_outcomes names false).bind ?_
    rintro _ _ ⟨rfl, rfl⟩
    rw [h.exists?_eq names]
    split
    · rfl
    · exact hfound

theorem coupled_fileFor (h : Mirror R b b' m₀ n₀ m n) (names : Key) (o : OpenOptions) :
    Coupled (Mirror R b b' m₀ n₀) R (fileFor (ofNames (b ++ names)) o)
      (fileFor (ofNames (b' ++ names)) o) m n := by
  apply Coupled.look_bind
  have hfiles := fileAt_outcomes h names o
  cases hfile : m.fileAt (ofNames (b ++ names)) o <;>
    cases hfile' : n.fileAt (ofNames (b' ++ names)) o <;> rw [hfile, hfile'] at hfiles
  case ok.ok c c' => exact Coupled.pure h hfiles
  case error.error e e' =>
    obtain rfl : e = e' := hfiles
    cases e with
    | entityNotFound =>
      refine Coupled.query_bind h (h.resolve_outcomes names true) ?_
      rintro _ _ hk hk' ⟨rfl, rfl⟩
      exact coupled_createNode h (passable_of_resolve h.left.wellFormed hk)
        (passable_of_resolve h.right.wellFormed hk')
        (nodeAt_of_fileAt h.left.wellFormed hfile hk)
        (nodeAt_of_fileAt h.right.wellFormed hfile' hk') NodeKind.noConfusion _
    | _ => exact Coupled.throw h _
  all_goals exact hfiles.elim

theorem coupled_handOut (h : Mirror R b b' m₀ n₀ m n) (hc : R c c') (p p' : Path)
    (o : OpenOptions) :
    Coupled (Mirror R b b' m₀ n₀) (fun f f' => f.handle.Twin R f'.handle ∧ f'.name = p')
      (handOut p o c) (handOut p' o c') m n := by
  have hemptied : Mirror R b b' m₀ n₀ (m.emptied c o) (n.emptied c' o) := by
    unfold emptied
    split
    · exact h.modifyCell hc _
    · exact h
  refine ⟨?_, ?_⟩
  · rw [handOut_apply, handOut_apply]
    exact hemptied
  · rw [handOut_apply, handOut_apply]
    refine ⟨⟨hc, ?_⟩, rfl⟩
    simp only [Handle.ofCell, hemptied.contents hc]

theorem coupled_openFile (h : Mirror R b b' m₀ n₀ m n) (names : Key) (o : OpenOptions) :
    Coupled (Mirror R b b' m₀ n₀)
      (fun f f' => f.handle.Twin R f'.handle ∧ f'.name = ofNames (b' ++ names))
      (openFile (ofNames (b ++ names)) o) (openFile (ofNames (b' ++ names)) o) m n := by
  rw [openFile_eq, openFile_eq]
  refine Coupled.bind (Q := R) (Coupled.ite Iff.rfl (fun _ _ => ?_) fun _ _ => ?_) ?_
  · exact coupled_fileFor h names o
  · exact Coupled.query h (fileAt_outcomes h names o)
  · intro c c' _ _ _ _ hc h'
    exact coupled_handOut h' hc _ _ o

end Opening

section Looking

/-- What is described under another name is the same otherwise. -/
theorem describe_named (m : Memory) (k : Key) (name : Bytes) (p : Path) :
    Outcomes (fun a a' => a.named p = a') (m.describe k name) (m.describe k p.baseName.bytes) := by
  unfold describe
  split
  · rfl
  · split <;> rfl

theorem described_outcomes (h : Mirror R b b' m₀ n₀ m n) (hne : names ≠ []) (followLast : Bool)
    (name : Bytes) (p : Path) :
    Outcomes (fun a a' => a.named p = a')
      ((m.resolve (ofNames (b ++ names)) followLast).bind (m.describe · name))
      ((n.resolve (ofNames (b' ++ names)) followLast).bind (n.describe · p.baseName.bytes)) := by
  refine (h.resolve_outcomes names followLast).bind ?_
  rintro _ _ ⟨rfl, rfl⟩
  rw [h.describe_eq hne]
  exact describe_named n _ name p

/-- A directory is listed in the same way from both sides, up to its own path. -/
theorem readDir_outcomes (h : Mirror R b b' m₀ n₀ m n) (names : Key) :
    Outcomes (fun l l' =>
        l.entries.map (DirEntry.listedIn (ofNames (b' ++ names)).fromTop) = l'.entries)
      (m.readDir (ofNames (b ++ names))) (n.readDir (ofNames (b' ++ names))) := by
  have hlisted : (Listing.mk ((m.children (b ++ names)).map fun x =>
        { path := (ofNames (b ++ names)).fromTop.push ⟨x.bytes⟩,
          metadata := m.describe (b ++ names ++ [x]) x.bytes })).entries.map
        (DirEntry.listedIn (ofNames (b' ++ names)).fromTop) =
      (n.children (b' ++ names)).map fun x =>
        { path := (ofNames (b' ++ names)).fromTop.push ⟨x.bytes⟩,
          metadata := n.describe (b' ++ names ++ [x]) x.bytes } := by
    rw [h.children_eq names, List.map_map]
    refine List.map_congr_left fun x _ => ?_
    have hbelow := h.describe_eq (k := names ++ [x]) (by simp) x.bytes
    rw [← List.append_assoc, ← List.append_assoc] at hbelow
    simp only [Function.comp_apply, DirEntry.listedIn, DirEntry.fileName, fileName?_push,
      Option.getD_some, hbelow]
  refine (h.resolve_outcomes names true).bind ?_
  rintro _ _ ⟨rfl, rfl⟩
  rcases h.dir_cases names with ⟨hnode, hnode'⟩ | ⟨d, d', hnode, hnode', hdir⟩
  · simp only [hnode, hnode', h.hasDescendants_eq names]
    split
    · rfl
    · exact hlisted
  · simp only [hnode, hnode', hdir]
    split
    · rfl
    · exact hlisted

end Looking

section Moving

theorem coupled_remove (h : Mirror R b b' m₀ n₀ m n) (hne : names ≠ []) :
    Coupled (Mirror R b b' m₀ n₀) (fun _ _ => True) (remove (ofNames (b ++ names)))
      (remove (ofNames (b' ++ names))) m n := by
  refine Coupled.query_bind h (h.resolve_outcomes names false) ?_
  rintro _ _ - - ⟨rfl, rfl⟩
  refine Coupled.guarded h (by simp [hne]) fun _ _ => Coupled.look_bind ?_
  refine Coupled.guarded h (by rw [h.exists?_eq names]) fun _ _ => Coupled.look_bind ?_
  refine Coupled.guarded h (by rw [h.hasDescendants_eq names]) fun _ _ => ?_
  exact Coupled.update (h.prune hne)

theorem coupled_relocate (h : Mirror R b b' m₀ n₀ m n) (hsource : source ≠ [])
    (htarget : target ≠ []) (hnot : ¬ source <+: target) (hpass : m.Passable (b ++ target))
    (hpass' : n.Passable (b' ++ target))
    (hfree : ∀ j, b ++ target <+: j → m.index.find? j = none)
    (hfree' : ∀ j, b' ++ target <+: j → n.index.find? j = none) :
    Coupled (Mirror R b b' m₀ n₀) (fun _ _ => True) (relocate (b ++ source) (b ++ target))
      (relocate (b' ++ source) (b' ++ target)) m n := by
  have hne : ∀ (b : Key) {k : Key}, k ≠ [] → b ++ k ≠ [] :=
    fun b k hk hnil => hk (List.append_eq_nil_iff.1 hnil).2
  have hapart : ∀ b : Key, ¬ b ++ source <+: b ++ target :=
    fun b hp => hnot ((List.prefix_append_right_inj b).1 hp)
  obtain ⟨m', hrun, hdirs, -, hstill, hwf⟩ := relocate_eq h.left.wellFormed hpass hfree
    (hne b hsource) (hne b htarget) (hapart b)
  obtain ⟨n', hrun', hdirs', -, hstill', hwf'⟩ := relocate_eq h.right.wellFormed hpass' hfree'
    (hne b' hsource) (hne b' htarget) (hapart b')
  have hmirror := (coupled_ensureDirs h target.parent defaultDirMode).states
  rw [← Key.parent_append b htarget, ← Key.parent_append b' htarget, hdirs, hdirs'] at hmirror
  refine ⟨?_, ?_⟩
  · rw [hrun, hrun']
    exact hmirror.transplant hsource htarget hstill hstill' hwf hwf'
  · rw [hrun, hrun']
    trivial

theorem coupled_replace (h : Mirror R b b' m₀ n₀ m n) (hsource : source ≠ [])
    (htarget : target ≠ []) (hnot : ¬ source <+: target) (hpass : m.Passable (b ++ target))
    (hpass' : n.Passable (b' ++ target)) :
    Coupled (Mirror R b b' m₀ n₀) (fun _ _ => True) (replace (b ++ source) (b ++ target))
      (replace (b' ++ source) (b' ++ target)) m n := by
  apply Coupled.update_bind
  exact coupled_relocate (h.prune htarget) hsource htarget hnot (hpass.prune h.left.wellFormed)
    (hpass'.prune h.right.wellFormed) (fun _ => h.left.wellFormed.find?_prune_eq_none)
    fun _ => h.right.wellFormed.find?_prune_eq_none

theorem coupled_rename (h : Mirror R b b' m₀ n₀ m n) (hsource : source ≠ [])
    (htarget : target ≠ []) :
    Coupled (Mirror R b b' m₀ n₀) (fun _ _ => True)
      (rename (ofNames (b ++ source)) (ofNames (b ++ target)))
      (rename (ofNames (b' ++ source)) (ofNames (b' ++ target))) m n := by
  refine Coupled.query_bind h (h.resolve_outcomes source false) ?_
  rintro _ _ - - ⟨rfl, rfl⟩
  refine Coupled.query_bind h (h.resolve_outcomes target false) ?_
  rintro _ _ ht ht' ⟨rfl, rfl⟩
  have hpass := passable_of_resolve h.left.wellFormed ht
  have hpass' := passable_of_resolve h.right.wellFormed ht'
  refine Coupled.guarded h (by simp [hsource, htarget]) fun _ _ => Coupled.look_bind ?_
  refine Coupled.guarded h (by rw [h.exists?_eq source]) fun _ _ => ?_
  refine Coupled.ite (by simp) (fun _ _ => Coupled.pure h trivial) fun _ _ => ?_
  refine Coupled.guarded h (by simp [List.isPrefixOf_iff_prefix]) fun hstarts _ => ?_
  have hnot : ¬ source <+: target := fun hp =>
    hstarts (List.isPrefixOf_iff_prefix.2 ((List.prefix_append_right_inj b).2 hp))
  refine Coupled.look_bind (Coupled.look_bind ?_)
  refine Coupled.ite (by rw [h.exists?_eq target]) (fun _ _ => ?_) fun hexists hexists' => ?_
  · have hreplace := coupled_replace h hsource htarget hnot hpass hpass'
    refine Coupled.look_bind (Coupled.ite ?_ (fun _ _ => ?_) fun _ _ => ?_)
    · rw [h.isDir_eq source, h.isDir_eq target]
    · refine Coupled.look_bind (Coupled.guarded h ?_ fun _ _ => hreplace)
      rw [h.hasDescendants_eq target]
    · refine Coupled.ite (by rw [h.isDir_eq target]) (fun _ _ => ⟨h, rfl⟩) fun _ _ => ?_
      exact Coupled.guarded h (by rw [h.isDir_eq source]) fun _ _ => hreplace
  · exact coupled_relocate h hsource htarget hnot hpass hpass'
      (fun _ hj => h.left.wellFormed.find?_eq_none_of_prefix hexists hj)
      fun _ hj => h.right.wellFormed.find?_eq_none_of_prefix hexists' hj

end Moving

end ConfinedFs.Memory
