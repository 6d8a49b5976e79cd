import ConfinedFs.Proofs.Memory.Atomic

/-!
How a tree in memory grows. Requests drop nodes, move them and add new ones. They give no
cell to a second node and leave alone what the cells hold, up to an open request that
empties its file. So a node that has lost its place never gets one again.
-/

namespace ConfinedFs.Memory

open ConfinedFs.Action (Keeps Triple)

variable {m m' m'' : Memory} {j k source target : Key} {c : CellId} {p : Path} {o : OpenOptions}

/-- Slots hold the nodes they held or new ones with new cells, and what the old cells
hold is left alone. -/
structure Grows (m m' : Memory) : Prop where
  slots : m'.nodes.WellFormed
  cells : m.cells <+: m'.cells
  stored : ∀ {i n}, m'.nodes.get? i = some n → m.nodes.get? i = some n ∨ m.cells.length ≤ n.cell

namespace Grows

theorem refl (h : m.nodes.WellFormed) : Grows m m := ⟨h, List.prefix_rfl, .inl⟩

theorem addNode (h : Grows m m') (k : Key) (kind : NodeKind) (c : Content) :
    Grows m (m'.addNode k kind c) := by
  refine ⟨h.slots.insert _, h.cells.trans (List.prefix_append ..), ?_⟩
  intro i n hi
  have hget := h.slots.laws.insert ⟨kind, m'.cells.length⟩ i
  rw [Memory.addNode, hget] at hi
  split at hi
  · cases hi
    exact .inr h.cells.length_le
  · exact h.stored hi

theorem prune (h : Grows m m') (k : Key) : Grows m (m'.prune k) := by
  have hcells : (m'.prune k).cells = m'.cells := cells_foldl_dropEntry m' _
  refine ⟨slots_foldl_dropEntry m' _ h.slots, hcells.symm ▸ h.cells, ?_⟩
  intro i n hi
  rw [Memory.prune, get?_foldl_dropEntry] at hi
  split at hi
  · cases hi
  · exact h.stored hi

theorem transplant (h : Grows m m') (source target : Key) :
    Grows m (m'.transplant source target) :=
  ⟨h.slots, h.cells, h.stored⟩

theorem trans (h : Grows m m') (h' : Grows m' m'') : Grows m m'' := by
  refine ⟨h'.slots, h.cells.trans h'.cells, ?_⟩
  intro i n hi
  rcases h'.stored hi with hold | hnew
  · exact h.stored hold
  · exact .inr (Nat.le_trans h.cells.length_le hnew)

theorem content_eq (h : Grows m m') (hc : c < m.cells.length) : m'.content c = m.content c := by
  obtain ⟨added, hadded⟩ := h.cells
  simp [content, ← hadded, List.getD_eq_getElem?_getD, List.getElem?_append_left hc]

end Grows

theorem content_modifyCell_self (h : c < m.cells.length) (f : Content → Content) :
    (m.modifyCell c f).content c = f (m.content c) := by
  simp [content, modifyCell, List.getD_eq_getElem?_getD, List.getElem?_eq_getElem h]

theorem content_modifyCell_of_ne {c' : CellId} (hne : c' ≠ c) (m : Memory)
    (f : Content → Content) : (m.modifyCell c f).content c' = m.content c' := by
  simp [content, modifyCell, List.getD_eq_getElem?_getD, hne.symm]

theorem content_addNode (m : Memory) (k : Key) (kind : NodeKind) (content : Content) :
    (m.addNode k kind content).content m.cells.length = content := by
  simp [Memory.content, addNode, List.getD_eq_getElem?_getD]

section Operations

theorem keeps_grows_ensureEach (perm : UInt32) (l : List Key) :
    Keeps (Grows m) (ensureEach perm l) := by
  induction l with
  | nil => exact Keeps.pure _
  | cons k l ih =>
    apply Keeps.bind (Keeps.look _)
    intro found
    cases found with
    | none => exact Keeps.bind (Keeps.update fun _ hs => hs.addNode k _ _) fun _ => ih
    | some n => exact Triple.ite (fun _ => ih) fun _ => Keeps.throw _

theorem grows_ensureDirs (h : m.nodes.WellFormed) {perm : UInt32} {r : Except FileError Unit}
    (hrun : ensureDirs k perm m = (r, m')) : Grows m m' := by
  have hgrows := (keeps_grows_ensureEach perm k.chain).apply (Grows.refl h)
  have hstate : (ensureDirs k perm m).2 = m' := congrArg Prod.snd hrun
  rwa [← ensureDirs, hstate] at hgrows

theorem keeps_grows_createNode (k : Key) (kind : NodeKind) (c : Content) :
    Keeps (Grows m) (createNode k kind c) := by
  apply Keeps.bind (keeps_grows_ensureEach _ _)
  intro _
  apply Keeps.bind (Keeps.look _)
  intro _
  apply Keeps.bind (Keeps.update fun _ hs => hs.addNode k kind c)
  exact fun _ => Keeps.pure _

theorem keeps_grows_createDirAll (p : Path) (mode : UInt32) :
    Keeps (Grows m) (createDirAll p mode) := by
  apply Keeps.bind (Keeps.query _)
  intro k
  apply Keeps.bind (Keeps.look _)
  intro found
  cases found with
  | none => exact keeps_grows_ensureEach _ _
  | some n => exact Keeps.when (Keeps.throw _) (keeps_grows_ensureEach _ _)

theorem keeps_grows_symlink (target link : Path) : Keeps (Grows m) (symlink target link) := by
  apply Keeps.bind (Keeps.query _)
  intro k
  apply Keeps.bind (Keeps.look _)
  intro _
  apply Keeps.when (Keeps.throw _)
  exact Keeps.bind (keeps_grows_createNode _ _ _) fun _ => Keeps.pure _

theorem keeps_grows_remove (p : Path) : Keeps (Grows m) (remove p) := by
  apply Keeps.bind (Keeps.query _)
  intro k
  apply Keeps.when (Keeps.throw _)
  apply Keeps.bind (Keeps.look _)
  intro _
  apply Keeps.when (Keeps.throw _)
  apply Keeps.bind (Keeps.look _)
  intro _
  exact Keeps.when (Keeps.throw _) (Keeps.update fun _ hs => hs.prune k)

theorem keeps_grows_relocate (source target : Key) :
    Keeps (Grows m) (relocate source target) :=
  Keeps.bind (keeps_grows_ensureEach _ _) fun _ =>
    Keeps.update fun _ hs => hs.transplant source target

/-- Removing drops the place that the path leads to. -/
theorem triple_remove (p : Path) :
    Triple (· = m) (remove p) (fun _ m' => ∃ k, m.resolve p false = .ok k ∧ m' = m.prune k)
      fun _ m' => m' = m := by
  unfold remove
  apply Triple.query_bind
  · intro k hk
    refine Triple.guarded_fixed fun _ => Triple.look_bind (Triple.guarded_fixed fun _ => ?_)
    refine Triple.look_bind (Triple.guarded_fixed fun _ => Triple.update ?_)
    rintro s rfl
    exact ⟨k, hk, rfl⟩
  · intro e _
    rfl

/-- What a rename may have done: nothing, if both paths lead to one place; or what was at
the target has been dropped before anything is moved there. -/
structure Renamed (m : Memory) (j k : Key) (m' : Memory) : Prop where
  ne_top : k ≠ []
  same : j = k → m' = m
  replaced : j ≠ k → m.exists? k = true → Grows (m.prune k) m'
  free : j ≠ k → ¬ m.exists? k = true → Grows m m'

theorem Renamed.grows (h : Renamed m j k m') (hm : m.nodes.WellFormed) : Grows m m' := by
  by_cases hjk : j = k
  · rw [h.same hjk]
    exact Grows.refl hm
  · by_cases hexists : m.exists? k = true
    · exact ((Grows.refl hm).prune k).trans (h.replaced hjk hexists)
    · exact h.free hjk hexists

theorem triple_rename (hm : m.nodes.WellFormed) (source target : Path) :
    Triple (· = m) (rename source target)
      (fun _ m' => ∃ j k, m.resolve source false = .ok j ∧ m.resolve target false = .ok k ∧
        Renamed m j k m') fun _ m' => Grows m m' := by
  have hfail : ∀ s, s = m → Grows m s := by
    rintro s rfl
    exact Grows.refl hm
  unfold rename
  apply Triple.query_bind
  · intro j hj
    apply Triple.query_bind
    · intro k hk
      refine Triple.guarded (fun _ => hfail) fun htops => Triple.look_bind ?_
      have htop : k ≠ [] := fun heq => htops (.inr heq)
      refine Triple.guarded (fun _ => hfail) fun _ => Triple.ite (fun heq => ?_) fun hne => ?_
      · apply Triple.pure
        rintro s rfl
        exact ⟨j, k, hj, hk, htop, fun _ => rfl, fun hne => absurd heq hne, fun hne => absurd heq hne⟩
      refine Triple.guarded (fun _ => hfail) fun _ => Triple.look_bind (Triple.look_bind ?_)
      refine Triple.ite (fun hexists => ?_) fun hexists => ?_
      · have hreplace : Triple (· = m) (replace j k)
            (fun _ m' => ∃ j k, m.resolve source false = .ok j ∧ m.resolve target false = .ok k ∧
              Renamed m j k m') fun _ m' => Grows m m' := by
          have hpruned : Grows m (m.prune k) := (Grows.refl hm).prune k
          apply Triple.bind_of_run (Action.update_apply _ m)
          refine Triple.weaken (keeps_grows_relocate (m := m.prune k) j k) ?_ ?_ ?_
          · rintro s rfl
            exact Grows.refl hpruned.slots
          · intro _ m' hm'
            exact ⟨j, k, hj, hk, htop, fun heq => absurd heq hne, fun _ _ => hm',
              fun _ hnot => absurd hexists hnot⟩
          · intro _ m' hm'
            exact hpruned.trans hm'
        refine Triple.look_bind (Triple.ite (fun _ => ?_) fun _ => ?_)
        · exact Triple.look_bind (Triple.guarded (fun _ => hfail) fun _ => hreplace)
        · refine Triple.ite (fun _ => Triple.throw_bind hfail) fun _ => ?_
          exact Triple.guarded (fun _ => hfail) fun _ => hreplace
      · refine Triple.weaken (keeps_grows_relocate (m := m) j k) hfail ?_ fun _ _ hs => hs
        intro _ m' hm'
        exact ⟨j, k, hj, hk, htop, fun heq => absurd heq hne, fun _ hyes => absurd hyes hexists,
          fun _ _ => hm'⟩
    · exact fun _ _ => Grows.refl hm
  · exact fun _ _ => Grows.refl hm

theorem grows_rename (hm : m.nodes.WellFormed) (source target : Path) :
    Grows m (rename source target m).2 := by
  have hrename := triple_rename hm source target m rfl
  cases hrun : rename source target m with
  | mk r m' =>
    rw [hrun] at hrename
    cases r with
    | error e => exact hrename
    | ok a =>
      obtain ⟨j, k, _, _, hrenamed⟩ := hrename
      exact hrenamed.grows hm

end Operations

end ConfinedFs.Memory
