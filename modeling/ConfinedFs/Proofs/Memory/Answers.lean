import ConfinedFs.Proofs.Memory.Edits

/-!
What requests do to files in memory. No request gives a cell to a second node or takes one
away from its node for good. A request that opens a file finds it or creates it, and empties
it if that is asked for; no other one changes the data of a file.
-/

namespace ConfinedFs

open ConfinedFs.Action (Keeps Triple)

variable {α ε : Type}

namespace Memory

variable {m m' m₁ : Memory} {j k : Key} {c c' : CellId} {p q : Path} {o : OpenOptions}

/-- What every call keeps to: no cell is given away and no node gets the cell of another
one. -/
structure Evolves (m m' : Memory) : Prop where
  wellFormed : m'.WellFormed
  cells : m.cells.length ≤ m'.cells.length
  stored : ∀ {k n}, m'.nodeAt k = some n → (∃ j, m.nodeAt j = some n) ∨ m.cells.length ≤ n.cell

theorem Evolves.refl (h : m.WellFormed) : Evolves m m :=
  ⟨h, Nat.le_refl _, fun hk => .inl ⟨_, hk⟩⟩

theorem Grows.evolves (h : Grows m m') (hm : m.WellFormed) (hm' : m'.WellFormed) :
    Evolves m m' := by
  refine ⟨hm', h.cells.length_le, ?_⟩
  intro k n hn
  obtain ⟨i, _, hi⟩ := nodeAt_eq_some_iff.1 hn
  rcases h.stored hi with hold | hnew
  · exact .inl (hm.nodeAt_of_get? hold)
  · exact .inr hnew

theorem Evolves.modifyCell (h : Evolves m m') (c : CellId) (f : Content → Content) :
    Evolves m (m'.modifyCell c f) := by
  refine ⟨h.wellFormed.modifyCell c f, ?_, h.stored⟩
  have hlength : (m'.modifyCell c f).cells.length = m'.cells.length := List.length_modify ..
  rw [hlength]
  exact h.cells

/-- A cell with a node. -/
def Linked (m : Memory) (c : CellId) : Prop := ∃ k n, m.nodeAt k = some n ∧ n.cell = c

theorem Linked.of_evolves (h : Evolves m m') (hc : c < m.cells.length) (hlinked : m'.Linked c) :
    m.Linked c := by
  obtain ⟨k, n, hn, rfl⟩ := hlinked
  rcases h.stored hn with ⟨j, hj⟩ | hnew
  · exact ⟨j, n, hj, rfl⟩
  · exact absurd hc (Nat.not_lt.2 hnew)

theorem Owns.evolves (hc : Owns [] m c) (h : Evolves m m') : Owns [] m' c := by
  refine ⟨Nat.lt_of_lt_of_le hc.lt h.cells, ?_⟩
  intro k n hn hcell
  rcases h.stored hn with ⟨j, hj⟩ | hnew
  · exact ⟨List.nil_prefix, (hc.node hj hcell).2⟩
  · rw [hcell] at hnew
    exact absurd hc.lt (Nat.not_lt.2 hnew)

/-- The node of a place that is dropped has no other place. -/
theorem not_linked_prune (h : m.WellFormed) {n : Node} (hnode : m.nodeAt k = some n) :
    ¬ (m.prune k).Linked n.cell := by
  rintro ⟨j, n', hn', hcell⟩
  rw [h.nodeAt_prune] at hn'
  split at hn'
  · cases hn'
  · next hstarts => exact hstarts (h.key_unique hnode hn' hcell.symm ▸ List.prefix_rfl)

section Opening

/-- What has been done to find or create the file that a request opens: the file is where
the path leads, it is the one that was there or a new one, which is empty, and nothing has
been written. -/
structure Found (m : Memory) (p : Path) (m₁ : Memory) (c : CellId) : Prop where
  grows : Grows m m₁
  wellFormed : m₁.WellFormed
  place : ∃ k, m.resolve p true = .ok k ∧ m₁.nodeAt k = some ⟨.file, c⟩
  cell : m.fileOf p = some c ∨
    m.fileOf p = none ∧ m.cells.length ≤ c ∧ (m₁.content c).data = []

theorem found_of_fileAt (h : m.WellFormed) (hfile : m.fileAt p o = .ok c) : Found m p m c := by
  obtain ⟨k, hk, hnode⟩ := nodeAt_of_fileAt_eq_ok hfile
  exact ⟨Grows.refl h.slots, h, ⟨k, hk, hnode⟩, .inl (fileOf_eq_some_iff.2 ⟨k, hk, hnode⟩)⟩

theorem triple_fileFor (h : m.WellFormed) (p : Path) (o : OpenOptions) :
    Triple (· = m) (fileFor p o) (fun c m₁ => Found m p m₁ c) fun _ m' => m' = m := by
  refine triple_fileFor_of h (fun c hfile => found_of_fileAt h hfile) fun k hk hfree => ?_
  obtain ⟨m₁, hrun, hdirs, hextends, _, hwf⟩ :=
    createNode_eq h (passable_of_resolve h hk) hfree .file ⟨[], o.mode &&& permissionMask⟩
  have hgrows := grows_ensureDirs h.slots hdirs
  rintro s rfl
  rw [hrun]
  refine ⟨hgrows.addNode _ _ _, hwf, ⟨k, hk, ?_⟩,
    .inr ⟨?_, hgrows.cells.length_le, congrArg Content.data (content_addNode ..)⟩⟩
  · rw [hextends.wellFormed.nodeAt_addNode, if_pos rfl]
  · rw [← Option.not_isSome_iff_eq_none, Option.isSome_iff_exists]
    rintro ⟨c, hc⟩
    obtain ⟨k', hk', hnode⟩ := fileOf_eq_some_iff.1 hc
    rw [hk] at hk'
    cases hk'
    rw [hfree] at hnode
    cases hnode

theorem data_emptied (hc : c < m.cells.length) (c' : CellId) (o : OpenOptions) :
    ((m.emptied c' o).content c).data =
      if o.truncate = true ∧ c' = c then [] else (m.content c).data := by
  unfold emptied
  by_cases htruncate : o.truncate = true
  · rw [if_pos htruncate]
    by_cases hcell : c' = c
    · rw [if_pos ⟨htruncate, hcell⟩, hcell]
      exact content_edited hc .clear
    · rw [if_neg fun hboth => hcell hboth.2]
      exact congrArg Content.data (content_modifyCell_of_ne (Ne.symm hcell) m _)
  · rw [if_neg htruncate, if_neg fun hboth => htruncate hboth.1]

theorem evolves_emptied (h : Evolves m m') (c : CellId) (o : OpenOptions) :
    Evolves m (m'.emptied c o) := by
  unfold emptied
  split
  · exact h.modifyCell c _
  · exact h

theorem nodeAt_emptied (m : Memory) (c : CellId) (o : OpenOptions) (k : Key) :
    (m.emptied c o).nodeAt k = m.nodeAt k := by
  unfold emptied
  split <;> rfl

/-- A file that was there is opened if the path led to it. -/
theorem Found.cell_eq_iff (h : Found m p m₁ c) (hc' : c' < m.cells.length) :
    c = c' ↔ m.fileOf p = some c' := by
  rcases h.cell with hold | ⟨hnone, hnew, _⟩
  · rw [hold, Option.some_inj]
  · rw [hnone]
    refine ⟨?_, nofun⟩
    rintro rfl
    exact absurd hc' (Nat.not_lt.2 hnew)

theorem triple_openFile (h : m.WellFormed) (p : Path) (o : OpenOptions) :
    Triple (· = m) (openFile p o)
      (fun f m' => ∃ m₁, Found m p m₁ f.handle.cell ∧ m' = m₁.emptied f.handle.cell o)
      fun _ m' => m' = m :=
  triple_openFile_of (triple_fileFor h p o) (fun _ hc => found_of_fileAt h hc)
    fun _ m₁ hfound => ⟨m₁, hfound, rfl⟩

end Opening

end Memory

/-- Does the request empty the file of a cell where it succeeds? -/
def Operation.empties (m : Memory) (c : CellId) : Operation Memory.Handle α → Bool
  | openFile p o => o.truncate && m.fileOf p = some c
  | _ => false

namespace Memory

variable {m m' m₁ : Memory} {j k : Key} {c c' : CellId} {p q : Path} {o : OpenOptions}

/-- What is known of a request, of its answer and of what it leaves. -/
structure Answered (m : Memory) (op : Operation Handle α) (r : Except FileError α) (m' : Memory) :
    Prop where
  evolves : Evolves m m'
  /-- The data of a file that was there is what it was, or it has been emptied. -/
  data : ∀ c < m.cells.length,
    (m'.content c).data = if op.empties m c && r.isOk then [] else (m.content c).data
  /-- What is handed out is a handle on a file of the tree. -/
  opened : ∀ a f, r = .ok a → op.opened a = some f →
    ∃ k, m'.nodeAt k = some ⟨.file, f.handle.cell⟩

/-- A request that empties no file. -/
theorem answered_of_grows {op : Operation Handle α} {r : Except FileError α}
    (hgrows : Grows m m') (h : m.WellFormed) (h' : m'.WellFormed)
    (hempties : ∀ c, (op.empties m c && r.isOk) = false)
    (hopened : ∀ a f, r = .ok a → op.opened a = some f →
      ∃ k, m'.nodeAt k = some ⟨.file, f.handle.cell⟩) : Answered m op r m' := by
  refine ⟨hgrows.evolves h h', ?_, hopened⟩
  intro c hc
  rw [hgrows.content_eq hc, hempties]
  rfl

theorem answered_openFile (h : m.WellFormed) (p : Path) (o : OpenOptions) :
    Answered m (.openFile p o) (openFile p o m).1 (openFile p o m).2 := by
  have hopen := triple_openFile h p o m rfl
  have hwf := (atomic_openFile p o).wellFormed h
  cases hrun : openFile p o m with
  | mk r m' =>
    rw [hrun] at hopen hwf
    cases r with
    | error e =>
      dsimp only at hopen
      rw [hopen]
      exact answered_of_grows (Grows.refl h.slots) h h (fun _ => Bool.and_false _) nofun
    | ok f =>
      obtain ⟨m₁, hfound, rfl⟩ := hopen
      refine ⟨evolves_emptied (hfound.grows.evolves h hfound.wellFormed) _ _, ?_, ?_⟩
      · intro c hc
        have hc₁ := Nat.lt_of_lt_of_le hc hfound.grows.cells.length_le
        rw [data_emptied hc₁, hfound.grows.content_eq hc]
        simp [hfound.cell_eq_iff hc, Operation.empties, Except.isOk, Except.toBool]
      · rintro a _ ha ⟨⟩
        cases ha
        obtain ⟨k, _, hnode⟩ := hfound.place
        exact ⟨k, (nodeAt_emptied ..).trans hnode⟩

/-- A temporary file is opened like any other one, and no file is emptied. -/
theorem triple_openUnused (h : m.WellFormed) (candidate : Nat → Path) (l : List Nat) :
    Triple (· = m) (bareFileSystem.openUnused candidate l)
      (fun f m' => ∃ p, Found m p m' f.handle.cell) fun _ m' => m' = m := by
  induction l with
  | nil => exact Triple.throw fun s hs => hs
  | cons i l ih =>
    unfold BareFileSystem.openUnused
    refine Triple.bind (Triple.outcome (triple_openFile h (candidate i) .temporary)) fun r => ?_
    cases r with
    | ok f =>
      apply Triple.pure
      rintro s ⟨m₁, hfound, rfl⟩
      exact ⟨candidate i, hfound⟩
    | error e =>
      cases e with
      | alreadyExists => exact ih
      | _ => exact Triple.throw fun s hs => hs

/-- A request that opens a file and never empties one. -/
theorem answered_of_triple {x : Action FileError Memory (OpenFile Handle)}
    {op : Operation Handle (OpenFile Handle)} (h : m.WellFormed)
    (hx : Triple (· = m) x (fun f m' => ∃ p, Found m p m' f.handle.cell) fun _ m' => m' = m)
    (hempties : ∀ c, op.empties m c = false) (hopened : ∀ f, op.opened f = some f) :
    Answered m op (x m).1 (x m).2 := by
  have hrun := hx m rfl
  cases hxm : x m with
  | mk r m' =>
    rw [hxm] at hrun
    have hkept : ∀ c, (op.empties m c && r.isOk) = false := fun c => by rw [hempties, Bool.false_and]
    cases r with
    | error e =>
      dsimp only at hrun
      rw [hrun]
      exact answered_of_grows (Grows.refl h.slots) h h hkept nofun
    | ok f =>
      obtain ⟨p, hfound⟩ := hrun
      refine answered_of_grows hfound.grows h hfound.wellFormed hkept ?_
      intro a g ha hg
      cases ha
      rw [hopened] at hg
      cases hg
      obtain ⟨k, _, hnode⟩ := hfound.place
      exact ⟨k, hnode⟩

theorem answered_tempFile (h : m.WellFormed) (draws : Draws) (dir : Path) (stem : Bytes) :
    Answered m (.tempFile draws dir stem) (fileSystem.tempFile draws dir stem m).1
      (fileSystem.tempFile draws dir stem m).2 := by
  simp only [fileSystem, BareFileSystem.unusedFile]
  generalize List.range BareFileSystem.temporaryAttempts = attempts
  exact answered_of_triple h (triple_openUnused h _ attempts) (fun _ => rfl) fun _ => rfl

/-- What is known of every request. -/
theorem answered_perform (h : m.WellFormed) (op : Operation Handle α) :
    Answered m op (fileSystem.perform op m).1 (fileSystem.perform op m).2 := by
  have hrefl := Grows.refl h.slots
  cases op with
  | openFile p o => exact answered_openFile h p o
  | tempFile draws dir stem =>
    rw [FileSystem.perform]
    exact answered_tempFile h draws dir stem
  | stat p => exact answered_of_grows hrefl h h (fun _ => rfl) nofun
  | lstat p => exact answered_of_grows hrefl h h (fun _ => rfl) nofun
  | readDir p => exact answered_of_grows hrefl h h (fun _ => rfl) nofun
  | readlink p => exact answered_of_grows hrefl h h (fun _ => rfl) nofun
  | rename source target =>
    exact answered_of_grows (grows_rename h.slots source target) h
      ((atomic_rename source target).wellFormed h) (fun _ => rfl) nofun
  | remove p =>
    exact answered_of_grows ((keeps_grows_remove p).apply hrefl) h
      ((atomic_remove p).wellFormed h) (fun _ => rfl) nofun
  | createDirAll p mode =>
    exact answered_of_grows ((keeps_grows_createDirAll p mode).apply hrefl) h
      ((atomic_createDirAll p mode).wellFormed h) (fun _ => rfl) nofun
  | symlink target link =>
    exact answered_of_grows ((keeps_grows_symlink target link).apply hrefl) h
      ((atomic_symlink target link).wellFormed h) (fun _ => rfl) nofun

/-- However a handle is used, it stays on its cell. -/
theorem stable_evolves (m : Memory) (c : CellId) :
    Handle.Stable fun s => Evolves m s.2 ∧ s.1.cell = c where
  moveTo _ _ hs := hs
  putData _ s hs := ⟨hs.1.modifyCell s.1.cell _, hs.2⟩
  close _ hs := hs

end Memory

end ConfinedFs
