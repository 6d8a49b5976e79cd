import ConfinedFs.Proofs.Memory.Fence
import ConfinedFs.Proofs.Memory.Handles

/-!
Operations on paths behind a fence. Each of them stays behind the fence, and the files
that are handed out are files there.
-/

namespace ConfinedFs.Memory

open ConfinedFs.Action (Keeps Triple)
open ConfinedFs.Path

variable {m m' : Memory} {b k source target names : Key} {c : CellId} {p : Path} {o : OpenOptions}
variable {α : Type}

section Owns

/-- A cell that no node has but a file behind the fence. The file may have been removed
by now. -/
structure Owns (b : Key) (m : Memory) (c : CellId) : Prop where
  lt : c < m.cells.length
  node : ∀ {k n}, m.nodeAt k = some n → n.cell = c → b <+: k ∧ n.kind = .file

/-- The cell of a file is that of no other node. -/
theorem WellFormed.owns (h : m.WellFormed) (hk : b <+: k)
    (hnode : m.nodeAt k = some ⟨.file, c⟩) : Owns b m c := by
  refine ⟨h.cell_lt_of_nodeAt hnode, ?_⟩
  intro j n hn heq
  obtain rfl := h.key_unique hn hnode heq
  rw [hnode] at hn
  cases hn
  exact ⟨hk, rfl⟩

/-- What is done behind the fence gives the cell to no other node. -/
theorem Owns.within (h : Owns b m c) (hwithin : Within b m m') : Owns b m' c := by
  refine ⟨Nat.lt_of_lt_of_le h.lt hwithin.cells, ?_⟩
  intro k n hn heq
  have hkind : n.kind = .file := by
    rcases hwithin.stored hn with ⟨j, hj⟩ | hnew
    · exact (h.node hj heq).2
    · rw [heq] at hnew
      exact absurd h.lt (Nat.not_lt.2 hnew)
  by_cases hk : b <+: k
  · exact ⟨hk, hkind⟩
  · exact h.node ((hwithin.outside k hk).symm.trans hn) heq

/-- A file behind the fence may be written. -/
theorem Fenced.modifyCell (h : Fenced b m) (howns : Owns b m c) (f : Content → Content) :
    Within b m (m.modifyCell c f) := by
  have hother : ∀ {k n}, m.nodeAt k = some n → ¬ (b <+: k ∧ n.kind = .file) →
      (m.modifyCell c f).content n.cell = m.content n.cell :=
    fun hn hnot => content_modifyCell_of_ne (fun heq => hnot (howns.node hn heq)) m f
  have hlength : (m.modifyCell c f).cells.length = m.cells.length := List.length_modify ..
  have hfenced : Fenced b (m.modifyCell c f) := by
    refine ⟨h.wellFormed.modifyCell c f, h.parented, ?_⟩
    intro k c' hk
    have hlink := h.links hk
    rwa [← hother hk fun hfile => nomatch hfile.2] at hlink
  refine ⟨hfenced, fun _ _ => rfl, ?_, Nat.le_of_eq hlength.symm, fun hn => .inl ⟨_, hn⟩⟩
  intro k n hk hn
  exact hother hn fun hfile => hk hfile.1

/-- Whatever is done with a handle on a cell behind the fence stays behind it. -/
theorem stable_within (b : Key) (m : Memory) (c : CellId) :
    Handle.Stable fun s => Within b m s.2 ∧ Owns b s.2 s.1.cell ∧ s.1.cell = c where
  moveTo _ _ hs := hs
  putData f s hs := by
    have hwithin := hs.1.fenced.modifyCell hs.2.1 fun c => { c with data := f c.data }
    exact ⟨hs.1.trans hwithin, hs.2.1.within hwithin, hs.2.2⟩
  close _ hs := hs

end Owns

/-- From every fenced tree the operation succeeds behind the fence, with a result of
which something holds, or it fails and changes nothing. -/
structure Confines (b : Key) (x : Action FileError Memory α) (Q : α → Memory → Prop) : Prop where
  run : ∀ m, Fenced b m → Triple (· = m) x (fun a m' => Within b m m' ∧ Q a m') fun _ m' => m' = m

/-- The cell is that of a file behind the fence. -/
def HoldsFile (b : Key) (c : CellId) (m : Memory) : Prop :=
  ∃ k, b <+: k ∧ m.nodeAt k = some ⟨.file, c⟩

/-- What fails has changed nothing, and so has stayed behind the fence. -/
theorem Confines.within {x : Action FileError Memory α} {Q : α → Memory → Prop}
    (hx : Confines b x Q) (h : Fenced b m) : Within b m (x m).2 := by
  have hrun := hx.run m h m rfl
  cases hxm : x m with
  | mk r m' =>
    rw [hxm] at hrun
    cases r with
    | ok a => exact hrun.1
    | error e =>
      dsimp only at hrun ⊢
      rw [hrun]
      exact Within.refl h

theorem Confines.query (f : Memory → Except FileError α) :
    Confines b (Action.query f) fun _ _ => True := by
  refine ⟨fun m h => ?_⟩
  apply Triple.query
  · rintro s a rfl _
    exact ⟨Within.refl h, trivial⟩
  · exact fun s e hs _ => hs

theorem Confines.weaken {x : Action FileError Memory α} {Q Q' : α → Memory → Prop}
    (hx : Confines b x Q) (hQ : ∀ a m, Q a m → Q' a m) : Confines b x Q' where
  run m h :=
    (hx.run m h).weaken (fun _ hs => hs) (fun a m' hs => ⟨hs.1, hQ a m' hs.2⟩) fun _ _ hs => hs

section Creating

theorem triple_createNode {F : FileError → Memory → Prop} (h : Fenced b m) (hk : b <+: k)
    (hpass : m.Passable k) (hfree : m.nodeAt k = none) (kind : NodeKind) (content : Content)
    (hlink : kind = .symlink → StaysBehind b k ⟨content.data⟩) :
    Triple (· = m) (createNode k kind content)
      (fun c m' => Within b m m' ∧ m'.nodeAt k = some ⟨kind, c⟩) F := by
  obtain ⟨m₁, hrun, hdirs, hextends, hfree₁, hwf⟩ :=
    createNode_eq h.wellFormed hpass hfree kind content
  have hgrows := grows_ensureDirs h.wellFormed.slots hdirs
  have habove := h.extend hextends hgrows (List.dropLast_prefix k) hk
  have hnew := habove.fenced.addNode hk hfree₁ hlink hwf
  rintro s rfl
  rw [hrun]
  refine ⟨habove.trans hnew, ?_⟩
  rw [hextends.wellFormed.nodeAt_addNode, if_pos rfl]

/-- A file that is found is where the path leads. -/
theorem nodeAt_of_fileAt_eq_ok (hfile : m.fileAt p o = .ok c) :
    ∃ k, m.resolve p true = .ok k ∧ m.nodeAt k = some ⟨.file, c⟩ := by
  obtain hfound | hexists | ⟨e, -, he⟩ := fileAt_cases m p o
  · cases hk : m.resolve p true with
    | error e =>
      rw [hfile, hk] at hfound
      cases hfound
    | ok k =>
      rw [hfile, hk] at hfound
      exact ⟨k, rfl, nodeAt_of_fileStored hfound.symm⟩
  · rw [hexists] at hfile
    cases hfile
  · rw [he] at hfile
    cases hfile

theorem holdsFile_of_fileAt (h : Fenced b m) (hfile : m.fileAt (ofNames (b ++ names)) o = .ok c) :
    HoldsFile b c m := by
  obtain ⟨k, hk, hnode⟩ := nodeAt_of_fileAt_eq_ok hfile
  exact ⟨k, starts_of_resolve h hk, hnode⟩

theorem confines_fileFor (names : Key) (o : OpenOptions) :
    Confines b (fileFor (ofNames (b ++ names)) o) (HoldsFile b) := by
  refine ⟨fun m h => ?_⟩
  refine triple_fileFor_of h.wellFormed
    (fun c hfile => ⟨Within.refl h, holdsFile_of_fileAt h hfile⟩) fun k hk hfree => ?_
  have hstarts := starts_of_resolve h hk
  have hcreate := triple_createNode (F := fun _ m' => m' = m) h hstarts
    (passable_of_resolve h.wellFormed hk) hfree .file ⟨[], o.mode &&& permissionMask⟩ nofun
  refine hcreate.weaken (fun s hs => hs) ?_ fun _ _ hs => hs
  intro c m' hm'
  exact ⟨hm'.1, k, hstarts, hm'.2⟩

theorem confines_openFile (names : Key) (o : OpenOptions) :
    Confines b (openFile (ofNames (b ++ names)) o) fun f => HoldsFile b f.handle.cell := by
  refine ⟨fun m h => triple_openFile_of ((confines_fileFor names o).run m h) ?_ ?_⟩
  · intro c hc
    exact ⟨Within.refl h, holdsFile_of_fileAt h hc⟩
  · rintro c s ⟨hs, k, hk, hnode⟩
    unfold emptied
    split
    · have howns := hs.fenced.wellFormed.owns hk hnode
      exact ⟨hs.trans (hs.fenced.modifyCell howns _), k, hk, hnode⟩
    · exact ⟨hs, k, hk, hnode⟩

theorem confines_createDirAll (names : Key) (mode : UInt32) :
    Confines b (createDirAll (ofNames (b ++ names)) mode) fun _ _ => True := by
  refine ⟨fun m h => ?_⟩
  unfold createDirAll
  apply Triple.query_bind
  · intro k hk
    apply Triple.look_bind
    have hcreate : (∀ n, m.nodeAt k = some n → n.isDir = true) →
        Triple (· = m) (ensureDirs k (mode &&& permissionMask))
          (fun _ m' => Within b m m' ∧ True) fun _ m' => m' = m := by
      intro hdir
      have henter := (passable_of_resolve h.wellFormed hk).enterable hdir
      obtain ⟨m', hrun, hextends, _⟩ := ensureDirs_eq h.wellFormed henter (mode &&& permissionMask)
      have hgrows := grows_ensureDirs h.wellFormed.slots hrun
      rintro s rfl
      rw [hrun]
      exact ⟨h.extend hextends hgrows List.prefix_rfl (starts_of_resolve h hk), trivial⟩
    cases hnode : m.nodeAt k with
    | none => exact hcreate fun n hn => by rw [hnode] at hn; cases hn
    | some n =>
      refine Triple.guarded_fixed fun hdir => hcreate ?_
      intro n' hn'
      rw [hnode] at hn'
      cases hn'
      simpa using hdir
  · intro e _
    rfl

/-- A link may be created if its target stays behind the fence wherever the link is. The
path of a relative one may not be that of the fenced place. -/
theorem confines_symlink {stored : Path}
    (hstored : ∀ k, (names ≠ [] → k ≠ b) → StaysBehind b k stored) :
    Confines b (symlink stored (ofNames (b ++ names))) fun _ _ => True := by
  refine ⟨fun m h => ?_⟩
  unfold symlink
  apply Triple.query_bind
  · intro k hk
    apply Triple.look_bind
    apply Triple.guarded_fixed
    intro hexists
    have hfree := h.wellFormed.free_of_not_exists hexists
    have hstays : StaysBehind b k stored := hstored k fun hne => ne_of_resolve h hne hk
    have hcreate := triple_createNode (F := fun _ m' => m' = m) h (starts_of_resolve h hk)
      (passable_of_resolve h.wellFormed hk) hfree .symlink ⟨stored.bytes, 0o777⟩ fun _ => hstays
    apply Triple.bind hcreate
    exact fun _ => Triple.pure fun s hs => ⟨hs.1, trivial⟩
  · intro e _
    rfl

end Creating

/-- The target of a link is what the node that the path leads to holds. -/
theorem nodeAt_of_readlink {target : Path} (hlink : m.readlink p = .ok target) :
    ∃ k c, m.resolve p false = .ok k ∧ m.nodeAt k = some ⟨.symlink, c⟩ ∧
      target = ⟨(m.content c).data⟩ := by
  unfold readlink at hlink
  cases hk : m.resolve p false with
  | error e =>
    rw [hk] at hlink
    cases hlink
  | ok k =>
    simp only [hk, bind, Except.bind] at hlink
    split at hlink
    · next c hnode =>
      cases hlink
      exact ⟨k, c, rfl, hnode, rfl⟩
    · cases hlink
    · split at hlink <;> cases hlink

section Moving

theorem confines_remove (names : Key) :
    Confines b (remove (ofNames (b ++ names))) fun _ _ => True := by
  refine ⟨fun m h => ?_⟩
  unfold remove
  apply Triple.query_bind
  · intro k hk
    apply Triple.guarded_fixed
    intro hne
    apply Triple.look_bind
    apply Triple.guarded_fixed
    intro _
    apply Triple.look_bind
    apply Triple.guarded_fixed
    intro _
    apply Triple.update
    rintro s rfl
    exact ⟨h.prune (starts_of_resolve h hk) hne, trivial⟩
  · intro e _
    rfl

theorem triple_relocate_within {F : FileError → Memory → Prop} (h : Fenced b m)
    (hpass : m.Passable target) (hsource : b <+: source) (htarget : b <+: target)
    (hfree : ∀ j, target <+: j → m.index.find? j = none) (hsource' : source ≠ [])
    (htarget' : target ≠ []) (hnot : ¬ source <+: target) :
    Triple (· = m) (relocate source target) (fun _ m' => Within b m m' ∧ True) F := by
  obtain ⟨m₁, hrun, hdirs, hextends, hstill, hwf⟩ :=
    relocate_eq h.wellFormed hpass hfree hsource' htarget' hnot
  have hgrows := grows_ensureDirs h.wellFormed.slots hdirs
  have habove := h.extend hextends hgrows (List.dropLast_prefix target) htarget
  rintro s rfl
  rw [hrun]
  exact ⟨habove.trans (habove.fenced.transplant hsource htarget hstill hwf), trivial⟩

theorem triple_replace_within {F : FileError → Memory → Prop} (h : Fenced b m)
    (hpass : m.Passable target) (hsource : b <+: source) (htarget : b <+: target)
    (hsource' : source ≠ []) (htarget' : target ≠ []) (hnot : ¬ source <+: target) :
    Triple (· = m) (replace source target) (fun _ m' => Within b m m' ∧ True) F := by
  have hprune := h.prune htarget htarget'
  have hrelocate := triple_relocate_within (F := F) hprune.fenced (hpass.prune h.wellFormed)
    hsource htarget (fun _ => h.wellFormed.find?_prune_eq_none) hsource' htarget' hnot
  apply Triple.bind_of_run (Action.update_apply _ m)
  refine hrelocate.weaken (fun _ hs => hs) ?_ fun _ _ hs => hs
  intro _ m' hm'
  exact ⟨hprune.trans hm'.1, trivial⟩

theorem confines_rename (names names' : Key) :
    Confines b (rename (ofNames (b ++ names)) (ofNames (b ++ names'))) fun _ _ => True := by
  refine ⟨fun m h => ?_⟩
  unfold rename
  apply Triple.query_bind
  · intro s hs
    apply Triple.query_bind
    · intro t ht
      have hsource := starts_of_resolve h hs
      have htarget := starts_of_resolve h ht
      have hpass := passable_of_resolve h.wellFormed ht
      refine Triple.guarded_fixed fun hroots => ?_
      have hsource' : s ≠ [] := fun heq => hroots (.inl heq)
      have htarget' : t ≠ [] := fun heq => hroots (.inr heq)
      refine Triple.look_bind (Triple.guarded_fixed fun _ => ?_)
      refine Triple.ite (fun _ => Triple.pure ?_) fun _ => ?_
      · rintro s rfl
        exact ⟨Within.refl h, trivial⟩
      refine Triple.guarded_fixed fun hstarts => ?_
      have hnot : ¬ s <+: t := fun hp => hstarts (List.isPrefixOf_iff_prefix.2 hp)
      refine Triple.look_bind (Triple.look_bind (Triple.ite (fun _ => ?_) fun hexists => ?_))
      · have hreplace := triple_replace_within h hpass hsource htarget hsource' htarget' hnot
          (F := fun _ m' => m' = m)
        refine Triple.look_bind (Triple.ite (fun _ => ?_) fun _ => ?_)
        · exact Triple.look_bind (Triple.guarded_fixed fun _ => hreplace)
        · refine Triple.ite (fun _ => Triple.throw_bind fun s hs => hs) fun _ => ?_
          exact Triple.guarded_fixed fun _ => hreplace
      · apply triple_relocate_within h hpass hsource htarget _ hsource' htarget' hnot
        exact fun j hj => h.wellFormed.find?_eq_none_of_prefix hexists hj
    · intro e _
      rfl
  · intro e _
    rfl

end Moving

end ConfinedFs.Memory
