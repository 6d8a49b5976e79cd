import ConfinedFs.Proofs.Layer.Boundary
import ConfinedFs.Proofs.Layer.WellNamed
import ConfinedFs.Proofs.Memory.FencedOperations

/-!
A jail over a tree in memory. Its check is lexical, so that a link may lead out once it
has been moved, and the top of the jail may itself become a link. As long as no relative
link goes up and none takes the place of the top, whole runs stay inside: outside of the
jail nothing changes, and nothing that is stored there is handed out.
-/

namespace ConfinedFs

open ConfinedFs.Bytes ConfinedFs.Path

variable {σ H ε α : Type} {base p : Path} {names : List Name}

namespace Operation

/-- Does a request store no relative link that goes up or that takes the place of the
top? The name of a temporary file may not start with the path of a directory. -/
def StaysDown : Operation H α → Prop
  | symlink target link =>
    target.isAbsolute = false → link.names ≠ [] ∧ .parent ∉ target.components
  | tempFile _ _ stem => slash ∉ stem
  | _ => True

end Operation

/-- What is done with a file stores no links. -/
def Turn.StaysDown : Turn H → Prop
  | ask op => op.StaysDown
  | pass | use _ _ => True

namespace Memory

open ConfinedFs.Action (Triple)

variable {b : Key}

theorem tempCandidate_ofNames (draws : Draws) {stem : Bytes} (h : slash ∉ stem) (names : Key)
    (i : Nat) : ∃ n, BareFileSystem.tempCandidate draws (ofNames names) stem i =
      ofNames (names ++ [n]) := by
  have hjoin : ∀ n : Name, (ofNames names).join ⟨n.bytes⟩ = ofNames (names ++ [n]) := by
    intro n
    have hstays : (below [n]).climbsOut = false := by
      rw [climbsOut, components_below [n] (List.cons_ne_nil _ _)]
      rfl
    have hbelow := join_clean_eq (isAbsolute_ofNames names) hstays
    rwa [clean_ofNames, clean_below, names_ofNames, names_below] at hbelow
  exact ⟨_, hjoin ⟨_, isName_temporaryName h (draws i)⟩⟩

theorem confines_openUnused {candidate : Nat → Path}
    (h : ∀ i, ∃ names, candidate i = ofNames (b ++ names)) (l : List Nat) :
    Confines b (bareFileSystem.openUnused candidate l) fun f => HoldsFile b f.handle.cell := by
  refine ⟨fun m hm => ?_⟩
  induction l with
  | nil => exact Triple.throw fun s hs => hs
  | cons i l ih =>
    obtain ⟨names, hnames⟩ := h i
    have hopen := (confines_openFile names .temporary).run m hm
    rw [← hnames] at hopen
    unfold BareFileSystem.openUnused
    refine Triple.bind (Triple.outcome hopen) fun r => ?_
    cases r with
    | ok f => exact Triple.pure fun s hs => hs
    | error e =>
      cases e with
      | alreadyExists => exact ih
      | _ => exact Triple.throw fun s hs => hs

theorem confines_tempFile (draws : Draws) (names : Key) {stem : Bytes} (h : slash ∉ stem) :
    Confines b (fileSystem.tempFile draws (ofNames (b ++ names)) stem) fun f =>
      HoldsFile b f.handle.cell := by
  simp only [fileSystem, BareFileSystem.unusedFile]
  generalize List.range BareFileSystem.temporaryAttempts = attempts
  apply confines_openUnused
  intro i
  obtain ⟨n, hn⟩ := tempCandidate_ofNames draws h (b ++ names) i
  exact ⟨names ++ [n], by rw [hn, List.append_assoc]⟩

end Memory

namespace Jail

open ConfinedFs.Memory (Confines Fenced HoldsFile Owns StaysBehind Within)

variable {m : Memory} {op : Operation Memory.Handle α}

theorem inside_eq (hbase : base.isAbsolute = true) (h : p.climbsOut = false) :
    inside base p = ofNames (base.names ++ p.names) :=
  join_clean_eq hbase h

/-- What a link of the jail is stored with stays behind the fence, wherever that link
is. -/
theorem staysBehind_stored (hbase : base.isAbsolute = true) {target link : Path}
    (hdown : target.isAbsolute = false → link.names ≠ [] ∧ .parent ∉ target.components)
    {k : Key} (hk : link.names ≠ [] → k ≠ base.names) :
    StaysBehind base.names k (if target.isAbsolute then inside base target else target) := by
  cases habsolute : target.isAbsolute with
  | true =>
    rw [if_pos rfl, inside_eq hbase (climbsOut_of_isAbsolute habsolute), StaysBehind,
      isAbsolute_ofNames, if_pos rfl]
    exact ⟨target.names, steps_ofNames _⟩
  | false =>
    obtain ⟨hne, hparent⟩ := hdown habsolute
    rw [if_neg Bool.false_ne_true, StaysBehind, habsolute, if_neg Bool.false_ne_true]
    exact ⟨hk hne, target.names, steps_eq_names hparent⟩

/-- Whatever a jail hands down stays behind the fence around its base. -/
theorem confines_handedDown (hbase : base.isAbsolute = true) (hcrosses : ¬ op.Crosses)
    (hdown : op.StaysDown) :
    Confines base.names (Memory.fileSystem.perform (op.handedDown base)) fun a m' =>
      ∀ f, op.opened a = some f → HoldsFile base.names f.handle.cell m' := by
  have hinside : ∀ p ∈ op.paths, inside base p = ofNames (base.names ++ p.names) :=
    fun p hp => inside_eq hbase (Operation.not_climbsOut_of_mem hcrosses hp)
  cases op with
  | openFile p o =>
    have hopen := Memory.confines_openFile (b := base.names) p.names o
    rw [← hinside p (List.mem_singleton_self p)] at hopen
    refine hopen.weaken ?_
    rintro f m' hfile g hg
    cases hg
    exact hfile
  | tempFile draws dir stem =>
    have hstem : slash ∉ stem := hdown
    have htemp := Memory.confines_tempFile (b := base.names) draws dir.names hstem
    rw [← hinside dir (List.mem_singleton_self dir)] at htemp
    refine htemp.weaken ?_
    rintro f m' hfile g hg
    cases hg
    exact hfile
  | stat p | lstat p | readDir p | readlink p =>
    exact (Confines.query _).weaken fun _ _ _ _ hf => nomatch hf
  | rename source target =>
    have hrename := Memory.confines_rename (b := base.names) source.names target.names
    rw [← hinside source (List.mem_cons_self ..),
      ← hinside target (List.mem_cons_of_mem source (List.mem_singleton_self target))] at hrename
    exact hrename.weaken fun _ _ _ _ hf => nomatch hf
  | remove p =>
    have hremove := Memory.confines_remove (b := base.names) p.names
    rw [← hinside p (List.mem_singleton_self p)] at hremove
    exact hremove.weaken fun _ _ _ _ hf => nomatch hf
  | createDirAll p mode =>
    have hcreate := Memory.confines_createDirAll (b := base.names) p.names mode
    rw [← hinside p (List.mem_singleton_self p)] at hcreate
    exact hcreate.weaken fun _ _ _ _ hf => nomatch hf
  | symlink target link =>
    have hsymlink := Memory.confines_symlink fun k hk => staysBehind_stored (k := k) hbase hdown hk
    rw [← hinside link (List.mem_singleton_self link)] at hsymlink
    exact hsymlink.weaken fun _ _ _ _ hf => nomatch hf

/-- The file in an answer of the jail is the one in the answer below. -/
theorem opened_shown {a a' : α} {f : OpenFile Memory.Handle} (ha : op.shown base a = .ok a')
    (hf : op.opened a' = some f) : ∃ g, op.opened a = some g ∧ f.handle = g.handle := by
  cases op with
  | openFile p o | tempFile draws dir stem =>
    cases ha
    cases hf
    exact ⟨a, rfl, rfl⟩
  | _ => cases hf

/-- A request to the jail stays behind the fence around its base, and a file that it
hands out is one there. -/
theorem within_perform (hbase : base.isAbsolute = true) (hdown : op.StaysDown)
    (h : Fenced base.names m) :
    let fs := (confine Memory.fileSystem base).fileSystem
    Within base.names m (fs.perform op m).2 ∧
      ∀ a f, (fs.perform op m).1 = .ok a → op.opened a = some f →
        HoldsFile base.names f.handle.cell (fs.perform op m).2 := by
  intro fs
  by_cases hcrosses : op.Crosses
  · have hrefused : fs.perform op m = (.error .crossedBoundary, m) := by
      rw [perform_of_crosses hcrosses, Action.throw_apply]
    rw [hrefused]
    exact ⟨Within.refl h, nofun⟩
  · have hconfines := confines_handedDown hbase hcrosses hdown
    have hwithin := hconfines.within h
    have hperform : fs.perform op = (do
        let answer ← Memory.fileSystem.perform (op.handedDown base)
        Action.ofExcept (op.shown base answer)) := perform_of_not_crosses hcrosses
    rw [hperform]
    cases hrun : Memory.fileSystem.perform (op.handedDown base) m with
    | mk r m' =>
      rw [hrun] at hwithin
      cases r with
      | error e =>
        rw [Action.bind_apply_of_error hrun]
        exact ⟨hwithin, nofun⟩
      | ok answer =>
        rw [Action.bind_apply_of_ok hrun, Action.ofExcept_apply]
        refine ⟨hwithin, ?_⟩
        intro a f ha hf
        obtain ⟨g, hg, hhandle⟩ := opened_shown ha hf
        rw [hhandle]
        exact ((hconfines.run m h).of_ok rfl hrun).2 g hg

/-- A step of a dialog with the jail, in which every file has a cell that nothing outside
of the jail has. -/
theorem holds_step (hbase : base.isAbsolute = true) {d : Dialog Memory Memory.Handle}
    (hd : d.Holds (Within base.names m) fun s h => Owns base.names s h.cell)
    {t : Turn Memory.Handle} (ht : t.StaysDown) :
    (d.step (confine Memory.fileSystem base).fileSystem t).Holds (Within base.names m)
      fun s h => Owns base.names s h.cell := by
  apply hd.step
  · rintro α op rfl s hs
    obtain ⟨hwithin, hopened⟩ := within_perform hbase ht hs.fenced
    refine ⟨⟨hs.trans hwithin, fun _ howns => howns.within hwithin⟩, ?_⟩
    intro a f ha hf
    obtain ⟨k, hk, hnode⟩ := hopened a f ha hf
    exact hwithin.fenced.wellFormed.owns hk hnode
  · intro ε α op name k s hs howns
    have hstable := Memory.stable_within base.names s k.cell
    have hkept := (hstable.keeps_onDevice op name).apply (s := (k, s))
      ⟨Within.refl hs.fenced, howns, rfl⟩
    exact ⟨⟨hs.trans hkept.1, fun _ hother => hother.within hkept.1⟩, hkept.2.1⟩

/-- What a path of the jail shows is a link behind the fence. -/
theorem link_of_readlink (hbase : base.isAbsolute = true) (h : Fenced base.names m)
    {target : Path}
    (hread : ((confine Memory.fileSystem base).fileSystem.perform (.readlink p) m).1 = .ok target) :
    ∃ k c, base.names <+: k ∧ m.nodeAt k = some ⟨.symlink, c⟩ ∧
      shownTarget base.clean ⟨(m.content c).data⟩ = .ok target := by
  by_cases hcrosses : (Operation.readlink (H := Memory.Handle) p).Crosses
  · rw [perform_of_crosses hcrosses] at hread
    cases hread
  · have hinside := inside_eq hbase
      (Operation.not_climbsOut_of_mem hcrosses (List.mem_singleton_self p))
    rw [perform_of_not_crosses hcrosses] at hread
    have hbelow : Memory.fileSystem.perform ((Operation.readlink p).handedDown base) m =
        (m.readlink (inside base p), m) := rfl
    cases hlink : m.readlink (inside base p) with
    | error e =>
      rw [hlink] at hbelow
      rw [Action.bind_apply_of_error hbelow] at hread
      cases hread
    | ok stored =>
      rw [hlink] at hbelow
      rw [Action.bind_apply_of_ok hbelow, Action.ofExcept_apply] at hread
      obtain ⟨k, c, hk, hnode, rfl⟩ := Memory.nodeAt_of_readlink hlink
      rw [hinside] at hk
      exact ⟨k, c, Memory.starts_of_resolve h hk, hnode, hread⟩

/-- A dialog with a jail over a tree in memory that holds no links and has a directory at
the base. If no relative link that goes up is stored, and none in the place of the top,
then at any time nothing that is neither the base nor below it has been created, removed,
replaced by another node or changed in what it holds; a file that is opened is one below
the base; no file that has been handed out shares its content with anything outside; and
the target of a link is that of one at or below the base. -/
theorem run_fenced (h : m.WellFormed) (hlinks : ∀ k c, m.nodeAt k ≠ some ⟨.symlink, c⟩)
    (hbase : base.isAbsolute = true)
    (hdir : ∃ n, m.nodeAt base.names = some n ∧ n.isDir = true) (turns : List (Turn Memory.Handle))
    (hturns : ∀ t ∈ turns, t.StaysDown) :
    let fs := (confine Memory.fileSystem base).fileSystem
    let d := Dialog.run fs { state := m } turns
    (∀ k, ¬ base.names <+: k → d.state.nodeAt k = m.nodeAt k ∧
      ∀ n, m.nodeAt k = some n → d.state.content n.cell = m.content n.cell) ∧
    (∀ p o f, d.answer fs (.openFile p o) = .ok f → ∃ k, base.names <+: k ∧
      (fs.perform (.openFile p o) d.state).2.nodeAt k = some ⟨.file, f.handle.cell⟩) ∧
    (∀ i f, d.files i = some f → ∀ k n, ¬ base.names <+: k → d.state.nodeAt k = some n →
      n.cell ≠ f.handle.cell) ∧
    ∀ p target, d.answer fs (.readlink p) = .ok target → ∃ k c, base.names <+: k ∧
      d.state.nodeAt k = some ⟨.symlink, c⟩ ∧
      shownTarget base.clean ⟨(d.state.content c).data⟩ = .ok target := by
  intro fs d
  obtain ⟨n, hn, _⟩ := hdir
  have hstart : Fenced base.names m :=
    ⟨h, h.parented_of_nodeAt hn, fun hlink => absurd hlink (hlinks _ _)⟩
  have hd : d.Holds (Within base.names m) fun s h => Owns base.names s h.cell :=
    Dialog.run_keeps ⟨Within.refl hstart, nofun⟩ fun t ht _ hd => holds_step hbase hd (hturns t ht)
  refine ⟨?_, ?_, ?_, ?_⟩
  · intro k hk
    exact ⟨hd.state.outside k hk, fun n hn => hd.state.contents k n hk hn⟩
  · intro p o f hf
    have hdown : (Operation.openFile (H := Memory.Handle) p o).StaysDown := trivial
    exact (within_perform hbase hdown hd.state.fenced).2 f f hf rfl
  · intro i f hf k n hk hnode heq
    exact hk ((hd.files i f hf).node hnode heq).1
  · intro p target htarget
    exact link_of_readlink hbase hd.state.fenced htarget

section Scene

private def jailed : Name := ⟨[100], by decide⟩

private def secret : Name := ⟨[107], by decide⟩

/-- A tree with a directory for a jail and an empty file beside it. -/
private def scene : Memory :=
  let made := (Memory.createDirAll (ofNames [jailed]) 0o755 .fresh).2
  (Memory.openFile (ofNames [secret]) .creating made).2

private theorem wellFormed_scene : scene.WellFormed := by
  have hmade := (Memory.atomic_createDirAll (ofNames [jailed]) 0o755).wellFormed
    Memory.wellFormed_fresh
  exact (Memory.atomic_openFile (ofNames [secret]) .creating).wellFormed hmade

private theorem nodeAt_scene (k : Key) (c : CellId) :
    scene.nodeAt k ≠ some ⟨.symlink, c⟩ := by
  have hslots : ∀ x ∈ scene.nodes.slots, x.all fun n => n.kind ≠ .symlink := by decide
  intro hnode
  obtain ⟨i, _, hi⟩ := Memory.nodeAt_eq_some_iff.1 hnode
  have hmem := List.mem_of_getElem? (Option.join_eq_some_iff.1 hi)
  exact absurd (hslots _ hmem) (by simp)

/-- A link to the top of the jail, made in a directory and moved up, and a file created
and written by way of the link. -/
private def stayingLink : List (Turn Memory.Handle) :=
  [.ask (.symlink Path.top ⟨[97, 47, 108]⟩), .ask (.rename ⟨[97, 47, 108]⟩ ⟨[108]⟩),
    .ask (.openFile ⟨[108, 47, 107]⟩ .creating), .use 2 (.write [42])]

private theorem staysDown_stayingLink : ∀ t ∈ stayingLink, t.StaysDown := by
  simp [stayingLink, Turn.StaysDown, Operation.StaysDown, Path.top, Path.isAbsolute]

/-- An absolute link may be moved and followed. -/
theorem run_fenced_absolute_link :
    (scene.WellFormed ∧ (∀ k c, scene.nodeAt k ≠ some ⟨.symlink, c⟩) ∧
        (ofNames [jailed]).isAbsolute = true ∧
        (∃ n, scene.nodeAt (ofNames [jailed]).names = some n ∧ n.isDir = true) ∧
        ∀ t ∈ stayingLink, t.StaysDown) ∧
      let d := Dialog.run (confine Memory.fileSystem (ofNames [jailed])).fileSystem
        { state := scene } stayingLink
      d.state.nodeAt [secret] = scene.nodeAt [secret] ∧
        ∃ f, d.files 2 = some f ∧ d.state.nodeAt [jailed, secret] = some ⟨.file, f.handle.cell⟩ := by
  have hdir : ∃ n, scene.nodeAt (ofNames [jailed]).names = some n ∧ n.isDir = true :=
    ⟨⟨.directory, 1⟩, by decide, rfl⟩
  have hrun := run_fenced wellFormed_scene nodeAt_scene (isAbsolute_ofNames [jailed]) hdir
    stayingLink staysDown_stayingLink
  refine ⟨⟨wellFormed_scene, nodeAt_scene, isAbsolute_ofNames _, hdir, staysDown_stayingLink⟩,
    (hrun.1 [secret] (by decide)).1, ?_⟩
  exact ⟨_, rfl, by decide⟩

/-- A link to a file beside the jail, made in a directory of the jail and moved up, and
the file opened under the name of the link and written to. -/
private def movingLink : List (Turn Memory.Handle) :=
  [.ask (.symlink ⟨[46, 46, 47, 107]⟩ ⟨[97, 47, 108]⟩), .ask (.rename ⟨[97, 47, 108]⟩ ⟨[108]⟩),
    .ask (.openFile ⟨[108]⟩ .replacing), .use 2 (.write [42])]

/-- The top of the jail replaced by a link to a file beside it, and the file opened and
written to. -/
private def replacingTop : List (Turn Memory.Handle) :=
  [.ask (.remove Path.top), .ask (.symlink ⟨[107]⟩ Path.top),
    .ask (.openFile Path.top .replacing), .use 2 (.write [42])]

/-- A relative link that goes up leads out of the jail once it has been moved, and so does
one that takes the place of the top: a file beside the jail is written. -/
theorem run_leads_out :
    (scene.WellFormed ∧ (∀ k c, scene.nodeAt k ≠ some ⟨.symlink, c⟩) ∧
        (ofNames [jailed]).isAbsolute = true ∧
        ∃ n, scene.nodeAt (ofNames [jailed]).names = some n ∧ n.isDir = true) ∧
      ¬ (ofNames [jailed]).names <+: [secret] ∧
      ∀ turns ∈ [movingLink, replacingTop], ∃ n, scene.nodeAt [secret] = some n ∧
        (Dialog.run (confine Memory.fileSystem (ofNames [jailed])).fileSystem { state := scene }
          turns).state.content n.cell ≠ scene.content n.cell := by
  refine ⟨⟨wellFormed_scene, nodeAt_scene, rfl, ⟨.directory, 1⟩, by decide, rfl⟩, by decide, ?_⟩
  intro turns hturns
  refine ⟨⟨.file, 2⟩, by decide, ?_⟩
  rcases List.mem_cons.1 hturns with rfl | hturns
  · decide
  · rw [List.mem_singleton.1 hturns]
    decide

end Scene

end Jail

end ConfinedFs
