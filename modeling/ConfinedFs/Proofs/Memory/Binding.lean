import ConfinedFs.Proofs.Memory.Answers

/-!
What open files in memory are bound to. A handle belongs to the file it was opened on,
told by its cell, wherever the file is moved and after it has been removed. What is read
through it is the outcome of the changes made through the handles of that file and of the
requests that emptied it. A file that has lost its place is not found again, and none that
is created later has anything to do with it.
-/

namespace ConfinedFs

open ConfinedFs.Action (Keeps Triple)

variable {α ε : Type}

namespace Dialog

open ConfinedFs.Memory (Evolves Handle Linked Owns answered_perform content_edited fileSystem)

variable {d : Dialog Memory Handle} {c : CellId} {t : Turn Handle} {turns : List (Turn Handle)}

/-- The change that a call makes to the data of a file, told by its cell: what is done with
a handle of the file, or that a request empties the file that its path leads to. A call that
fails makes none. -/
def edit (d : Dialog Memory Handle) (c : CellId) : Turn Handle → Option Edit
  | .pass => none
  | .ask op => if op.empties d.state c && (d.answer fileSystem op).isOk then some .clear else none
  | .use i op => (d.files i).bind fun f =>
    if f.handle.cell = c ∧ (OpenFile.perform op (f, d.state)).1.isOk then op.edit f.handle else none

/-- The changes that calls make to the data of a file, in order. -/
def history (c : CellId) (d : Dialog Memory Handle) : List (Turn Handle) → List Edit
  | [] => []
  | t :: turns => (d.edit c t).toList ++ history c (d.step fileSystem t) turns

/-- The data of a file in the state that has been reached. -/
def data (d : Dialog Memory Handle) (c : CellId) : Bytes := (d.state.content c).data

/-- The tree is well-formed and every handle is on a file. -/
def Sound (d : Dialog Memory Handle) : Prop := d.Holds Memory.WellFormed fun m h => Owns [] m h.cell

theorem Sound.step (h : d.Sound) (t : Turn Handle) : (d.step fileSystem t).Sound := by
  apply Holds.step h t
  · intro α op _ m hm
    have hanswered := answered_perform hm op
    refine ⟨⟨hanswered.evolves.wellFormed, fun k hk => hk.evolves hanswered.evolves⟩, ?_⟩
    intro a f ha hf
    obtain ⟨k, hnode⟩ := hanswered.opened a f ha hf
    exact hanswered.evolves.wellFormed.owns List.nil_prefix hnode
  · intro ε α op name k m hm hk
    have hkept := ((Memory.stable_evolves m k.cell).keeps_onDevice op name).apply
      (s := (k, m)) ⟨Evolves.refl hm, rfl⟩
    refine ⟨⟨hkept.1.wellFormed, fun k' hk' => hk'.evolves hkept.1⟩, ?_⟩
    rw [hkept.2]
    exact hk.evolves hkept.1

theorem Sound.run (h : d.Sound) (turns : List (Turn Handle)) : (d.run fileSystem turns).Sound :=
  run_keeps h fun t _ _ hd => hd.step t

/-- Using a file makes the change that it makes in the cell of the file, and nothing else. -/
theorem state_use {i : Nat} {f : OpenFile Handle} (hf : d.files i = some f)
    (op : FileOperation ε α) :
    (d.step fileSystem (.use i op)).state =
      (d.edit f.handle.cell (.use i op)).elim d.state (d.state.edited f.handle.cell) := by
  have hrun := Handle.triple_onDevice (h := f.handle) (m := d.state) op f.name _ rfl
  rw [state_step_use hf, edit, hf, Option.bind_some, OpenFile.perform_apply]
  cases hdone : op.onDevice f.name (f.handle, d.state) with
  | mk r s =>
    rw [hdone] at hrun
    cases r with
    | error e =>
      rw [if_neg nofun]
      exact hrun
    | ok a =>
      rw [if_pos ⟨rfl, rfl⟩]
      exact hrun

theorem evolves_step (h : d.Sound) (t : Turn Handle) :
    Evolves d.state (d.step fileSystem t).state := by
  cases t with
  | pass => exact Evolves.refl h.state
  | ask op => exact (answered_perform h.state op).evolves
  | use i op =>
    cases hf : d.files i with
    | none =>
      rw [Dialog.step, hf]
      exact Evolves.refl h.state
    | some f =>
      rw [state_use hf]
      cases d.edit f.handle.cell (.use i op) with
      | none => exact Evolves.refl h.state
      | some e => exact (Evolves.refl h.state).modifyCell _ _

/-- A call makes the change to the data of a file that it is said to make. -/
theorem data_step (h : d.Sound) (hc : c < d.state.cells.length) (t : Turn Handle) :
    (d.step fileSystem t).data c = Edit.applyAll (d.edit c t).toList (d.data c) := by
  cases t with
  | pass => rfl
  | ask op =>
    refine ((answered_perform h.state op).data c hc).trans ?_
    rw [edit, answer]
    split <;> rfl
  | use i op =>
    cases hf : d.files i with
    | none =>
      rw [Dialog.step, edit, hf]
      rfl
    | some f =>
      by_cases hcell : f.handle.cell = c
      · subst hcell
        rw [data, state_use hf]
        cases d.edit f.handle.cell (.use i op) with
        | none => rfl
        | some e => exact content_edited hc e
      · have hother : d.edit c (.use i op) = none := by
          rw [edit, hf, Option.bind_some, if_neg fun hboth => hcell hboth.1]
        rw [hother, data, state_use hf]
        cases d.edit f.handle.cell (.use i op) with
        | none => rfl
        | some e => exact congrArg Content.data (Memory.content_modifyCell_of_ne (Ne.symm hcell) _ _)

/-- The data of a file is the outcome of the changes that have been made to it. The induction
is on the calls; a cell that is there stays there. -/
theorem data_run (h : d.Sound) (hc : c < d.state.cells.length) (turns : List (Turn Handle)) :
    (d.run fileSystem turns).data c = Edit.applyAll (d.history c turns) (d.data c) := by
  induction turns generalizing d with
  | nil => rfl
  | cons t turns ih =>
    have hnext := ih (h.step t) (Nat.lt_of_lt_of_le hc (evolves_step h t).cells)
    rw [data_step h hc] at hnext
    rw [history, Edit.applyAll, List.foldl_append]
    exact hnext

/-- The call takes a node away from its place: the place is removed, or a rename puts another
node there. -/
inductive Takes (d : Dialog Memory Handle) (c : CellId) : Turn Handle → Prop
  | remove {p : Path} {k : Key} {kind : NodeKind} (hk : d.state.resolve p false = .ok k)
      (hnode : d.state.nodeAt k = some ⟨kind, c⟩)
      (hdone : d.answer fileSystem (.remove p) = .ok ()) : Takes d c (.ask (.remove p))
  | rename {source target : Path} {j k : Key} {kind : NodeKind}
      (hj : d.state.resolve source false = .ok j) (hk : d.state.resolve target false = .ok k)
      (hne : j ≠ k) (hnode : d.state.nodeAt k = some ⟨kind, c⟩)
      (hdone : d.answer fileSystem (.rename source target) = .ok ()) :
      Takes d c (.ask (.rename source target))

/-- A node that has been taken away has no place any more. -/
theorem Takes.not_linked (htakes : d.Takes c t) (h : d.Sound) :
    ¬ (d.step fileSystem t).state.Linked c := by
  cases htakes with
  | @remove p k kind hk hnode hdone =>
    have hrun : Memory.remove p d.state = (.ok (), (d.step fileSystem (.ask (.remove p))).state) :=
      Prod.ext hdone rfl
    obtain ⟨k', hk', hstate⟩ := (Memory.triple_remove p).of_ok rfl hrun
    rw [hk] at hk'
    cases hk'
    rw [hstate]
    exact Memory.not_linked_prune h.state hnode
  | @rename source target j k kind hj hk hne hnode hdone =>
    have hrun : Memory.rename source target d.state =
        (.ok (), (d.step fileSystem (.ask (.rename source target))).state) := Prod.ext hdone rfl
    obtain ⟨j', k', hj', hk', hrenamed⟩ :=
      (Memory.triple_rename h.state.slots source target).of_ok rfl hrun
    rw [hj] at hj'
    cases hj'
    rw [hk] at hk'
    cases hk'
    have hpruned := h.state.prune hrenamed.ne_top
    have hgrows := hrenamed.replaced hne (h.state.exists?_iff.2 ⟨_, hnode⟩)
    have hevolves := hgrows.evolves hpruned (h.step _).state
    have hlt : c < (d.state.prune k).cells.length := by
      rw [Memory.prune, Memory.cells_foldl_dropEntry]
      exact h.state.cell_lt_of_nodeAt hnode
    intro hlinked
    exact Memory.not_linked_prune h.state hnode (hlinked.of_evolves hevolves hlt)

/-- The cell was that of a node that has no place any more, and the files of the calls from
the given number on are on other cells. -/
structure Gone (n : Nat) (c : CellId) (d : Dialog Memory Handle) : Prop where
  lt : c < d.state.cells.length
  not_linked : ¬ d.state.Linked c
  files : ∀ i f, n ≤ i → d.files i = some f → f.handle.cell ≠ c

theorem Takes.gone (htakes : d.Takes c t) (h : d.Sound) (hnumbered : d.Numbered) :
    (d.step fileSystem t).Gone d.calls c := by
  refine ⟨?_, htakes.not_linked h, fun i g hi => ?_⟩
  · have hlt : c < d.state.cells.length := by
      cases htakes with
      | remove _ hnode _ => exact h.state.cell_lt_of_nodeAt hnode
      | rename _ _ _ hnode _ => exact h.state.cell_lt_of_nodeAt hnode
    exact Nat.lt_of_lt_of_le hlt (evolves_step h t).cells
  · -- No file is handed out, and the earlier ones have lower numbers.
    refine files_step (P := fun _ => False) (Q := fun k => k.cell ≠ c)
      (fun f hf => Nat.not_lt.2 hi (hnumbered i f hf)) (fun _ hk => hk.elim) ?_ ?_ g
    · rintro α op rfl a f _ hopened
      cases htakes <;> cases hopened
    · rintro ε α op rfl f hf
      cases htakes

theorem Gone.step {n : Nat} (hgone : d.Gone n c) (h : d.Sound) (t : Turn Handle) :
    (d.step fileSystem t).Gone n c := by
  have hevolves := evolves_step h t
  have hnot : ¬ (d.step fileSystem t).state.Linked c :=
    fun hlinked => hgone.not_linked (hlinked.of_evolves hevolves hgone.lt)
  refine ⟨Nat.lt_of_lt_of_le hgone.lt hevolves.cells, hnot, fun i g hi => ?_⟩
  refine files_step (P := fun k => k.cell ≠ c) (fun f => hgone.files i f hi) (fun _ hk => hk)
    ?_ ?_ g
  · rintro α op rfl a f ha hf hcell
    obtain ⟨k, hnode⟩ := (answered_perform h.state op).opened a f ha hf
    exact hnot ⟨k, _, hnode, hcell⟩
  · rintro ε α op - f hf
    have hsame := ((Handle.stable_sameFile f.handle).keeps_onDevice op f.name).apply
      (s := (f.handle, d.state)) (Handle.SameFile.refl _)
    rw [hsame.cell]
    exact hgone.files i f hi hf

theorem Gone.run {n : Nat} (hgone : d.Gone n c) (h : d.Sound) (turns : List (Turn Handle)) :
    (d.run fileSystem turns).Gone n c := by
  have hboth : (d.run fileSystem turns).Gone n c ∧ (d.run fileSystem turns).Sound :=
    run_keeps (I := fun d => d.Gone n c ∧ d.Sound) ⟨hgone, h⟩
      fun t _ _ hd => ⟨hd.1.step hd.2 t, hd.2.step t⟩
  exact hboth.1

section Observing

/-- What is shown through an open file that holds the data. A handle that may not read is
shown the length. -/
structure Shows (d : Dialog Memory Handle) (i : Nat) (h : Handle) (data : Bytes) : Prop where
  metadata : ∃ info, d.fileAnswer i .metadata = some (.ok info) ∧ info.len = data.length
  readAt : h.readable = true → ∀ n offset,
    d.fileAnswer i (.readAt n offset) = some (.ok (Bytes.slice offset n data))
  read : h.readable = true → ∀ n,
    d.fileAnswer i (.read n) = some (.ok (Bytes.slice h.cursor n data))
  readToEnd : h.readable = true → d.fileAnswer i .readToEnd = some (.ok (data.drop h.cursor))

/-- An open file shows what its cell holds. -/
theorem shows_data {i : Nat} {f : OpenFile Handle} (hf : d.files i = some f)
    (hopen : f.handle.closed = false) : d.Shows i f.handle (d.data f.handle.cell) := by
  have hanswer : ∀ {ε α : Type} (op : FileOperation ε α),
      d.fileAnswer i op = some (op.onDevice f.name (f.handle, d.state)).1 := by
    intro ε α op
    rw [fileAnswer, hf, Option.map_some, OpenFile.perform_apply]
  have hread : ∀ {α : Type} {op : FileOperation IoError α}
      {x : Action FileError (Handle × Memory) α} {a : α} {s : Handle × Memory},
      op.onDevice f.name = x.mapError .filesystem → x (f.handle, d.state) = (.ok a, s) →
      d.fileAnswer i op = some (.ok a) := by
    intro α op x a s hop hrun
    rw [hanswer, hop, Action.mapError_apply, hrun]
    rfl
  constructor
  case metadata =>
    have hinfo := Handle.metadata_apply (m := d.state) hopen f.name
    exact ⟨_, (hanswer .metadata).trans (congrArg (some ∘ Prod.fst) hinfo), rfl⟩
  case readAt =>
    intro hreadable n offset
    have hfound := Handle.readAt_apply (m := d.state) hopen hreadable n offset
    exact (hanswer _).trans (congrArg (some ∘ Prod.fst) hfound)
  case read => exact fun hreadable n => hread rfl (Handle.read_apply hopen hreadable n)
  case readToEnd => exact fun hreadable => hread rfl (Handle.readRest_apply hopen hreadable)

end Observing

/-- The file of a call is on the same file for good. -/
theorem sameFile_run (hd : d.Numbered) {i : Nat} {f : OpenFile Handle} (hf : d.files i = some f)
    (turns : List (Turn Handle)) : ∃ f', (d.run fileSystem turns).files i = some f' ∧
      Handle.SameFile f.handle f'.handle := by
  have hlast : (d.run fileSystem turns).HasFile (Handle.SameFile f.handle) i := by
    refine run_keeps ⟨hd i f hf, f, hf, Handle.SameFile.refl _⟩ fun t _ d' h => h.step ?_ t
    intro ε α op name k m hk
    have hsame := ((Handle.stable_sameFile k).keeps_onDevice op name).apply
      (s := (k, m)) (Handle.SameFile.refl k)
    exact hk.trans hsame
  exact hlast.2

/-- What a request opens is a file that is found where the path leads, or a new and empty one
that nothing else refers to. -/
theorem opened_file (h : d.Sound) {p : Path} {o : OpenOptions} {f : OpenFile Handle}
    (hopened : d.answer fileSystem (.openFile p o) = .ok f) :
    let d' := d.step fileSystem (.ask (.openFile p o))
    (∃ k, d.state.resolve p true = .ok k ∧ d'.state.nodeAt k = some ⟨.file, f.handle.cell⟩) ∧
    (d.state.fileOf p = some f.handle.cell ∨
      d.state.fileOf p = none ∧ ¬ d.state.Linked f.handle.cell ∧
      (∀ i g, d.files i = some g → g.handle.cell ≠ f.handle.cell) ∧
      d'.data f.handle.cell = []) := by
  intro d'
  have hrun : Memory.openFile p o d.state = (.ok f, d'.state) := Prod.ext hopened rfl
  obtain ⟨m₁, hfound, hstate⟩ := (Memory.triple_openFile h.state p o).of_ok rfl hrun
  obtain ⟨k, hk, hnode⟩ := hfound.place
  have hnode' : d'.state.nodeAt k = some ⟨.file, f.handle.cell⟩ := by
    rw [hstate, Memory.nodeAt_emptied, hnode]
  refine ⟨⟨k, hk, hnode'⟩, ?_⟩
  rcases hfound.cell with hold | ⟨hnone, hnew, hempty⟩
  · exact .inl hold
  · refine .inr ⟨hnone, ?_, ?_, ?_⟩
    · rintro ⟨j, n, hn, hcell⟩
      have hlt := h.state.cell_lt_of_nodeAt hn
      rw [hcell] at hlt
      exact Nat.not_lt.2 hnew hlt
    · intro i g hg hcell
      have hlt := (h.files i g hg).lt
      rw [hcell] at hlt
      exact Nat.not_lt.2 hnew hlt
    · rw [data, hstate, Memory.data_emptied (hfound.wellFormed.cell_lt_of_nodeAt hnode), hempty,
        ite_self]

/-- A call to an open file is seen behind the paths that lead to the file, and nowhere
else. -/
theorem use_seen (h : d.Sound) {i : Nat} {f : OpenFile Handle} (hf : d.files i = some f)
    (op : FileOperation ε α) :
    let d' := d.step fileSystem (.use i op)
    let written := Edit.applyAll (d.edit f.handle.cell (.use i op)).toList (d.data f.handle.cell)
    (∀ k, d'.state.nodeAt k = d.state.nodeAt k) ∧
    (∀ c, c ≠ f.handle.cell → d'.state.content c = d.state.content c) ∧
    ∀ q, d'.state.fileOf q = d.state.fileOf q ∧
      (d.state.fileOf q = some f.handle.cell →
        (fileSystem.contents q d'.state).1 = .ok written ∧
        ∃ info, d'.answer fileSystem (.stat q) = .ok info ∧ info.len = written.length) ∧
      (d.state.fileOf q ≠ some f.handle.cell →
        (fileSystem.contents q d'.state).1 = (fileSystem.contents q d.state).1 ∧
        d'.answer fileSystem (.stat q) = d.answer fileSystem (.stat q)) := by
  intro d' written
  have howns := h.files i f hf
  have hwritten : d'.data f.handle.cell = written := data_step h howns.lt _
  obtain ⟨change, hchange⟩ :
      ∃ change, d'.state = d.state.modifyCell f.handle.cell change := by
    have huse : d'.state = _ := state_use hf op
    cases hedit : d.edit f.handle.cell (.use i op) with
    | none =>
      rw [hedit] at huse
      exact ⟨id, huse.trans (Memory.modifyCell_id ..).symm⟩
    | some e =>
      rw [hedit] at huse
      exact ⟨_, huse⟩
  have hfileOf : ∀ q, d'.state.fileOf q = d.state.fileOf q := fun q => by
    rw [hchange, Memory.fileOf_modifyCell howns.noLink]
  refine ⟨fun k => by rw [hchange]; rfl, fun c hc => ?_, fun q => ⟨hfileOf q, ?_, ?_⟩⟩
  · rw [hchange, Memory.content_modifyCell_of_ne hc]
  · intro hq
    have hq' := (hfileOf q).trans hq
    rw [← hwritten]
    exact ⟨Memory.contents_of_fileOf hq', _, Memory.stat_of_fileOf hq', rfl⟩
  · intro hq
    rw [hchange]
    refine ⟨Memory.contents_modifyCell_of_ne howns hq change, ?_⟩
    show d'.state.stat q = d.state.stat q
    rw [hchange, Memory.stat_modifyCell_of_ne howns hq]

end Dialog

section Fresh

open ConfinedFs.Memory (Handle fileSystem)

/-- The dialog after calls from a tree with nothing but its top. -/
theorem sound_run_fresh (turns : List (Turn Handle)) :
    (Dialog.run fileSystem { state := .fresh } turns).Sound := by
  have hstart : ({ state := .fresh } : Dialog Memory Handle).Sound :=
    ⟨Memory.wellFormed_fresh, fun _ _ hf => nomatch hf⟩
  exact hstart.run turns

theorem numbered_run_fresh (turns : List (Turn Handle)) :
    (Dialog.run fileSystem { state := .fresh } turns).Numbered := by
  have hnone : ({ state := .fresh } : Dialog Memory Handle).Numbered := fun _ _ hf => nomatch hf
  exact Dialog.run_keeps hnone fun t _ _ hd => hd.step t

/-- After any calls: a node is told by its cell, which no other one has. A file that has been
opened is on the same node for good, and it shows what came of the changes made through the
files on that node and of the requests that emptied it, whatever else is done. What a request
opens is on the node that its path leads to, or on a new and empty one. A node that is taken
away from its place never gets one again, and what is opened later is on other nodes. A call
to a file is seen behind the paths that lead to its node, and nothing else is changed by it. -/
theorem run_bound_to_nodes (before turns : List (Turn Handle)) :
    let d := Dialog.run fileSystem { state := .fresh } before
    let last := d.run fileSystem turns
    (∀ j k n n', d.state.nodeAt j = some n → d.state.nodeAt k = some n' → n.cell = n'.cell → j = k) ∧
    (∀ i f, d.files i = some f → ∃ f', last.files i = some f' ∧
      Handle.SameFile f.handle f'.handle ∧
      (f'.handle.closed = false → last.Shows i f'.handle
        (Edit.applyAll (d.history f.handle.cell turns) (d.data f.handle.cell)))) ∧
    (∀ p o f, d.answer fileSystem (.openFile p o) = .ok f →
      let d' := d.step fileSystem (.ask (.openFile p o))
      d'.files d.calls = some f ∧
      (∃ k, d.state.resolve p true = .ok k ∧ d'.state.nodeAt k = some ⟨.file, f.handle.cell⟩) ∧
      (d.state.fileOf p = some f.handle.cell ∨
        d.state.fileOf p = none ∧ ¬ d.state.Linked f.handle.cell ∧
        (∀ i g, d.files i = some g → g.handle.cell ≠ f.handle.cell) ∧
        d'.data f.handle.cell = [])) ∧
    (∀ c t, d.Takes c t →
      let last := (d.step fileSystem t).run fileSystem turns
      ¬ last.state.Linked c ∧ (∀ q, last.state.fileOf q ≠ some c) ∧
      ∀ i f, d.calls ≤ i → last.files i = some f → f.handle.cell ≠ c) ∧
    ∀ {ε α : Type} (i : Nat) (f : OpenFile Handle) (op : FileOperation ε α), d.files i = some f →
      let d' := d.step fileSystem (.use i op)
      let written :=
        Edit.applyAll (d.edit f.handle.cell (.use i op)).toList (d.data f.handle.cell)
      (∀ k, d'.state.nodeAt k = d.state.nodeAt k) ∧
      (∀ c, c ≠ f.handle.cell → d'.state.content c = d.state.content c) ∧
      ∀ q, d'.state.fileOf q = d.state.fileOf q ∧
        (d.state.fileOf q = some f.handle.cell →
          (fileSystem.contents q d'.state).1 = .ok written ∧
          ∃ info, d'.answer fileSystem (.stat q) = .ok info ∧ info.len = written.length) ∧
        (d.state.fileOf q ≠ some f.handle.cell →
          (fileSystem.contents q d'.state).1 = (fileSystem.contents q d.state).1 ∧
          d'.answer fileSystem (.stat q) = d.answer fileSystem (.stat q)) := by
  intro d last
  have hsound : d.Sound := sound_run_fresh before
  have hnumbered : d.Numbered := numbered_run_fresh before
  refine ⟨fun _ _ _ _ hj hk => hsound.state.key_unique hj hk, ?_, ?_, ?_,
    fun i f op hf => Dialog.use_seen hsound hf op⟩
  · intro i f hf
    obtain ⟨f', hf', hsame⟩ := Dialog.sameFile_run hnumbered hf turns
    refine ⟨f', hf', hsame, fun hopen => ?_⟩
    have hshows := Dialog.shows_data hf' hopen
    rw [hsame.cell, Dialog.data_run hsound (hsound.files i f hf).lt] at hshows
    exact hshows
  · intro p o f hopened
    have hfile := Dialog.opened_file hsound hopened
    refine ⟨?_, hfile⟩
    rw [Dialog.step, hopened]
    exact if_pos rfl
  · intro c t htakes
    have hlast := (htakes.gone hsound hnumbered).run (hsound.step t) turns
    refine ⟨hlast.not_linked, ?_, hlast.files⟩
    intro q hq
    obtain ⟨k, _, hnode⟩ := Memory.fileOf_eq_some_iff.1 hq
    exact hlast.not_linked ⟨k, _, hnode, rfl⟩

/-- A file that is removed lives on behind its handle, and the one that is created in its
place starts empty. -/
example :
    let p : Path := ⟨[97]⟩
    let d := Dialog.run fileSystem { state := .fresh }
      [.ask (.openFile p .creating), .use 0 (.write [1, 2]), .ask (.remove p),
        .ask (.openFile p .creating), .use 0 (.write [3])]
    d.fileAnswer 0 (.readAt 9 0) = some (.ok [1, 2, 3]) ∧
      d.fileAnswer 3 (.readAt 9 0) = some (.ok []) :=
  ⟨rfl, rfl⟩

end Fresh

end ConfinedFs
