import ConfinedFs.Proofs.Memory.FencedOperations

/-!
Changes of the data of one file. A handle changes the data of the cell it is open on and
nothing else. No path leads anywhere else after that, and what is found behind a path
changes if the path leads to the file.
-/

namespace ConfinedFs

open ConfinedFs.Action (Keeps Triple)

variable {ε α : Type}

/-- A change of the data of a file: bytes are put at an offset, or at the end if there is
none, the data gets another length, or it is cleared. -/
inductive Edit where
  | put (offset : Option Nat) (bytes : Bytes)
  | resize (size : Nat)
  | clear

/-- The data after a change. -/
def Edit.apply : Edit → Bytes → Bytes
  | put offset bytes, data => Bytes.overwrite (offset.getD data.length) bytes data
  | resize size, data => Bytes.resize size data
  | clear, _ => []

/-- The data after changes, in order. -/
def Edit.applyAll (edits : List Edit) (data : Bytes) : Bytes :=
  edits.foldl (fun data e => e.apply data) data

/-- The change that an operation on a handle asks for. -/
def FileOperation.edit (h : Memory.Handle) : FileOperation ε α → Option Edit
  | write data => some (.put (if h.append then none else some h.cursor) data)
  | writeAt data offset => some (.put (some offset) data)
  | truncate size => some (.resize size)
  | _ => none

namespace Memory

variable {m : Memory} {k : Key} {c c' : CellId} {p : Path} {o : OpenOptions}

/-- The memory after a change of the data in one cell. -/
def edited (m : Memory) (c : CellId) (e : Edit) : Memory :=
  m.modifyCell c fun content => { content with data := e.apply content.data }

theorem content_edited (hc : c < m.cells.length) (e : Edit) :
    ((m.edited c e).content c).data = e.apply (m.content c).data := by
  simp [edited, modifyCell, content, List.getD_eq_getElem?_getD, List.getElem?_eq_getElem hc]

/-- Only what a cell holds decides what a change makes of it. -/
theorem modifyCell_congr {f g : Content → Content} (h : f (m.content c) = g (m.content c)) :
    m.modifyCell c f = m.modifyCell c g := by
  have hcells : m.cells.modify c f = m.cells.modify c g := by
    apply List.ext_getElem?
    intro i
    rw [List.getElem?_modify, List.getElem?_modify]
    by_cases hi : c = i
    · subst hi
      cases hcell : m.cells[c]? with
      | none => rfl
      | some content =>
        rw [Memory.content, List.getD_eq_getElem?_getD, hcell, Option.getD_some] at h
        simp [h]
    · simp [hi]
  rw [modifyCell, hcells, modifyCell]

theorem modifyCell_id (m : Memory) (c : CellId) : m.modifyCell c id = m := by
  rw [modifyCell, List.modify_id]

namespace Handle

variable {h : Handle}

/-- What a handle is given when it is opened and keeps. -/
structure SameFile (h h' : Handle) : Prop where
  cell : h'.cell = h.cell
  readable : h'.readable = h.readable
  writable : h'.writable = h.writable
  append : h'.append = h.append

theorem SameFile.refl (h : Handle) : SameFile h h := ⟨rfl, rfl, rfl, rfl⟩

theorem SameFile.trans {h' h'' : Handle} (hh : SameFile h h') (hh' : SameFile h' h'') :
    SameFile h h'' :=
  ⟨hh'.cell.trans hh.cell, hh'.readable.trans hh.readable, hh'.writable.trans hh.writable,
    hh'.append.trans hh.append⟩

theorem stable_sameFile (h : Handle) : Stable fun s => SameFile h s.1 where
  moveTo _ _ hs := ⟨hs.cell, hs.readable, hs.writable, hs.append⟩
  putData _ _ hs := hs
  close _ hs := ⟨hs.cell, hs.readable, hs.writable, hs.append⟩

/-- What a handle that does not write leaves alone. -/
theorem moving_memory (m : Memory) : Moving fun s => s.2 = m where
  moveTo _ _ hs := hs
  close _ hs := hs

theorem triple_store (bytes : Bytes) (offset : Option Nat) :
    Triple (· = (h, m)) (store bytes offset)
      (fun _ s => s = (h, m.edited h.cell (.put offset bytes))) fun _ s => s = (h, m) := by
  unfold store
  refine Triple.look_bind (Triple.guarded_fixed fun _ => ?_)
  apply Triple.bind_of_run (Action.update_apply _ (h, m))
  apply Triple.pure
  rintro s rfl
  exact congrArg (Prod.mk h) (modifyCell_congr rfl)

/-- An operation that succeeds makes the change that it asks for, and one that fails makes
none. -/
theorem triple_onDevice (op : FileOperation ε α) (name : Path) :
    Triple (· = (h, m)) (op.onDevice name : Action ε (Handle × Memory) α)
      (fun _ s => s.2 = (op.edit h).elim m (m.edited h.cell)) fun _ s => s.2 = m := by
  have hstarts : ∀ s, s = (h, m) → s.2 = m := by
    rintro s rfl
    rfl
  have hwritable : Keeps (· = (h, m)) requireWritable := keeps_requireWritable
  have hread : ∀ {ε α : Type} {x : Action ε (Handle × Memory) α}, Keeps (fun s => s.2 = m) x →
      Triple (· = (h, m)) x (fun _ s => s.2 = m) fun _ s => s.2 = m := fun hx =>
    hx.onStart hstarts
  have hstore : ∀ (bytes : Bytes) (offset : Option Nat), Triple (· = (h, m)) (store bytes offset)
      (fun _ s => s = (h, m.edited h.cell (.put offset bytes))) fun _ s => s.2 = m :=
    fun bytes offset => (triple_store bytes offset).onError fun _ => hstarts
  cases op with
  | write data =>
    apply Triple.mapError
    refine Keeps.andThen hwritable (fun _ => hstarts) fun _ => Triple.look_bind ?_
    refine Triple.bind (hstore _ _) fun start => ?_
    apply Triple.bind (Q := fun _ s => s.2 = m.edited h.cell (.put _ data))
    · apply Triple.update
      rintro s rfl
      rfl
    · exact fun _ => Triple.pure fun s hs => hs
  | writeAt data offset =>
    refine Keeps.andThen hwritable (fun _ => hstarts) fun _ => ?_
    refine Triple.bind (hstore _ _) fun start => Triple.pure ?_
    rintro s rfl
    rfl
  | truncate size =>
    refine Keeps.andThen hwritable (fun _ => hstarts) fun _ => Triple.update ?_
    rintro s rfl
    rfl
  | read n => exact hread (Keeps.mapError ((moving_memory m).keeps_read n))
  | readToEnd => exact hread (Keeps.mapError (moving_memory m).keeps_readRest)
  | flush => exact hread (Keeps.mapError keeps_requireOpen)
  | seek target => exact hread ((moving_memory m).keeps_seek target)
  | readAt n offset => exact hread (keeps_readAt n offset)
  | metadata => exact hread (keeps_metadata name)
  | lock => exact hread keeps_requireOpen
  | unlock => exact hread keeps_requireOpen
  | close => exact hread (moving_memory m).keeps_close

section Reading

theorem requireOpen_apply (hopen : h.closed = false) : requireOpen (h, m) = (.ok (), (h, m)) := by
  rw [requireOpen, Action.query_apply, hopen]
  rfl

theorem metadata_apply (hopen : h.closed = false) (p : Path) : metadata p (h, m) =
    (.ok { name := p.baseName.bytes, fileType := .ofFile, perm := (m.content h.cell).perm,
           len := (m.content h.cell).data.length }, (h, m)) :=
  Action.bind_apply_of_ok (requireOpen_apply hopen)

variable (hopen : h.closed = false) (hread : h.readable = true)

include hopen hread

theorem requireReadable_apply : requireReadable (h, m) = (.ok (), (h, m)) := by
  rw [requireReadable, Action.bind_apply_of_ok (requireOpen_apply hopen), Action.query_apply, hread]
  rfl

theorem readAt_apply (n offset : Nat) :
    readAt n offset (h, m) = (.ok (Bytes.slice offset n (m.content h.cell).data), (h, m)) :=
  Action.bind_apply_of_ok (requireReadable_apply hopen hread)

theorem read_apply (n : Nat) :
    let found := Bytes.slice h.cursor n (m.content h.cell).data
    read n (h, m) = (.ok found, ({ h with cursor := h.cursor + found.length }, m)) :=
  Action.bind_apply_of_ok (requireReadable_apply hopen hread)

theorem readRest_apply :
    let found := (m.content h.cell).data.drop h.cursor
    readRest (h, m) = (.ok found, ({ h with cursor := h.cursor + found.length }, m)) :=
  Action.bind_apply_of_ok (requireReadable_apply hopen hread)

end Reading

end Handle

section Paths

/-- The file that a path leads to, told by its cell. -/
def fileOf (m : Memory) (p : Path) : Option CellId := ((m.resolve p true).bind m.fileStored).toOption

theorem fileStored_eq_ok_iff : m.fileStored k = .ok c ↔ m.nodeAt k = some ⟨.file, c⟩ := by
  refine ⟨nodeAt_of_fileStored, fun hnode => ?_⟩
  rw [fileStored, hnode]

theorem fileOf_eq_some_iff :
    m.fileOf p = some c ↔ ∃ k, m.resolve p true = .ok k ∧ m.nodeAt k = some ⟨.file, c⟩ := by
  unfold fileOf
  cases m.resolve p true with
  | error e => exact ⟨nofun, fun ⟨_, hk, _⟩ => nomatch hk⟩
  | ok k =>
    have hstored : ((Except.ok k).bind m.fileStored).toOption = some c ↔
        m.fileStored k = .ok c := by
      show (m.fileStored k).toOption = some c ↔ _
      cases m.fileStored k <;> simp [Except.toOption]
    rw [hstored, fileStored_eq_ok_iff]
    exact ⟨fun hnode => ⟨k, rfl, hnode⟩, fun ⟨_, hk, hnode⟩ => Except.ok.inj hk ▸ hnode⟩

/-- A cell that holds no link. -/
def NoLink (m : Memory) (c : CellId) : Prop := ∀ k, m.nodeAt k ≠ some ⟨.symlink, c⟩

variable (hc : m.NoLink c) (f : Content → Content)

include hc

theorem advance_modifyCell (followLast : Bool)
    (jump : List Step → Key → Except FileError Key) (steps : List Step) (k : Key) :
    (m.modifyCell c f).advance followLast jump steps k = m.advance followLast jump steps k := by
  induction steps generalizing k with
  | nil => rfl
  | cons step rest ih =>
    cases step with
    | up => exact ih k.parent
    | down n =>
      have hsame : (m.modifyCell c f).nodeAt (k ++ [n]) = m.nodeAt (k ++ [n]) := rfl
      rw [advance, advance, hsame]
      cases hnode : m.nodeAt (k ++ [n]) with
      | none => exact ih _
      | some node =>
        obtain ⟨kind, c'⟩ := node
        cases kind with
        | directory => exact ih _
        | file =>
          dsimp only
          rw [ih]
        | symlink =>
          have hne : c' ≠ c := by
            rintro rfl
            exact hc _ hnode
          dsimp only
          rw [content_modifyCell_of_ne hne, ih]

/-- What a file holds does not decide where paths lead. -/
theorem resolve_modifyCell (p : Path) (followLast : Bool) :
    (m.modifyCell c f).resolve p followLast = m.resolve p followLast := by
  have hwithin : ∀ links, (m.modifyCell c f).resolveWithin followLast links =
      m.resolveWithin followLast links := by
    intro links
    induction links with
    | zero =>
      funext steps k
      exact advance_modifyCell hc f _ _ steps k
    | succ links ih =>
      funext steps k
      rw [resolveWithin, resolveWithin, ih]
      exact advance_modifyCell hc f _ _ steps k
  rw [resolve, hwithin, resolve]

theorem fileOf_modifyCell (p : Path) : (m.modifyCell c f).fileOf p = m.fileOf p := by
  rw [fileOf, resolve_modifyCell hc]
  rfl

end Paths

section Queries

/-- A handle for reading on the file, or why there is no file. -/
theorem openRead_apply (m : Memory) (p : Path) : bareFileSystem.openRead p m =
    (((m.resolve p true).bind m.fileStored).map fun c => ⟨Handle.ofCell m c .reading, p, []⟩, m) := by
  have hfound : m.fileAt p .reading = (m.resolve p true).bind m.fileStored := rfl
  rw [← hfound]
  cases hfile : m.fileAt p .reading with
  | error e => exact Action.bind_apply_of_error (congrArg (·, m) hfile)
  | ok c => exact Action.bind_apply_of_ok (congrArg (·, m) hfile)

/-- What a file holds, or why there is no file. -/
theorem contents_apply (m : Memory) (p : Path) : bareFileSystem.contents p m =
    (((m.resolve p true).bind m.fileStored).map fun c => (m.content c).data, m) := by
  have hopen := openRead_apply m p
  unfold BareFileSystem.contents
  cases hstored : (m.resolve p true).bind m.fileStored with
  | error e =>
    rw [hstored] at hopen
    exact Action.bind_apply_of_error hopen
  | ok c =>
    rw [hstored] at hopen
    exact Action.bind_apply_of_ok hopen

theorem stat_of_fileOf (h : m.fileOf p = some c) : m.stat p =
    .ok { name := p.baseName.bytes, fileType := .ofFile, perm := (m.content c).perm,
          len := (m.content c).data.length } := by
  obtain ⟨k, hk, hnode⟩ := fileOf_eq_some_iff.1 h
  simp only [stat, hk, describe, hnode, bind, Except.bind]
  rfl

theorem contents_of_fileOf (h : m.fileOf p = some c) :
    (bareFileSystem.contents p m).1 = .ok (m.content c).data := by
  obtain ⟨k, hk, hnode⟩ := fileOf_eq_some_iff.1 h
  rw [contents_apply, hk]
  show (m.fileStored k).map _ = _
  rw [fileStored_eq_ok_iff.2 hnode]
  rfl

theorem Owns.noLink (hc : Owns [] m c) : m.NoLink c := fun _ hnode =>
  nomatch (hc.node hnode rfl).2

variable (hc : Owns [] m c) (hp : m.fileOf p ≠ some c) (f : Content → Content)

include hc hp

/-- Where another path leads there is a node with another cell. -/
theorem cell_ne_of_fileOf_ne (hk : m.resolve p true = .ok k) {n : Node}
    (hnode : m.nodeAt k = some n) : n.cell ≠ c := by
  intro hcell
  obtain ⟨kind, cell⟩ := n
  obtain ⟨-, rfl⟩ : [] <+: k ∧ kind = .file := hc.node hnode hcell
  cases hcell
  exact hp (fileOf_eq_some_iff.2 ⟨k, hk, hnode⟩)

theorem stat_modifyCell_of_ne : (m.modifyCell c f).stat p = m.stat p := by
  unfold stat
  rw [resolve_modifyCell hc.noLink]
  cases hk : m.resolve p true with
  | error e => rfl
  | ok k =>
    show (m.modifyCell c f).describe k _ = m.describe k _
    have hsame : (m.modifyCell c f).nodeAt k = m.nodeAt k := rfl
    unfold describe
    rw [hsame]
    cases hnode : m.nodeAt k with
    | none => rfl
    | some n =>
      dsimp only
      rw [content_modifyCell_of_ne (cell_ne_of_fileOf_ne hc hp hk hnode)]

theorem contents_modifyCell_of_ne :
    (bareFileSystem.contents p (m.modifyCell c f)).1 = (bareFileSystem.contents p m).1 := by
  rw [contents_apply, contents_apply, resolve_modifyCell hc.noLink]
  cases hk : m.resolve p true with
  | error e => rfl
  | ok k =>
    show ((m.fileStored k).map fun c' => ((m.modifyCell c f).content c').data) =
      (m.fileStored k).map fun c' => (m.content c').data
    cases hstored : m.fileStored k with
    | error e => rfl
    | ok c' =>
      have hne := cell_ne_of_fileOf_ne hc hp hk (fileStored_eq_ok_iff.1 hstored)
      exact congrArg (Except.ok ∘ Content.data) (content_modifyCell_of_ne hne m f)

end Queries

end Memory

end ConfinedFs
