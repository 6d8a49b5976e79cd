import ConfinedFs.Proofs.Memory.Atomic
import ConfinedFs.Proofs.Memory.Handles
import ConfinedFs.Rooted.FileSystem

/-!
Files that are not open for writing. What a handle may do is settled when it is opened:
in memory it may write if the request asked for it. The host also opens for writing what
the request may create or empty, and a root what it empties. A handle that may not write
refuses to, and none of its operations changes the filesystem, whatever has been done
since it was opened.
-/

namespace ConfinedFs

open ConfinedFs.Os
open ConfinedFs.Action (Keeps Triple Yields)

variable {σ H ε α : Type}

/-- Is the request one to change the data of the file? Writing nothing is not. -/
def FileOperation.Mutates : FileOperation ε α → Prop
  | write data => data ≠ []
  | writeAt data _ => data ≠ []
  | truncate _ => True
  | _ => False

/-- Handles that cannot write: they refuse to change data, they leave the state alone, and
they stay what they are. -/
structure Device.ReadOnly [Device σ H] (F : H → Prop) : Prop where
  keeps : ∀ {ε α : Type} (op : FileOperation ε α) (name : Path) (s : σ),
    Keeps (fun r : H × σ => F r.1 ∧ r.2 = s) (op.onDevice name)
  refuses : ∀ {ε α : Type} (op : FileOperation ε α), op.Mutates → ∀ (name : Path) (k : H) (s : σ),
    F k → ∃ e, (op.onDevice name (k, s)).1 = .error e

/-- A call that uses no other file than the one of the given call. -/
def Turn.UsesOnly (i : Nat) : Turn H → Prop
  | use j _ => j = i
  | pass => True
  | ask _ => False

namespace Dialog

variable {fs : FileSystem σ H} {F : H → Prop} {d : Dialog σ H} {i : Nat}

variable [Device σ H]

/-- Nothing is ever written through the file of a call. -/
def NeverWrites (fs : FileSystem σ H) (d : Dialog σ H) (i : Nat) : Prop :=
  ∀ turns : List (Turn H), let d' := d.run fs turns
    (∀ {ε α : Type} (op : FileOperation ε α), op.Mutates →
      ∃ e, d'.fileAnswer i op = some (.error e) ∧ (d'.step fs (.use i op)).state = d'.state) ∧
    ((∀ t ∈ turns, t.UsesOnly i) → d'.state = d.state)

variable (hF : Device.ReadOnly (σ := σ) F)

include hF

/-- Using the file changes nothing but the file. -/
theorem HasFile.use (h : d.HasFile F i) (op : FileOperation ε α) :
    (d.step fs (.use i op)).HasFile F i ∧ (d.step fs (.use i op)).state = d.state := by
  obtain ⟨hi, f, hf, hhandle⟩ := h
  obtain ⟨hkept, hstate⟩ := (hF.keeps op f.name d.state).apply (s := (f.handle, d.state)) ⟨hhandle, rfl⟩
  rw [Dialog.step, hf]
  dsimp only
  rw [OpenFile.perform_apply]
  refine ⟨HasFile.after (d := d.withFile i _) ⟨hi, _, if_pos rfl, hkept⟩ _ none, hstate⟩

theorem HasFile.next (h : d.HasFile F i) (t : Turn H) : (d.step fs t).HasFile F i :=
  h.step (fun op name k s hk => ((hF.keeps op name s).apply (s := (k, s)) ⟨hk, rfl⟩).1) t

theorem HasFile.neverWrites (h : d.HasFile F i) : d.NeverWrites fs i := by
  intro turns
  have hlast : (d.run fs turns).HasFile F i :=
    run_keeps h fun t _ _ hd => HasFile.next hF hd t
  refine ⟨fun op hop => ?_, fun hturns => ?_⟩
  · have ⟨_, f, hf, hhandle⟩ := hlast
    obtain ⟨e, he⟩ := hF.refuses op hop f.name f.handle (d.run fs turns).state hhandle
    refine ⟨e, ?_, (HasFile.use hF hlast op).2⟩
    rw [fileAnswer, hf, Option.map_some, OpenFile.perform_apply, he]
  · have hkept : (d.run fs turns).HasFile F i ∧ (d.run fs turns).state = d.state := by
      refine run_keeps (I := fun d' => d'.HasFile F i ∧ d'.state = d.state) ⟨h, rfl⟩ ?_
      rintro t ht d' ⟨hfile, hstate⟩
      refine ⟨HasFile.next hF hfile t, ?_⟩
      cases t with
      | pass => exact hstate
      | ask op => exact (hturns _ ht).elim
      | use j op =>
        cases (hturns _ ht : j = i)
        exact (HasFile.use hF hfile op).2.trans hstate
    exact hkept.2

/-- What an open request has handed out is the file of its call. -/
theorem neverWrites_of_opened {p : Path} {o : OpenOptions} {f : OpenFile H}
    (hopened : d.answer fs (.openFile p o) = .ok f) (hf : F f.handle) :
    (d.step fs (.ask (.openFile p o))).NeverWrites fs d.calls := by
  refine HasFile.neverWrites hF ⟨Nat.lt_succ_self _, f, ?_, hf⟩
  rw [Dialog.step, hopened]
  exact if_pos rfl

end Dialog

namespace Memory

variable {m : Memory} {p : Path} {o : OpenOptions}

/-- A handle that may not write is asked about that first. -/
theorem triple_requireWritable : Triple (fun s : Handle × Memory => s.1.writable = false ∧ s.2 = m)
    Handle.requireWritable (fun _ _ => False) fun _ s => s.1.writable = false ∧ s.2 = m := by
  refine Keeps.andThen Handle.keeps_requireOpen (fun _ _ hs => hs) fun _ => ?_
  refine Triple.query ?_ fun _ _ hs _ => hs
  rintro s _ ⟨hwritable, _⟩ hok
  rw [hwritable] at hok
  cases hok

/-- Whatever comes after that question is not done. -/
theorem triple_of_requireWritable (f : Unit → Action FileError (Handle × Memory) α) :
    Triple (fun s : Handle × Memory => s.1.writable = false ∧ s.2 = m)
      (Handle.requireWritable >>= f) (fun _ _ => False)
      fun _ s => s.1.writable = false ∧ s.2 = m :=
  Triple.bind triple_requireWritable fun _ _ hs => hs.elim

/-- A handle in memory that may not write. -/
theorem readOnly : Device.ReadOnly (σ := Memory) fun k : Handle => k.writable = false where
  keeps := by
    intro ε α op name m
    have hmoving : Handle.Moving fun s => s.1.writable = false ∧ s.2 = m :=
      ⟨fun _ _ hs => hs, fun _ hs => hs⟩
    have hrefused : ∀ {β : Type} (f : Unit → Action FileError (Handle × Memory) β),
        Keeps (fun s => s.1.writable = false ∧ s.2 = m) (Handle.requireWritable >>= f) := fun f =>
      (triple_of_requireWritable f).weaken (fun _ hs => hs) (fun _ _ hs => hs.elim) fun _ _ hs => hs
    exact hmoving.keeps_onDevice (fun _ => hrefused _) (fun _ _ => hrefused _) (fun _ => hrefused _) op
  refuses := by
    intro ε α op hop name k m hk
    cases op with
    | write data =>
      have hwrite := Triple.mapError (x := Handle.write data) (f := IoError.filesystem)
        (F := fun _ s => s.1.writable = false ∧ s.2 = m) (triple_of_requireWritable _)
      exact hwrite.exists_error ⟨hk, rfl⟩
    | writeAt data offset => exact (triple_of_requireWritable _).exists_error ⟨hk, rfl⟩
    | truncate size => exact (triple_of_requireWritable _).exists_error ⟨hk, rfl⟩
    | _ => exact hop.elim

/-- A handle may write if the request asked for it. -/
theorem yields_openFile (p : Path) (o : OpenOptions) :
    Yields (openFile p o) fun f => f.handle.writable = o.writable := by
  rw [openFile_eq]
  refine .after fun c => ?_
  intro m f m' hrun
  rw [handOut_apply] at hrun
  cases hrun
  rfl

end Memory

namespace Os

variable {t : Tree}

namespace Descriptor

/-- What holds of a descriptor and the tree wherever the descriptor is. -/
def Anywhere (P : Descriptor × Tree → Prop) : Prop := ∀ offset s, P s → P (moveTo offset s)

section Anywhere

variable {P : Descriptor × Tree → Prop} (h : Anywhere P)

include h

theorem keeps_read (n : Nat) : Keeps P (read n) :=
  .bind (.look _) fun _ => .bind (.query _) fun _ => .bind (.update fun s hs => h _ s hs) fun _ =>
    .pure _

theorem keeps_readRest : Keeps P readRest :=
  .bind (.look _) fun _ => .bind (.query _) fun _ => .bind (.update fun s hs => h _ s hs) fun _ =>
    .pure _

theorem keeps_seek (target : SeekTarget) : Keeps P (seek target) :=
  .bind (.look _) fun _ => .when (.throw _) (.bind (.update fun s hs => h _ s hs) fun _ => .pure _)

omit h

theorem keeps_pread (n offset : Nat) : Keeps P (pread n offset) := by
  unfold pread
  exact .when (.throw _) (.bind (.query _) fun _ => .pure _)

theorem keeps_preadWithin (calls n offset : Nat) : Keeps P (preadWithin calls n offset) := by
  induction calls generalizing n offset with
  | zero => exact .pure _
  | succ calls ih =>
    refine .ite (.pure _) (.bind (keeps_pread n offset) fun found => .ite (.pure _) ?_)
    exact .bind (ih _ _) fun _ => .pure _

theorem keeps_preadAll (n offset : Nat) : Keeps P (preadAll n offset) :=
  keeps_preadWithin n n offset

end Anywhere

/-- The descriptor may not write, and the tree is the given one. -/
def Shut (t : Tree) (s : Descriptor × Tree) : Prop := s.1.writable = false ∧ s.2 = t

theorem anywhere_shut (t : Tree) : Anywhere (Shut t) := fun _ _ hs => hs

/-- The data is not even looked at. -/
theorem triple_writableData (offset count : Nat) (f : Bytes → Action Errno (Descriptor × Tree) α) :
    Triple (Shut t) (Action.query (writableData offset count) >>= f) (fun _ _ => False)
      fun _ => Shut t := by
  refine Triple.bind (Q := fun _ _ => False) (Triple.query ?_ fun _ _ hs _ => hs)
    fun _ _ hs => hs.elim
  rintro s data ⟨hwritable, _⟩ hok
  simp only [writableData, hwritable] at hok
  cases hok

theorem triple_write (bytes : Bytes) :
    Triple (Shut t) (write bytes) (fun _ _ => False) fun _ => Shut t :=
  Keeps.andThen (.look _) (fun _ _ hs => hs) fun _ => triple_writableData _ _ _

theorem triple_pwrite (bytes : Bytes) (offset : Nat) :
    Triple (Shut t) (pwrite bytes offset) (fun _ _ => False) fun _ => Shut t := by
  unfold pwrite
  exact Triple.guarded (fun _ _ hs => hs) fun _ => triple_writableData _ _ _

/-- There is something to be written, so the first call is made. -/
theorem triple_pwriteAll {bytes : Bytes} (hbytes : bytes ≠ []) (offset : Nat) :
    Triple (Shut t) (pwriteAll bytes offset) (fun _ _ => False) fun _ => Shut t := by
  obtain ⟨b, rest, rfl⟩ := List.exists_cons_of_ne_nil hbytes
  exact Triple.bind (triple_pwrite _ offset) fun _ _ hs => hs.elim

theorem triple_resize (size : Nat) :
    Triple (Shut t) (resize size) (fun _ _ => False) fun _ => Shut t := by
  unfold resize
  refine Triple.guarded (fun _ _ hs => hs) fun _ => ?_
  refine Triple.bind (Q := fun _ _ => False) (Triple.query ?_ fun _ _ hs _ => hs)
    fun _ _ hs => hs.elim
  rintro s data ⟨hwritable, _⟩ hok
  rw [hwritable] at hok
  cases hok

end Descriptor

namespace FileHandle

/-- The handle has been closed, or its descriptor may not write. -/
def Shut (k : FileHandle) : Prop := ∀ d, k.descriptor = some d → d.writable = false

/-- The handle is shut, and the tree is the given one. -/
def ShutIn (t : Tree) (s : FileHandle × Tree) : Prop := s.1.Shut ∧ s.2 = t

section OnDescriptor

variable {x : Action Errno (Descriptor × Tree) α}

/-- What is done with the descriptor leaves a handle that is shut as it leaves the
descriptor. -/
theorem triple_onDescriptor {Q : α → Prop}
    (hx : Triple (Descriptor.Shut t) x (fun a s => Q a ∧ Descriptor.Shut t s)
      fun _ => Descriptor.Shut t) :
    Triple (ShutIn t) (onDescriptor x) (fun a s => Q a ∧ ShutIn t s) fun _ => ShutIn t := by
  rintro ⟨k, u⟩ ⟨hk, rfl⟩
  unfold onDescriptor
  cases hd : k.descriptor with
  | none => exact ⟨hk, rfl⟩
  | some d =>
    have hrun := hx (d, u) ⟨hk d hd, rfl⟩
    simp only [Action.mapError]
    cases hxs : x (d, u) with
    | mk r s =>
      rw [hxs] at hrun
      have hshut : s.1.writable = false → FileHandle.Shut ⟨some s.1⟩ := by
        rintro hwritable _ heq
        cases heq
        exact hwritable
      cases r with
      | error e => exact ⟨hshut hrun.1, hrun.2⟩
      | ok a => exact ⟨hrun.1, hshut hrun.2.1, hrun.2.2⟩

theorem keeps_onDescriptor (hx : Keeps (Descriptor.Shut t) x) :
    Keeps (ShutIn t) (onDescriptor x) := by
  have htrue : Triple (Descriptor.Shut t) x (fun _ s => True ∧ Descriptor.Shut t s)
      fun _ => Descriptor.Shut t :=
    hx.weaken (fun _ hs => hs) (fun _ _ hs => ⟨trivial, hs⟩) fun _ _ hs => hs
  exact (triple_onDescriptor htrue).weaken (fun _ hs => hs) (fun _ _ hs => hs.2) fun _ _ hs => hs

theorem refused_onDescriptor
    (hx : Triple (Descriptor.Shut t) x (fun _ _ => False) fun _ => Descriptor.Shut t) :
    Triple (ShutIn t) (onDescriptor x) (fun _ _ => False) fun _ => ShutIn t := by
  have hfalse : Triple (Descriptor.Shut t) x (fun _ s => False ∧ Descriptor.Shut t s)
      fun _ => Descriptor.Shut t :=
    hx.weaken (fun _ hs => hs) (fun _ _ hs => hs.elim) fun _ _ hs => hs
  exact (triple_onDescriptor hfalse).weaken (fun _ hs => hs) (fun _ _ hs => hs.1) fun _ _ hs => hs

end OnDescriptor

/-- A handle of the system that may not write. -/
theorem readOnly : Device.ReadOnly (σ := Tree) Shut where
  keeps := by
    intro ε α op name t
    have hrefused : ∀ {β : Type} {x : Action Errno (Descriptor × Tree) β},
        Triple (Descriptor.Shut t) x (fun _ _ => False) (fun _ => Descriptor.Shut t) →
        Keeps (Descriptor.Shut t) x :=
      fun hx => hx.weaken (fun _ hs => hs) (fun _ _ hs => hs.elim) fun _ _ hs => hs
    have hanywhere := Descriptor.anywhere_shut t
    cases op with
    | read n => exact keeps_onDescriptor (Descriptor.keeps_read hanywhere n)
    | readToEnd => exact keeps_onDescriptor (Descriptor.keeps_readRest hanywhere)
    | write data => exact keeps_onDescriptor (hrefused (Descriptor.triple_write data))
    | flush => exact keeps_onDescriptor (.pure _)
    | seek target => exact keeps_onDescriptor (Descriptor.keeps_seek hanywhere target)
    | readAt n offset =>
      exact .mapError (keeps_onDescriptor (Descriptor.keeps_preadAll n offset))
    | writeAt data offset =>
      refine .bind (.mapError (keeps_onDescriptor ?_)) fun _ => .pure _
      by_cases hdata : data = []
      · rw [hdata]
        exact .pure _
      · exact hrefused (Descriptor.triple_pwriteAll hdata offset)
    | truncate size =>
      exact .mapError (keeps_onDescriptor (hrefused (Descriptor.triple_resize size)))
    | metadata => exact .bind (.mapError (keeps_onDescriptor (.query _))) fun _ => .pure _
    | lock => exact .mapError (keeps_onDescriptor (.pure _))
    | unlock => exact .mapError (keeps_onDescriptor (.pure _))
    | close =>
      exact .bind (.mapError (keeps_onDescriptor (.pure _))) fun _ =>
        .update fun _ hs => ⟨nofun, hs.2⟩
  refuses := by
    intro ε α op hop name k t hk
    cases op with
    | write data =>
      exact (refused_onDescriptor (Descriptor.triple_write data)).exists_error ⟨hk, rfl⟩
    | writeAt data offset =>
      have hcontrol : Triple (ShutIn t) (control (Descriptor.pwriteAll data offset))
          (fun _ _ => False) fun _ => ShutIn t :=
        Triple.mapError (refused_onDescriptor (Descriptor.triple_pwriteAll hop offset))
      exact (Triple.bind hcontrol fun _ _ hs => hs.elim).exists_error ⟨hk, rfl⟩
    | truncate size =>
      have hcontrol : Triple (ShutIn t) (control (Descriptor.resize size)) (fun _ _ => False)
          fun _ => ShutIn t :=
        Triple.mapError (refused_onDescriptor (Descriptor.triple_resize size))
      exact hcontrol.exists_error ⟨hk, rfl⟩
    | _ => exact hop.elim

end FileHandle

namespace Call

/-- Whatever the call does, the descriptor is the one that the flags ask for. -/
theorem yields_openNode (f : OpenFlags) (i : NodeId) :
    Yields (openNode f i) fun d => d.writable = f.write := by
  have hopen : Yields (granted f i) fun d => d.writable = f.write := by
    unfold granted
    exact .when (.when (.after fun special => .when (.when (.pure rfl))))
  unfold openNode
  refine .when (.after fun node => ?_)
  cases node with
  | none => exact hopen
  | some node =>
    cases node with
    | directory d => exact .when hopen
    | file perm data => exact hopen
    | symlink standing target => exact .after fun _ => hopen
    | special perm => exact hopen

theorem yields_openAt (f : OpenFlags) (place : Place) (strict : Bool) :
    Yields (openAt f place strict) fun d => d.writable = f.write := by
  unfold openAt
  refine .when (.after fun found => ?_)
  cases found with
  | some i => exact .after fun isDir => .when (yields_openNode f i)
  | none =>
    cases place with
    | directory i => exact .throw _
    | entry dir n => exact .when (.after fun perm => .after fun i => .pure rfl)

end Call

/-- The handle of a descriptor may write if the descriptor may. -/
theorem FileHandle.shut_of_descriptor {d : Descriptor} (hd : d.writable = false) :
    FileHandle.Shut ⟨some d⟩ := by
  rintro _ heq
  cases heq
  exact hd

end Os

variable {p : Path} {o : OpenOptions}

/-- The host opens for writing also what it may create or empty. -/
theorem Host.yields_openFile (h : Host) (p : Path) (hwritable : o.writable = false)
    (hcreates : o.creates = false) (htruncate : o.truncate = false) :
    Yields (h.openFile p o) fun f => f.handle.Shut := by
  have hwrite : (openFlags o).write = false := by simp [openFlags, hwritable, hcreates, htruncate]
  unfold openFile
  refine .when (.bind (Q := fun d => d.writable = (openFlags o).write) ?_ fun d hd => ?_)
  · exact .mapError (.after fun found => Call.yields_openAt (openFlags o) found.1 found.2)
  · exact .pure (FileHandle.shut_of_descriptor (hd.trans hwrite))

/-- A root opens for writing also what it empties. -/
theorem Confined.yields_openFile (c : Confined) (p : Path) (hwritable : o.writable = false)
    (htruncate : o.truncate = false) : Yields (c.openFile p o) fun f => f.handle.Shut := by
  have hwrite : (Root.openFlags o).write = false := by simp [Root.openFlags, hwritable, htruncate]
  have hopen : ∀ (r : Root) rel, Yields (r.openFile rel o) FileHandle.Shut := by
    intro r rel
    refine .after fun l => .when (.after fun place => ?_)
    refine .bind (Q := fun d => d.writable = (Root.openFlags o).write) ?_ fun d hd => ?_
    · exact .mapError (Call.yields_openAt (Root.openFlags o) place false)
    · exact .pure (FileHandle.shut_of_descriptor (hd.trans hwrite))
  refine .after fun rel => .after fun r => .when (.bind (hopen r rel) fun _ hk => .pure hk)

/-- A request that does not ask to write gives a file in memory through which nothing is
ever written. On the host this is so if the request neither creates nor empties the file,
and below a root if it does not empty the file. -/
theorem openFile_neverWrites (hwritable : o.writable = false) (p : Path) :
    (∀ (d : Dialog Memory Memory.Handle) f,
      d.answer Memory.fileSystem (.openFile p o) = .ok f →
      (d.step Memory.fileSystem (.ask (.openFile p o))).NeverWrites Memory.fileSystem d.calls) ∧
    (o.creates = false → o.truncate = false → ∀ (h : Host) (d : Dialog Tree FileHandle) f,
      d.answer h.fileSystem (.openFile p o) = .ok f →
      (d.step h.fileSystem (.ask (.openFile p o))).NeverWrites h.fileSystem d.calls) ∧
    (o.truncate = false → ∀ (c : Confined) (d : Dialog Tree FileHandle) f,
      d.answer c.fileSystem (.openFile p o) = .ok f →
      (d.step c.fileSystem (.ask (.openFile p o))).NeverWrites c.fileSystem d.calls) := by
  refine ⟨fun d f hopened => ?_, fun hcreates htruncate h d f hopened => ?_,
    fun htruncate c d f hopened => ?_⟩
  · have hwrite := Memory.yields_openFile p o d.state f _ (Prod.ext hopened rfl)
    exact Dialog.neverWrites_of_opened Memory.readOnly hopened (hwrite.trans hwritable)
  · have hshut := h.yields_openFile p hwritable hcreates htruncate d.state f _ (Prod.ext hopened rfl)
    exact Dialog.neverWrites_of_opened FileHandle.readOnly hopened hshut
  · have hshut := c.yields_openFile p hwritable htruncate d.state f _ (Prod.ext hopened rfl)
    exact Dialog.neverWrites_of_opened FileHandle.readOnly hopened hshut

section Scene

private def noted : Path := ⟨[102]⟩

/-- The dialog with a filesystem in which a file has been opened. -/
private def opening [Device σ H] (fs : FileSystem σ H) (s : σ) (o : OpenOptions) : Dialog σ H :=
  ({ state := s } : Dialog σ H).step fs (.ask (.openFile noted o))

/-- A file that has been created is opened again for reading. -/
theorem openFile_neverWrites_reading :
    let o := OpenOptions.reading
    let memory := Memory.fileSystem
    let host := Host.whole.fileSystem
    let root := (Confined.perCall Path.top).fileSystem
    (o.writable = false ∧ o.creates = false ∧ o.truncate = false) ∧
      ((opening memory .fresh .creating).step memory (.ask (.openFile noted o))).NeverWrites memory 1 ∧
      ((opening host .fresh .creating).step host (.ask (.openFile noted o))).NeverWrites host 1 ∧
      ((opening root .fresh .creating).step root (.ask (.openFile noted o))).NeverWrites root 1 := by
  have hopened := openFile_neverWrites (o := .reading) rfl noted
  refine ⟨⟨rfl, rfl, rfl⟩, ?_, ?_, ?_⟩
  · exact hopened.1 (opening Memory.fileSystem .fresh .creating) _ rfl
  · exact hopened.2.1 rfl rfl Host.whole (opening Host.whole.fileSystem .fresh .creating) _ rfl
  · exact hopened.2.2 rfl (Confined.perCall Path.top)
      (opening (Confined.perCall Path.top).fileSystem .fresh .creating) _ rfl

/-- A file that the host may create and one that a root empties are written, although the
requests did not ask for it. -/
theorem openFile_writes_unasked :
    let created : OpenOptions := { read := true, create := true }
    let emptied : OpenOptions := { read := true, create := true, truncate := true }
    let root := (Confined.perCall Path.top).fileSystem
    (created.writable = false ∧
        (opening Host.whole.fileSystem .fresh created).fileAnswer 0 (.write [65]) = some (.ok 1)) ∧
      emptied.writable = false ∧
        (opening root .fresh emptied).fileAnswer 0 (.write [65]) = some (.ok 1) :=
  ⟨⟨rfl, rfl⟩, rfl, rfl⟩

end Scene

end ConfinedFs
