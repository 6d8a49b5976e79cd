import ConfinedFs.Host.FileSystem
import ConfinedFs.Proofs.Memory.Answers
import ConfinedFs.Proofs.Memory.HandleCalls
import ConfinedFs.Proofs.Memory.Session
import ConfinedFs.Proofs.Open.Exclusive
import ConfinedFs.Proofs.Os.Descriptors
import ConfinedFs.Proofs.Os.Presence

/-!
Two files with the same content, one in memory and one on the host, opened for writing by the
same request. What is done with one handle comes to the same with the other one.

The two kinds of handles part where one writes nothing behind the end of its file, writes at an
offset of a file that it appends to, asks for nothing at an offset of a file that it may not
read, goes behind the last position of the host, or reads or writes more at its position than
the host moves with one call. And a handle that appends starts at the end in memory and at the
start on the host, which is seen until its position has been set.
-/

namespace ConfinedFs

open ConfinedFs.Os
open ConfinedFs.Action (Keeps Triple)

variable {σ H ε α : Type}

/-- A call to an open file. -/
structure Use : Type 1 where
  {ε α : Type}
  op : FileOperation ε α

namespace OpenFile

variable [Device σ H]

/-- The file and the state after calls, in order. -/
def useAll (s : OpenFile H × σ) (uses : List Use) : OpenFile H × σ :=
  uses.foldl (fun s u => (perform u.op s).2) s

end OpenFile

namespace FileOperation

/-- Does the call, where it succeeds, set the position without regard to where it was? -/
def setsPosition : FileOperation ε α → Bool
  | write data => !data.isEmpty
  | seek (.start _) | seek (.fromEnd _) => true
  | _ => false

/-- What is asked of a call, given whether the position has been set, the handle and the length
of its file. The call is one to read, to write, to seek or to truncate. Nothing in it goes behind
the last position of the host, a position that has not been set is not used, no more is found or
written at the position than the host moves with one call, nothing is not written behind the end,
and nothing is written at an offset of a file that is appended to. -/
def Ordinary (placed : Bool) (h : Memory.Handle) (length : Nat) : FileOperation ε α → Prop
  | read n => h.readable = true →
    (n ≠ 0 → placed = true) ∧ h.cursor + n ≤ Descriptor.maxOffset ∧
    min n (length - h.cursor) ≤ Descriptor.maxTransfer
  | write data => data.length ≤ Descriptor.maxTransfer ∧
    h.cursor + data.length ≤ Descriptor.maxOffset ∧
    (h.append = true → length + data.length ≤ Descriptor.maxOffset) ∧
    (data = [] → if h.append then placed = true → h.cursor = length else h.cursor ≤ length)
  | seek (.start offset) => offset ≤ Descriptor.maxOffset
  | seek (.fromEnd delta) => (length : Int) + delta ≤ Descriptor.maxOffset
  | seek (.fromCurrent delta) =>
    placed = true ∧ (h.cursor : Int) + delta ≤ Descriptor.maxOffset
  | readAt n offset => (n = 0 → h.readable = true) ∧ offset + n ≤ Descriptor.maxOffset
  | writeAt data offset => offset + data.length ≤ Descriptor.maxOffset ∧
    if data = [] then offset ≤ length else h.append = false
  | truncate size => size ≤ Descriptor.maxOffset
  | _ => False

instance (placed : Bool) (h : Memory.Handle) (length : Nat) :
    (op : FileOperation ε α) → Decidable (op.Ordinary placed h length)
  | read n => inferInstanceAs
      (Decidable (h.readable = true → (n ≠ 0 → placed = true) ∧ _ ≤ _ ∧ _ ≤ _))
  | write data => inferInstanceAs (Decidable (_ ≤ _ ∧ _ ≤ _ ∧ (h.append = true → _ ≤ _) ∧
      (data = [] → if h.append then placed = true → h.cursor = length else _ ≤ _)))
  | seek (.start _) | truncate _ => inferInstanceAs (Decidable (_ ≤ (_ : Nat)))
  | seek (.fromEnd _) => inferInstanceAs (Decidable (_ ≤ (_ : Int)))
  | seek (.fromCurrent _) => inferInstanceAs (Decidable (placed = true ∧ _ ≤ _))
  | readAt n _ => inferInstanceAs (Decidable ((n = 0 → h.readable = true) ∧ _ ≤ _))
  | writeAt data _ =>
    inferInstanceAs (Decidable (_ ≤ _ ∧ if data = [] then _ ≤ _ else h.append = false))
  | readToEnd | flush | metadata | lock | unlock | close => inferInstanceAs (Decidable False)

variable {placed : Bool} {h : Memory.Handle} {length : Nat} {data : Bytes}

theorem writeStart_add_lt (hop : (write data).Ordinary placed h length) :
    h.writeStart length + data.length < positionBound := by
  obtain ⟨_, hcursor, hlength, _⟩ := hop
  unfold Memory.Handle.writeStart
  simp only [Descriptor.maxOffset] at hcursor hlength
  cases hmode : h.append with
  | true =>
    have hfits := hlength hmode
    simp only [if_true, positionBound]
    omega
  | false =>
    simp only [Bool.false_eq_true, if_false, positionBound]
    omega

theorem writeStart_of_empty (hop : (write []).Ordinary placed h length) :
    h.writeStart length ≤ length ∧ (placed = true → h.writeStart length = h.cursor) := by
  have hfits := hop.2.2.2 rfl
  unfold Memory.Handle.writeStart
  cases hmode : h.append with
  | true =>
    rw [hmode, if_pos rfl] at hfits
    exact ⟨Nat.le_refl _, fun hp => (hfits hp).symm⟩
  | false =>
    rw [hmode, if_neg Bool.false_ne_true] at hfits
    exact ⟨hfits, fun _ => rfl⟩

end FileOperation

/-- Every call is an ordinary one when its turn comes. -/
def OrdinaryUses : Bool → OpenFile Memory.Handle × Memory → List Use → Prop
  | _, _, [] => True
  | placed, s, u :: rest =>
    u.op.Ordinary placed s.1.handle (s.2.content s.1.handle.cell).data.length ∧
      let r := OpenFile.perform u.op s
      OrdinaryUses (placed || (u.op.setsPosition && r.1.isOk)) r.2 rest

instance : (placed : Bool) → (s : OpenFile Memory.Handle × Memory) → (uses : List Use) →
    Decidable (OrdinaryUses placed s uses)
  | _, _, [] => .isTrue trivial
  | placed, s, u :: rest =>
    let r := OpenFile.perform u.op s
    have : Decidable (OrdinaryUses (placed || (u.op.setsPosition && r.1.isOk)) r.2 rest) :=
      instDecidableOrdinaryUses _ _ rest
    inferInstanceAs (Decidable (_ ∧ _))

section Handles

/-- A handle in memory and a descriptor on files with the same data, which may do the same and
are at the same position if it has been set. One that has not been set is that of a handle
that appends. -/
structure Alike (c : CellId) (i : NodeId) (placed : Bool) (h : Memory.Handle) (m : Memory)
    (d : Descriptor) (t : Tree) : Prop where
  cell : h.cell = c
  cell_lt : h.cell < m.cells.length
  isOpen : h.closed = false
  writable : h.writable = true
  node : d.node = i
  maySet : d.writable = true
  readable : d.readable = h.readable
  append : d.append = h.append
  data : t.HoldsData i (m.content h.cell).data
  position : placed = true → d.offset = h.cursor
  start : placed = false → d.offset = 0 ∧ h.append = true

variable {c : CellId} {i : NodeId} {placed placed' : Bool} {h h' : Memory.Handle}
  {m m' : Memory} {d d' : Descriptor} {t t' : Tree} {name name' : Path}
  {op : FileOperation ε α}

/-- The two handles give the same answer, or both give none, and are alike afterwards. -/
def AlikeAfter (c : CellId) (i : NodeId) (placed : Bool) (op : FileOperation ε α)
    (r : Except ε α × Memory.Handle × Memory) (r' : Except ε α × FileHandle × Tree) : Prop :=
  r.1.toOption = r'.1.toOption ∧ ∃ d, r'.2.1 = ⟨some d⟩ ∧
    Alike c i (placed || (op.setsPosition && r.1.isOk)) r.2.1 r.2.2 d r'.2.2

/-- Handles that have been moved in the same way. -/
theorem Alike.moved (halike : Alike c i placed h m d t) {cursor offset : Nat}
    (hplaced : placed' = true → offset = cursor)
    (hstart : placed' = false → offset = 0 ∧ h.append = true) :
    Alike c i placed' { h with cursor } m { d with offset } t :=
  { halike with position := hplaced, start := hstart }

/-- The same change on both sides. -/
theorem Alike.changed (halike : Alike c i placed h m d t) (e : Edit) (perm : Permissions)
    {data : Bytes} (hdata : data = e.apply (m.content h.cell).data) :
    Alike c i placed h (m.edited h.cell e) d (t.put d.node (.file perm data)) := by
  have hlength : (m.edited h.cell e).cells.length = m.cells.length := List.length_modify ..
  refine { halike with cell_lt := ?_, data := ⟨perm, ?_⟩ }
  · rw [hlength]
    exact halike.cell_lt
  · rw [Memory.content_edited halike.cell_lt e, Tree.node?_put, if_pos halike.node.symm, hdata]

/-- A change that leaves the data as it is may be made on one side only. -/
theorem Alike.unchanged (halike : Alike c i placed h m d t) (e : Edit)
    (hdata : e.apply (m.content h.cell).data = (m.content h.cell).data) :
    Alike c i placed h (m.edited h.cell e) d t := by
  have hlength : (m.edited h.cell e).cells.length = m.cells.length := List.length_modify ..
  refine { halike with cell_lt := ?_, data := ?_ }
  · rw [hlength]
    exact halike.cell_lt
  · rw [Memory.content_edited halike.cell_lt e, hdata]
    exact halike.data

/-- Nothing laid over data changes it, unless it is laid behind the end. -/
theorem overwrite_empty {start : Nat} {data : Bytes} (hstart : start ≤ data.length) :
    Bytes.overwrite start [] data = data := by
  simp [Bytes.overwrite, Nat.sub_eq_zero_of_le hstart]

/-- Where data goes on the host. -/
theorem Alike.writeStart_eq (halike : Alike c i placed h m d t) :
    (if d.append then (m.content h.cell).data.length else d.offset) =
      h.writeStart (m.content h.cell).data.length := by
  unfold Memory.Handle.writeStart
  rw [halike.append]
  cases hmode : h.append with
  | true => rfl
  | false =>
    cases placed with
    | true => simpa using halike.position rfl
    | false =>
      have happend := (halike.start rfl).2
      rw [hmode] at happend
      cases happend

section Calls

theorem AlikeAfter.answered {a : α} {r : Except ε α × Memory.Handle × Memory}
    {r' : Except ε α × FileHandle × Tree} (hrun : r = (.ok a, h', m'))
    (hrun' : r' = (.ok a, ⟨some d'⟩, t'))
    (hnext : Alike c i (placed || op.setsPosition) h' m' d' t') :
    AlikeAfter c i placed op r r' := by
  subst hrun hrun'
  refine ⟨rfl, d', rfl, ?_⟩
  simpa [Except.isOk, Except.toBool] using hnext

/-- A call that does not set the position. -/
theorem Alike.kept (halike : Alike c i placed h m d t) (hsets : op.setsPosition = false) :
    Alike c i (placed || op.setsPosition) h m d t := by
  rw [hsets, Bool.or_false]
  exact halike

theorem mapError_of_run {x : Action FileError (Memory.Handle × Memory) α}
    {s s' : Memory.Handle × Memory} {r : Except FileError α} (hrun : x s = (r, s')) :
    x.mapError IoError.filesystem s = (r.mapError .filesystem, s') := by
  rw [Action.mapError_apply, hrun]

variable (halike : Alike c i placed h m d t)

include halike

theorem Alike.refused {e e' : ε} {r : Except ε α × Memory.Handle × Memory}
    {r' : Except ε α × FileHandle × Tree} (hrun : r = (.error e, h, m))
    (hrun' : r' = (.error e', ⟨some d⟩, t)) : AlikeAfter c i placed op r r' := by
  subst hrun hrun'
  refine ⟨rfl, d, rfl, ?_⟩
  simpa [Except.isOk, Except.toBool] using halike

theorem Alike.node_eq : t.HoldsData d.node (m.content h.cell).data := by
  rw [halike.node]
  exact halike.data

theorem Alike.read {n : Nat}
    (hop : (FileOperation.read n).Ordinary placed h (m.content h.cell).data.length) :
    AlikeAfter c i placed (.read n) ((FileOperation.read n).onDevice name (h, m))
      ((FileOperation.read n).onDevice name' (⟨some d⟩, t)) := by
  obtain ⟨perm, hnode⟩ := halike.node_eq
  cases hread : h.readable with
  | false =>
    exact halike.refused (mapError_of_run (Memory.Handle.read_unreadable halike.isOpen hread n))
      (FileHandle.onDescriptor_apply (Descriptor.read_unreadable (halike.readable.trans hread) n))
  | true =>
    obtain ⟨hset, hrange, hfound⟩ := hop hread
    have hrun := Memory.Handle.read_apply (m := m) halike.isOpen hread n
    cases placed with
    | true =>
      have hoffset := halike.position rfl
      have hrun' := Descriptor.read_apply hnode (halike.readable.trans hread) (hoffset ▸ hrange)
      rw [hoffset, Bytes.slice_min hfound] at hrun'
      exact .answered (mapError_of_run hrun) (FileHandle.onDescriptor_apply hrun')
        (halike.moved (fun _ => rfl) nofun)
    | false =>
      -- Nothing is read, and nothing is moved.
      obtain ⟨hoffset, happend⟩ := halike.start rfl
      have hn : n = 0 := by simpa using hset
      subst hn
      have hrun' := Descriptor.read_apply hnode (n := 0) (halike.readable.trans hread)
        (by omega)
      exact .answered (mapError_of_run hrun) (FileHandle.onDescriptor_apply hrun')
        (halike.moved nofun fun _ => ⟨by simp [hoffset], happend⟩)

theorem Alike.write {data : Bytes}
    (hop : (FileOperation.write data).Ordinary placed h (m.content h.cell).data.length) :
    AlikeAfter c i placed (.write data) ((FileOperation.write data).onDevice name (h, m))
      ((FileOperation.write data).onDevice name' (⟨some d⟩, t)) := by
  obtain ⟨perm, hnode⟩ := halike.node_eq
  have hrange : d.offset + data.length ≤ Descriptor.maxOffset := by
    cases placed with
    | true =>
      rw [halike.position rfl]
      exact hop.2.1
    | false =>
      rw [(halike.start rfl).1]
      exact Nat.le_trans (Nat.add_le_add_right (Nat.zero_le h.cursor) _) hop.2.1
  have hrun := Memory.Handle.write_apply (m := m) halike.isOpen halike.writable
    (FileOperation.writeStart_add_lt hop)
  by_cases hdata : data = []
  · -- On the host there is no change to make, and in memory it is one that changes nothing.
    subst hdata
    obtain ⟨hstart, hcursor⟩ := FileOperation.writeStart_of_empty hop
    have hrun' := Descriptor.write_nil_apply hnode halike.maySet hrange
    refine .answered (mapError_of_run hrun) (FileHandle.onDescriptor_apply hrun') ?_
    refine (halike.unchanged (.put (some _) []) (overwrite_empty hstart)).moved ?_ ?_
    · intro hp
      have hp' : placed = true := by simpa [FileOperation.setsPosition] using hp
      rw [halike.position hp', hcursor hp']
      rfl
    · intro hp
      exact halike.start (by simpa [FileOperation.setsPosition] using hp)
  · have hrun' := Descriptor.write_apply hnode halike.maySet hdata hrange
    rw [halike.writeStart_eq, List.take_of_length_le hop.1] at hrun'
    refine .answered (mapError_of_run hrun) (FileHandle.onDescriptor_apply hrun') ?_
    refine (halike.changed _ _ ?_).moved (fun _ => rfl) ?_
    · simp [Edit.apply]
    · simp [FileOperation.setsPosition, hdata]

theorem Alike.seek {target : SeekTarget}
    (hop : (FileOperation.seek target).Ordinary placed h (m.content h.cell).data.length) :
    AlikeAfter c i placed (.seek target) ((FileOperation.seek target).onDevice name (h, m))
      ((FileOperation.seek target).onDevice name' (⟨some d⟩, t)) := by
  obtain ⟨perm, hnode⟩ := halike.node_eq
  have hboth :
      Memory.Handle.targetPosition h.cursor (m.content h.cell).data.length target ≤
        Descriptor.maxOffset ∧
      (placed = false → (FileOperation.seek target).setsPosition = true) ∧
      Memory.Handle.targetPosition d.offset (m.content h.cell).data.length target =
        Memory.Handle.targetPosition h.cursor (m.content h.cell).data.length target := by
    cases target with
    | start offset => exact ⟨Int.ofNat_le.2 hop, fun _ => rfl, rfl⟩
    | fromEnd delta => exact ⟨hop, fun _ => rfl, rfl⟩
    | fromCurrent delta =>
      obtain ⟨hp, hrange⟩ := hop
      subst hp
      exact ⟨hrange, nofun, by rw [halike.position rfl]⟩
  obtain ⟨hrange, hsets, hsame⟩ := hboth
  have hposition : Memory.Handle.targetPosition h.cursor (m.content h.cell).data.length target =
      Memory.Handle.targetPosition h.cursor (m.content h.cell).data.length target := rfl
  have hrun := Memory.Handle.seek_apply (m := m) halike.isOpen hposition
  have hrun' := Descriptor.seek_apply hnode hsame
  generalize Memory.Handle.targetPosition h.cursor (m.content h.cell).data.length target =
    position at hrun hrun' hrange
  by_cases hnegative : position < 0
  · rw [if_pos (.inl hnegative)] at hrun hrun'
    exact halike.refused hrun (FileHandle.onDescriptor_apply hrun')
  · have hbelow : ¬ (position < 0 ∨ position ≥ positionBound) := by
      simp only [Descriptor.maxOffset] at hrange
      simp only [positionBound]
      omega
    have hbelow' : ¬ (position < 0 ∨ position > Descriptor.maxOffset) := by omega
    rw [if_neg hbelow] at hrun
    rw [if_neg hbelow'] at hrun'
    refine .answered hrun (FileHandle.onDescriptor_apply hrun')
      (halike.moved (fun _ => rfl) fun hp => ?_)
    cases placed with
    | true => simp at hp
    | false => simp [hsets rfl] at hp

theorem Alike.readAt {n offset : Nat}
    (hop : (FileOperation.readAt n offset).Ordinary placed h (m.content h.cell).data.length) :
    AlikeAfter c i placed (.readAt n offset)
      ((FileOperation.readAt n offset).onDevice name (h, m))
      ((FileOperation.readAt n offset).onDevice name' (⟨some d⟩, t)) := by
  obtain ⟨perm, hnode⟩ := halike.node_eq
  obtain ⟨hnothing, hrange⟩ := hop
  cases hread : h.readable with
  | false =>
    have hn : n ≠ 0 := fun hn => by simp [hnothing hn] at hread
    have hcall := Descriptor.preadAll_unreadable (t := t) (halike.readable.trans hread) hn
      (Nat.le_trans (Nat.le_add_right offset n) hrange)
    exact halike.refused (Memory.Handle.readAt_unreadable halike.isOpen hread n offset)
      (FileHandle.control_apply hcall)
  | true =>
    have hcall := Descriptor.preadAll_apply hnode (halike.readable.trans hread) hrange
    exact .answered (Memory.Handle.readAt_apply halike.isOpen hread n offset)
      (FileHandle.control_apply hcall) (halike.kept rfl)

theorem Alike.writeAt {data : Bytes} {offset : Nat}
    (hop : (FileOperation.writeAt data offset).Ordinary placed h (m.content h.cell).data.length) :
    AlikeAfter c i placed (.writeAt data offset)
      ((FileOperation.writeAt data offset).onDevice name (h, m))
      ((FileOperation.writeAt data offset).onDevice name' (⟨some d⟩, t)) := by
  obtain ⟨perm, hnode⟩ := halike.node_eq
  obtain ⟨hrange, hwhere⟩ := hop
  have hbound : offset + data.length < positionBound := by
    simp only [Descriptor.maxOffset] at hrange
    simp only [positionBound]
    omega
  have hrun := Memory.Handle.writeAt_apply (m := m) halike.isOpen halike.writable hbound
  have hhost : ∀ {t' : Tree},
      Descriptor.pwriteAll data offset (d, t) = (.ok (), d, t') →
      (FileOperation.writeAt data offset).onDevice name' ((⟨some d⟩ : FileHandle), t) =
        (.ok data.length, ⟨some d⟩, t') := fun hcall =>
    Action.bind_apply_of_ok (FileHandle.control_apply hcall)
  by_cases hdata : data = []
  · subst hdata
    rw [if_pos rfl] at hwhere
    have hnext := halike.unchanged (.put (some offset) []) (overwrite_empty hwhere)
    exact .answered hrun (hhost rfl) (hnext.kept rfl)
  · rw [if_neg hdata] at hwhere
    have hcall :=
      Descriptor.pwriteAll_apply hnode halike.maySet (halike.append.trans hwhere) hdata hrange
    have hnext := halike.changed (.put (some offset) data) perm.changed rfl
    exact .answered hrun (hhost hcall) (hnext.kept rfl)

theorem Alike.truncate {size : Nat}
    (hop : (FileOperation.truncate size).Ordinary placed h (m.content h.cell).data.length) :
    AlikeAfter c i placed (.truncate size) ((FileOperation.truncate size).onDevice name (h, m))
      ((FileOperation.truncate size).onDevice name' (⟨some d⟩, t)) := by
  obtain ⟨perm, hnode⟩ := halike.node_eq
  have hrun' := Descriptor.resize_apply hnode halike.maySet hop
  have hnext := halike.changed (.resize size) perm.changed rfl
  exact .answered (Memory.Handle.truncate_apply halike.isOpen halike.writable size)
    (FileHandle.control_apply hrun') (hnext.kept rfl)

/-- What is done with alike handles comes to the same. -/
theorem Alike.onDevice (hop : op.Ordinary placed h (m.content h.cell).data.length) :
    AlikeAfter c i placed op (op.onDevice name (h, m)) (op.onDevice name' (⟨some d⟩, t)) := by
  cases op with
  | read n => exact halike.read hop
  | write data => exact halike.write hop
  | seek target => exact halike.seek hop
  | readAt n offset => exact halike.readAt hop
  | writeAt data offset => exact halike.writeAt hop
  | truncate size => exact halike.truncate hop
  | _ => exact hop.elim

end Calls

end Handles

section Files

variable {c : CellId} {i : NodeId} {placed : Bool} {s : OpenFile Memory.Handle × Memory}
  {s' : OpenFile FileHandle × Tree}

/-- Open files with alike handles. -/
def AlikeFiles (c : CellId) (i : NodeId) (placed : Bool) (s : OpenFile Memory.Handle × Memory)
    (s' : OpenFile FileHandle × Tree) : Prop :=
  ∃ d, s'.1.handle = ⟨some d⟩ ∧ Alike c i placed s.1.handle s.2 d s'.2

theorem AlikeFiles.perform (halike : AlikeFiles c i placed s s') {op : FileOperation ε α}
    (hop : op.Ordinary placed s.1.handle (s.2.content s.1.handle.cell).data.length) :
    (OpenFile.perform op s).1.toOption = (OpenFile.perform op s').1.toOption ∧
      AlikeFiles c i (placed || (op.setsPosition && (OpenFile.perform op s).1.isOk))
        (OpenFile.perform op s).2 (OpenFile.perform op s').2 := by
  obtain ⟨f, m⟩ := s
  obtain ⟨f', t⟩ := s'
  obtain ⟨d, hd, hhandles⟩ := halike
  have hd' : f'.handle = ⟨some d⟩ := hd
  have hafter : AlikeAfter c i placed op (op.onDevice f.name (f.handle, m))
      (op.onDevice f'.name (⟨some d⟩, t)) := hhandles.onDevice hop
  rw [OpenFile.perform_apply, OpenFile.perform_apply, hd']
  exact hafter

/-- The induction is on the calls before the last one. -/
theorem AlikeFiles.useAll (halike : AlikeFiles c i placed s s') (uses : List Use)
    (op : FileOperation ε α) (hordinary : OrdinaryUses placed s (uses ++ [⟨op⟩])) :
    (OpenFile.perform op (OpenFile.useAll s uses)).1.toOption =
        (OpenFile.perform op (OpenFile.useAll s' uses)).1.toOption ∧
      ∃ placed, AlikeFiles c i placed (OpenFile.perform op (OpenFile.useAll s uses)).2
        (OpenFile.perform op (OpenFile.useAll s' uses)).2 := by
  induction uses generalizing placed s s' with
  | nil =>
    obtain ⟨hanswer, hnext⟩ := halike.perform hordinary.1
    exact ⟨hanswer, _, hnext⟩
  | cons u uses ih =>
    obtain ⟨hfirst, hrest⟩ := hordinary
    exact ih (halike.perform hfirst).2 hrest

end Files

section Opening

variable {o : OpenOptions} {p : Path}

/-- Opening a file in memory that is there. -/
theorem Memory.triple_openFile_found {m : Memory} {c : CellId} (hm : m.WellFormed)
    (hfile : m.fileOf p = some c) : Triple (· = m) (Memory.openFile p o)
      (fun f m' => f.handle = Memory.Handle.ofCell m' c o ∧ c < m'.cells.length ∧
        (m'.content c).data = if o.truncate then [] else (m.content c).data)
      fun _ _ => True := by
  have hopen : Triple (· = m) (Memory.openFile p o)
      (fun f m' => f.handle = Memory.Handle.ofCell m' c o ∧ c < m'.cells.length ∧
        (m'.content c).data = if o.truncate then [] else (m.content c).data)
      fun _ m' => m' = m := by
    refine triple_openFile_of (triple_fileFor hm p o) (fun _ hc => found_of_fileAt hm hc) ?_
    intro c' m₁ hfound
    have hlt : c < m.cells.length := by
      obtain ⟨k, _, hnode⟩ := fileOf_eq_some_iff.1 hfile
      exact hm.cell_lt_of_nodeAt hnode
    have hsame : c' = c := (hfound.cell_eq_iff hlt).2 hfile
    subst hsame
    have hlt₁ := Nat.lt_of_lt_of_le hlt hfound.grows.cells.length_le
    refine ⟨rfl, Nat.lt_of_lt_of_le hlt₁
      (evolves_emptied (Evolves.refl hfound.wellFormed) c' o).cells, ?_⟩
    rw [data_emptied hlt₁, hfound.grows.content_eq hlt]
    simp
  exact hopen.onError fun _ _ _ => trivial

namespace Os.Call

variable {t : Tree} {i : NodeId} {data : Bytes} {f : OpenFlags}

/-- Opening a file gives a descriptor on it. -/
theorem triple_openNode_file (hfile : t.HoldsData i data) :
    Triple (· = t) (openNode f i)
      (fun d u => d = descriptor f i ∧ u.HoldsData i (if f.truncate then [] else data))
      fun _ _ => True := by
  obtain ⟨perm, hnode⟩ := hfile
  have hdemand : ∀ a, Keeps (· = t) (demand a i) := fun a => .query _
  have hfinish : Triple (· = t) (do
      if f.truncate then truncate i
      return descriptor f i : Call Descriptor)
      (fun d u => d = descriptor f i ∧ u.HoldsData i (if f.truncate then [] else data))
      fun _ _ => True := by
    cases htruncate : f.truncate with
    | false =>
      apply Triple.pure
      rintro s rfl
      exact ⟨rfl, perm, hnode⟩
    | true =>
      refine Triple.bind (Q := fun _ u => u = t.put i (.file perm.changed []))
        (Triple.update ?_) fun _ => Triple.pure ?_
      · rintro s rfl
        rw [hnode]
      · rintro s rfl
        exact ⟨rfl, _, (Tree.node?_put ..).trans (if_pos rfl)⟩
  unfold openNode
  refine Triple.guarded (fun _ _ _ => trivial) fun _ => Triple.look_bind ?_
  rw [hnode]
  unfold granted
  refine Keeps.whenThen (hdemand .read) (fun _ _ _ => trivial) ?_
  refine Keeps.whenThen (hdemand .write) (fun _ _ _ => trivial) ?_
  exact Triple.look_bind (Triple.guarded (fun _ _ _ => trivial) fun _ => hfinish)

end Os.Call

/-- Where the lookup finds the file, opening opens it. -/
theorem Host.triple_openAt_found {t u : Tree} {i : NodeId} {data : Bytes} {p : Path} {place : Place}
    {strict : Bool} (ht : t.Sound) (hfind : t.find p .follow = .ok i)
    (hfile : t.HoldsData i data) (hnew : o.createNew = false) (hu : Call.Gained t u)
    (hresolve : u.resolve p (openFlags o).lastLink = .ok (place, strict)) :
    Triple (· = u) (Call.openAt (openFlags o) place strict)
      (fun d v => d = Call.descriptor (openFlags o) i ∧
        v.HoldsData i (if o.truncate then [] else data))
      fun _ _ => True := by
  have hexclusive : (openFlags o).exclusive = false := hnew
  unfold Call.openAt
  refine Triple.guarded (fun _ _ _ => trivial) fun hcreate => ?_
  have hfollow : u.resolve p .follow = .ok (place, strict) := by
    cases hmode : (openFlags o).create with
    | false => simpa [OpenFlags.lastLink, hexclusive, hmode] using hresolve
    | true =>
      have hstrict : strict = false := by simpa [hmode] using hcreate
      subst hstrict
      exact Tree.resolve_create (by simpa [OpenFlags.lastLink, hexclusive, hmode] using hresolve)
  obtain ⟨_, _, hsame, hplace, _⟩ := Tree.find_eq_ok_iff.1 (hu.1.find ht hfind)
  rw [hfollow] at hsame
  cases hsame
  refine Triple.query_bind (fun found hfound => ?_) fun _ _ => trivial
  rw [Tree.occupant_of_existing hplace] at hfound
  cases hfound
  refine Triple.look_bind (Triple.guarded (fun _ _ _ => trivial) fun _ => ?_)
  have hkept : u.HoldsData i data := by
    obtain ⟨perm, hnode⟩ := hfile
    exact ⟨perm, hu.1.others hnode (by simp [Tree.isDir, Tree.dir?, hnode])⟩
  have htruncate : (openFlags o).truncate = o.truncate := by simp [openFlags, hnew]
  have hopen := Call.triple_openNode_file (f := openFlags o) hkept
  rw [htruncate] at hopen
  exact hopen

/-- Opening a file on the host that is there. -/
theorem Host.triple_openFile_found {t : Tree} {i : NodeId} {data : Bytes} {h : Host}
    (ht : t.Sound) (hfind : t.find (h.place p) .follow = .ok i) (hfile : t.HoldsData i data)
    (hnew : o.createNew = false) :
    Triple (· = t) (h.openFile p o)
      (fun f u => f.handle = ⟨some (Call.descriptor (openFlags o) i)⟩ ∧
        u.HoldsData i (if o.truncate then [] else data))
      fun _ _ => True := by
  have hopen : Triple (Call.Gained t) (h.openFile p o)
      (fun f u => f.handle = ⟨some (Call.descriptor (openFlags o) i)⟩ ∧
        u.HoldsData i (if o.truncate then [] else data))
      fun _ _ => True := by
    unfold openFile
    refine Keeps.whenThen (keeps_ensureAbove (Call.keeps_gained_mkdir t) _)
      (fun _ _ _ => trivial) (Triple.of_fixed fun u hu => ?_)
    refine Triple.bind (Triple.mapError (Q := fun d v => d = Call.descriptor (openFlags o) i ∧
      v.HoldsData i (if o.truncate then [] else data)) ?_) fun d => ?_
    · exact Triple.query_bind
        (fun _ hfound => triple_openAt_found ht hfind hfile hnew hu hfound) fun _ _ => trivial
    · apply Triple.pure
      rintro v ⟨rfl, hfile⟩
      exact ⟨rfl, hfile⟩
  exact hopen.fix ⟨.refl _, ht⟩

end Opening

/-- Two files with the same data, one in memory and one on the host, opened by the same
request for writing: as long as the calls are ordinary ones, each of them gives the same
answer on both sides or fails on both, and leaves the same data. -/
theorem uses_alike {m m' : Memory} {t t' : Tree} {h : Host} {p q : Path} {o : OpenOptions}
    {c : CellId} {i : NodeId} {data : Bytes} {f : OpenFile Memory.Handle} {f' : OpenFile FileHandle}
    (hm : m.WellFormed) (ht : t.Sound) (hwrite : o.writable = true) (hnew : o.createNew = false)
    (hfile : m.fileOf p = some c) (hdata : (m.content c).data = data)
    (hfound : t.find (h.place q) .follow = .ok i) (hdata' : t.HoldsData i data)
    (hopen : Memory.fileSystem.openFile p o m = (.ok f, m'))
    (hopen' : h.fileSystem.openFile q o t = (.ok f', t')) (uses : List Use)
    (op : FileOperation ε α)
    (hordinary : OrdinaryUses (f.handle.cursor = 0) (f, m') (uses ++ [⟨op⟩])) :
    let r := OpenFile.perform op (OpenFile.useAll (f, m') uses)
    let r' := OpenFile.perform op (OpenFile.useAll (f', t') uses)
    r.1.toOption = r'.1.toOption ∧ r'.2.2.HoldsData i (r.2.2.content c).data := by
  intro r r'
  obtain ⟨hhandle, hlt, hcontent⟩ := (Memory.triple_openFile_found hm hfile).of_ok rfl hopen
  obtain ⟨hhandle', hholds⟩ :=
    (Host.triple_openFile_found ht hfound hdata' hnew).of_ok rfl hopen'
  have halike : AlikeFiles c i (f.handle.cursor = 0) (f, m') (f', t') := by
    refine ⟨_, hhandle', ?_⟩
    have hsame : t'.HoldsData i (m'.content c).data := by
      rw [hcontent, hdata]
      exact hholds
    dsimp only
    rw [hhandle]
    constructor
    case cell => rfl
    case cell_lt => exact hlt
    case isOpen => rfl
    case writable => exact hwrite
    case node => rfl
    case maySet => simp [Call.descriptor, Host.openFlags, hwrite]
    case readable => rfl
    case append => rfl
    case data => exact hsame
    case position => exact fun hstart => (of_decide_eq_true hstart).symm
    case start =>
      intro hend
      refine ⟨rfl, ?_⟩
      cases happend : o.append with
      | true => simp [Memory.Handle.ofCell, happend]
      | false => simp [Memory.Handle.ofCell, happend] at hend
  obtain ⟨hanswer, placed, d, _, hlast⟩ := halike.useAll uses op hordinary
  refine ⟨hanswer, ?_⟩
  rw [← hlast.cell]
  exact hlast.data

section Scene

private def noteName : Name := ⟨[102], rfl⟩

private def notePath : Path := ⟨[102]⟩

/-- A memory with a file of three bytes. -/
private def noteMemory : Memory :=
  (Memory.Session.run [.openFile notePath .touching, .toFile 0 (.write [1, 2, 3])]).memory

private def noteDescriptor : Descriptor :=
  Call.descriptor (Host.openFlags .touching) (Tree.top.child 0)

/-- A tree with the same file. -/
private def noteTree : Tree :=
  (Descriptor.write [1, 2, 3] (noteDescriptor, (Call.openAt (Host.openFlags .touching)
    (.entry Tree.top noteName) false .fresh).2)).2.2

private theorem sound_noteTree : noteTree.Sound :=
  ((Tree.Reachable.fresh.openAt (Host.openFlags .touching) (.entry Tree.top noteName) false).write
    noteDescriptor [1, 2, 3]).sound

private def appending : OpenOptions := { read := true, append := true }

private def writing : OpenOptions := { write := true }

private def noteFile (o : OpenOptions) : OpenFile Memory.Handle × Memory :=
  ({ handle := .ofCell noteMemory 1 o, path := notePath }, noteMemory)

private def noteFile' (o : OpenOptions) : OpenFile FileHandle × Tree :=
  ({ handle := ⟨some (Call.descriptor (Host.openFlags o) (Tree.top.child 0))⟩, path := notePath },
    noteTree)

theorem uses_alike_appending :
    let uses : List Use := [⟨.write [9]⟩, ⟨.seek (.start 1)⟩, ⟨.read 2⟩]
    let r := OpenFile.perform (.seek (.fromCurrent 0)) (OpenFile.useAll (noteFile appending) uses)
    let r' := OpenFile.perform (.seek (.fromCurrent 0)) (OpenFile.useAll (noteFile' appending) uses)
    r.1.toOption = r'.1.toOption ∧ r'.2.2.HoldsData (Tree.top.child 0) (r.2.2.content 1).data := by
  intro uses
  have hdata : (noteMemory.content 1).data = [1, 2, 3] := rfl
  exact uses_alike (m := noteMemory) (t := noteTree) (h := Host.whole) (p := notePath)
    (q := notePath) (o := appending) (Memory.Session.wellFormed_run _) sound_noteTree rfl rfl
    (by decide) hdata rfl ⟨_, rfl⟩ rfl rfl uses _ (by decide)

/-- In memory all bytes are written with one call. -/
private theorem write_noteFile {data : Bytes} (hdata : data.length < positionBound) :
    (OpenFile.write data (noteFile writing)).1 = .ok data.length := by
  have hbound : (Memory.Handle.ofCell noteMemory 1 writing).writeStart
      (noteMemory.content 1).data.length + data.length < positionBound := by
    rw [show (Memory.Handle.ofCell noteMemory 1 writing).writeStart
      (noteMemory.content 1).data.length = 0 from rfl, Nat.zero_add]
    exact hdata
  exact congrArg Prod.fst (mapError_of_run (Memory.Handle.write_apply rfl rfl hbound))

/-- On the host one call does not write more than it moves. -/
private theorem write_noteFile' {data : Bytes} (hdata : data ≠ [])
    (hrange : data.length ≤ Descriptor.maxOffset) :
    (OpenFile.write data (noteFile' writing)).1 =
      .ok (data.take Descriptor.maxTransfer).length := by
  have hnode : noteTree.node? (Tree.top.child 0) = some (.file (0o644 : Permissions) [1, 2, 3]) :=
    rfl
  have hwrite := Descriptor.write_apply
    (d := Call.descriptor (Host.openFlags writing) (Tree.top.child 0)) hnode rfl hdata
    (by rw [show (Call.descriptor (Host.openFlags writing) (Tree.top.child 0)).offset = 0 from rfl,
      Nat.zero_add]; exact hrange)
  exact congrArg Prod.fst (FileHandle.onDescriptor_apply hwrite)

/-- A handle that appends starts elsewhere and writes elsewhere at an offset, nothing is or is
not written behind the end, nothing may or may not be read, the positions end elsewhere, and one
call moves all or not all of the bytes. -/
theorem uses_differ :
    (∀ o ∈ [appending, writing],
      Memory.fileSystem.openFile notePath o noteMemory = (.ok (noteFile o).1, noteMemory) ∧
      Host.whole.fileSystem.openFile notePath o noteTree = (.ok (noteFile' o).1, noteTree)) ∧
    (OpenFile.position (noteFile appending)).1 = .ok 3 ∧
    (OpenFile.position (noteFile' appending)).1 = .ok 0 ∧
    ((OpenFile.writeAt [9] 0 (noteFile appending)).2.2.content 1).data = [9, 2, 3] ∧
    (OpenFile.writeAt [9] 0 (noteFile' appending)).2.2.HoldsData (Tree.top.child 0) [1, 2, 3, 9] ∧
    ((OpenFile.writeAt [] 5 (noteFile writing)).2.2.content 1).data = [1, 2, 3, 0, 0] ∧
    (OpenFile.writeAt [] 5 (noteFile' writing)).2.2.HoldsData (Tree.top.child 0) [1, 2, 3] ∧
    (OpenFile.readAt 0 0 (noteFile writing)).1 = .error .permissionDenied ∧
    (OpenFile.readAt 0 0 (noteFile' writing)).1 = .ok [] ∧
    (OpenFile.seek (.start 0x8000000000000000) (noteFile writing)).1 =
      .ok 0x8000000000000000 ∧
    (OpenFile.seek (.start 0x8000000000000000) (noteFile' writing)).1.isOk = false ∧
    let many : Bytes := List.replicate (Descriptor.maxTransfer + 1) 0
    (OpenFile.write many (noteFile writing)).1 = .ok (Descriptor.maxTransfer + 1) ∧
    (OpenFile.write many (noteFile' writing)).1 = .ok Descriptor.maxTransfer := by
  refine ⟨?_, rfl, rfl, rfl, ⟨_, rfl⟩, rfl, ⟨_, rfl⟩, rfl, rfl, rfl, rfl, ?_⟩
  · exact List.forall_mem_cons.2 ⟨⟨rfl, rfl⟩, List.forall_mem_singleton.2 ⟨rfl, rfl⟩⟩
  · intro many
    have hlength : many.length = Descriptor.maxTransfer + 1 := List.length_replicate
    have hsome : many ≠ [] := List.ne_nil_of_length_eq_add_one hlength
    have htaken : (many.take Descriptor.maxTransfer).length = Descriptor.maxTransfer := by
      rw [List.length_take, hlength, Nat.min_eq_left (Nat.le_succ _)]
    rw [write_noteFile (by rw [hlength]; decide), write_noteFile' hsome (by rw [hlength]; decide),
      hlength, htaken]
    exact ⟨rfl, rfl⟩

end Scene

end ConfinedFs
