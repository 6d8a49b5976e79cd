import ConfinedFs.Proofs.Memory.Handles
import ConfinedFs.Proofs.Memory.Mirror

/-!
Handles on corresponding files of two trees that mirror one another. Handles that are at
the same position and may do the same things answer alike, whatever is asked of them, and
change the two files alike.
-/

namespace ConfinedFs.Memory

open ConfinedFs.Action (Respects)

variable {ε α : Type} {b b' : Key} {m₀ n₀ : Memory} {R : CellId → CellId → Prop}

namespace Handle

variable {s t : Handle × Memory}

/-- Handles on corresponding cells that are the same otherwise. -/
structure Twin (R : CellId → CellId → Prop) (h h' : Handle) : Prop where
  cell : R h.cell h'.cell
  same : h' = { h with cell := h'.cell }

/-- Twin handles, each with the tree that its file is in. -/
structure Twins (R : CellId → CellId → Prop) (b b' : Key) (m₀ n₀ : Memory)
    (s t : Handle × Memory) : Prop where
  mirror : Mirror R b b' m₀ n₀ s.2 t.2
  handles : s.1.Twin R t.1

namespace Twins

theorem data_eq (h : Twins R b b' m₀ n₀ s t) : data s = data t :=
  congrArg Content.data (h.mirror.contents h.handles.cell)

theorem moveTo (h : Twins R b b' m₀ n₀ s t) (position : Nat) :
    Twins R b b' m₀ n₀ (moveTo position s) (moveTo position t) :=
  ⟨h.mirror, h.handles.cell, congrArg (fun h => { h with cursor := position }) h.handles.same⟩

theorem putData (h : Twins R b b' m₀ n₀ s t) (f : Bytes → Bytes) :
    Twins R b b' m₀ n₀ (putData f s) (putData f t) :=
  ⟨h.mirror.modifyCell h.handles.cell _, h.handles⟩

theorem close (h : Twins R b b' m₀ n₀ s t) :
    Twins R b b' m₀ n₀ ({ s.1 with closed := true }, s.2) ({ t.1 with closed := true }, t.2) :=
  ⟨h.mirror, h.handles.cell, congrArg (fun h => { h with closed := true }) h.handles.same⟩

end Twins

section Operations

theorem respects_requireOpen : Respects (Twins R b b' m₀ n₀) requireOpen :=
  Respects.query fun _ _ h => by rw [h.handles.same]

theorem respects_requireReadable : Respects (Twins R b b' m₀ n₀) requireReadable :=
  respects_requireOpen.bind fun _ => Respects.query fun _ _ h => by rw [h.handles.same]

theorem respects_requireWritable : Respects (Twins R b b' m₀ n₀) requireWritable :=
  respects_requireOpen.bind fun _ => Respects.query fun _ _ h => by rw [h.handles.same]

/-- The position moves by as much. -/
theorem respects_advance (count : Nat) :
    Respects (Twins R b b' m₀ n₀) (Action.update fun s => moveTo (s.1.cursor + count) s :
      Action ε (Handle × Memory) Unit) := by
  apply Respects.update
  intro s t h
  have hcursor : s.1.cursor = t.1.cursor := by rw [h.handles.same]
  rw [← hcursor]
  exact h.moveTo _

theorem respects_store (bytes : Bytes) (offset : Option Nat) :
    Respects (Twins R b b' m₀ n₀) (store bytes offset) := by
  apply Respects.bind (Respects.look fun _ _ h => h.data_eq)
  intro data
  apply Respects.guarded
  exact Respects.bind (Respects.update fun _ _ h => h.putData _) fun _ => Respects.pure _

theorem respects_read (n : Nat) : Respects (Twins R b b' m₀ n₀) (read n) := by
  apply respects_requireReadable.bind
  intro _
  apply Respects.bind
  · apply Respects.look
    intro s t h
    rw [h.data_eq, h.handles.same]
  · intro found
    exact (respects_advance found.length).bind fun _ => Respects.pure _

theorem respects_readRest : Respects (Twins R b b' m₀ n₀) readRest := by
  apply respects_requireReadable.bind
  intro _
  apply Respects.bind
  · apply Respects.look
    intro s t h
    rw [h.data_eq, h.handles.same]
  · intro found
    exact (respects_advance found.length).bind fun _ => Respects.pure _

theorem respects_write (bytes : Bytes) : Respects (Twins R b b' m₀ n₀) (write bytes) := by
  apply respects_requireWritable.bind
  intro _
  apply Respects.bind
  · apply Respects.look
    intro s t h
    rw [h.handles.same]
  · intro offset
    apply (respects_store bytes offset).bind
    intro start
    exact Respects.bind (Respects.update fun _ _ h => h.moveTo _) fun _ => Respects.pure _

theorem respects_seek (target : SeekTarget) : Respects (Twins R b b' m₀ n₀) (seek target) := by
  apply (respects_requireOpen.mapError _).bind
  intro _
  apply Respects.bind
  · apply Respects.look
    intro s t h
    rw [h.data_eq, h.handles.same]
  · intro position
    apply Respects.guarded
    exact Respects.bind (Respects.update fun _ _ h => h.moveTo _) fun _ => Respects.pure _

theorem respects_readAt (n offset : Nat) : Respects (Twins R b b' m₀ n₀) (readAt n offset) :=
  respects_requireReadable.bind fun _ => Respects.look fun _ _ h => by rw [h.data_eq]

theorem respects_writeAt (bytes : Bytes) (offset : Nat) :
    Respects (Twins R b b' m₀ n₀) (writeAt bytes offset) :=
  respects_requireWritable.bind fun _ => (respects_store bytes _).bind fun _ => Respects.pure _

theorem respects_truncate (size : Nat) : Respects (Twins R b b' m₀ n₀) (truncate size) :=
  respects_requireWritable.bind fun _ => Respects.update fun _ _ h => h.putData _

theorem respects_metadata (p : Path) : Respects (Twins R b b' m₀ n₀) (metadata p) :=
  respects_requireOpen.bind fun _ => Respects.look fun _ _ h => by
    rw [h.mirror.contents h.handles.cell]

theorem respects_close : Respects (Twins R b b' m₀ n₀) Handle.close :=
  respects_requireOpen.bind fun _ => Respects.update fun _ _ h => h.close

theorem respects_onDevice (op : FileOperation ε α) (name : Path) :
    Respects (Twins R b b' m₀ n₀) (op.onDevice name : Action ε (Handle × Memory) α) := by
  cases op with
  | read n => exact (respects_read n).mapError _
  | readToEnd => exact respects_readRest.mapError _
  | write data => exact (respects_write data).mapError _
  | flush => exact respects_requireOpen.mapError _
  | seek target => exact respects_seek target
  | readAt n offset => exact respects_readAt n offset
  | writeAt data offset => exact respects_writeAt data offset
  | truncate size => exact respects_truncate size
  | metadata => exact respects_metadata name
  | lock => exact respects_requireOpen
  | unlock => exact respects_requireOpen
  | close => exact respects_close

/-- Of the name of a file only the last part is ever told. -/
theorem onDevice_congr (op : FileOperation ε α) {name name' : Path}
    (h : name.baseName = name'.baseName) :
    (op.onDevice name : Action ε (Handle × Memory) α) = op.onDevice name' := by
  cases op with
  | metadata =>
    show metadata name = metadata name'
    rw [metadata, metadata, h]
  | _ => rfl

end Operations

end Handle

end ConfinedFs.Memory
