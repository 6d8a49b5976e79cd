import ConfinedFs.Memory.Handle
import ConfinedFs.Proofs.Layer.Dialog
import ConfinedFs.Proofs.Triple

/-!
What an open file in memory can do. It moves its position, changes the data of the cell
it is open on, or is closed; whatever these three leave true is true after all of its
operations.
-/

namespace ConfinedFs.Memory.Handle

open ConfinedFs.Action (Keeps)

variable {P : Handle × Memory → Prop} {ε α : Type}

/-- What the changes of a handle itself leave true. -/
structure Moving (P : Handle × Memory → Prop) : Prop where
  moveTo : ∀ position s, P s → P (moveTo position s)
  close : ∀ s, P s → P ({ s.1 with closed := true }, s.2)

/-- What all changes that a handle can make leave true. -/
structure Stable (P : Handle × Memory → Prop) : Prop extends Moving P where
  putData : ∀ f s, P s → P (putData f s)

theorem keeps_requireOpen : Keeps P requireOpen := Keeps.query _

theorem keeps_requireReadable : Keeps P requireReadable :=
  Keeps.bind keeps_requireOpen fun _ => Keeps.query _

theorem keeps_requireWritable : Keeps P requireWritable :=
  Keeps.bind keeps_requireOpen fun _ => Keeps.query _

theorem keeps_readAt (n offset : Nat) : Keeps P (readAt n offset) :=
  Keeps.bind keeps_requireReadable fun _ => Keeps.look _

theorem keeps_metadata (p : Path) : Keeps P (metadata p) :=
  Keeps.bind keeps_requireOpen fun _ => Keeps.look _

namespace Moving

variable (h : Moving P)

include h

theorem keeps_moveTo (position : Handle × Memory → Nat) :
    Keeps P (Action.update fun s => Handle.moveTo (position s) s :
      Action ε (Handle × Memory) Unit) :=
  Keeps.update fun s hs => h.moveTo (position s) s hs

theorem keeps_read (n : Nat) : Keeps P (read n) := by
  unfold read
  apply Keeps.bind keeps_requireReadable
  intro _
  apply Keeps.bind (Keeps.look _)
  intro found
  apply Keeps.bind (h.keeps_moveTo fun s => s.1.cursor + found.length)
  exact fun _ => Keeps.pure _

theorem keeps_readRest : Keeps P readRest := by
  unfold readRest
  apply Keeps.bind keeps_requireReadable
  intro _
  apply Keeps.bind (Keeps.look _)
  intro found
  apply Keeps.bind (h.keeps_moveTo fun s => s.1.cursor + found.length)
  exact fun _ => Keeps.pure _

theorem keeps_seek (target : SeekTarget) : Keeps P (seek target) := by
  unfold seek
  apply Keeps.bind (Keeps.mapError keeps_requireOpen)
  intro _
  apply Keeps.bind (Keeps.look _)
  intro position
  apply Keeps.when (Keeps.throw _)
  apply Keeps.bind (h.keeps_moveTo fun _ => position.toNat)
  exact fun _ => Keeps.pure _

theorem keeps_close : Keeps P Handle.close :=
  Keeps.bind keeps_requireOpen fun _ => Keeps.update h.close

/-- What holds however the handle is moved holds after every operation of a file, if it
holds after those that write. -/
theorem keeps_onDevice {name : Path} (hwrite : ∀ data, Keeps P (write data))
    (hwriteAt : ∀ data offset, Keeps P (writeAt data offset))
    (htruncate : ∀ size, Keeps P (truncate size)) (op : FileOperation ε α) :
    Keeps P (op.onDevice name : Action ε (Handle × Memory) α) := by
  cases op with
  | read n => exact Keeps.mapError (h.keeps_read n)
  | readToEnd => exact Keeps.mapError h.keeps_readRest
  | write data => exact Keeps.mapError (hwrite data)
  | flush => exact Keeps.mapError keeps_requireOpen
  | seek target => exact h.keeps_seek target
  | readAt n offset => exact keeps_readAt n offset
  | writeAt data offset => exact hwriteAt data offset
  | truncate size => exact htruncate size
  | metadata => exact keeps_metadata name
  | lock => exact keeps_requireOpen
  | unlock => exact keeps_requireOpen
  | close => exact h.keeps_close

end Moving

namespace Stable

variable (h : Stable P)

include h

theorem keeps_store (bytes : Bytes) (offset : Option Nat) : Keeps P (store bytes offset) := by
  unfold store
  apply Keeps.bind (Keeps.look _)
  intro found
  apply Keeps.when (Keeps.throw _)
  apply Keeps.bind (Keeps.update (h.putData _))
  exact fun _ => Keeps.pure _

theorem keeps_write (bytes : Bytes) : Keeps P (write bytes) := by
  unfold write
  apply Keeps.bind keeps_requireWritable
  intro _
  apply Keeps.bind (Keeps.look _)
  intro offset
  apply Keeps.bind (h.keeps_store bytes offset)
  intro start
  apply Keeps.bind (h.keeps_moveTo fun _ => start + bytes.length)
  exact fun _ => Keeps.pure _

theorem keeps_writeAt (bytes : Bytes) (offset : Nat) : Keeps P (writeAt bytes offset) := by
  unfold writeAt
  apply Keeps.bind keeps_requireWritable
  intro _
  apply Keeps.bind (h.keeps_store bytes _)
  exact fun _ => Keeps.pure _

theorem keeps_truncate (size : Nat) : Keeps P (truncate size) :=
  Keeps.bind keeps_requireWritable fun _ => Keeps.update (h.putData _)

/-- What is stable holds after every operation of a file. -/
theorem keeps_onDevice (op : FileOperation ε α) (name : Path) :
    Keeps P (op.onDevice name : Action ε (Handle × Memory) α) :=
  h.toMoving.keeps_onDevice h.keeps_write h.keeps_writeAt h.keeps_truncate op

end Stable

end ConfinedFs.Memory.Handle
