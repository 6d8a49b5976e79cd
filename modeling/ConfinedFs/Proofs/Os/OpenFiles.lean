import ConfinedFs.Proofs.Open.ReadOnly
import ConfinedFs.Proofs.Os.SoundCalls

/-!
What is done with an open file of the host changes nothing in the tree but the data of files.
-/

namespace ConfinedFs.Os.FileHandle

open ConfinedFs.Action (Keeps)

variable {ε α : Type} {P : Tree → Prop}

theorem keeps_tree_onDescriptor {x : Action Errno (Descriptor × Tree) α}
    (hx : Keeps (fun s => P s.2) x) :
    Keeps (fun s : FileHandle × Tree => P s.2) (onDescriptor x) := by
  rintro ⟨k, t⟩ ht
  unfold onDescriptor
  cases k.descriptor with
  | none => exact ht
  | some d =>
    have hrun := Keeps.mapError (f := IoError.system) hx (d, t) ht
    dsimp only
    cases hxs : x.mapError IoError.system (d, t) with
    | mk r s =>
      rw [hxs] at hrun
      cases r <;> exact hrun

/-- What does not depend on the data of files is kept by every request to one. -/
theorem keeps_onDevice (hP : BlindToData P) (op : FileOperation ε α) (name : Path) :
    Keeps (fun s : FileHandle × Tree => P s.2) (op.onDevice name) := by
  have hanywhere : Descriptor.Anywhere (fun s => P s.2) := fun _ _ hs => hs
  cases op with
  | read n => exact keeps_tree_onDescriptor (Descriptor.keeps_read hanywhere n)
  | readToEnd => exact keeps_tree_onDescriptor (Descriptor.keeps_readRest hanywhere)
  | write data => exact keeps_tree_onDescriptor (Descriptor.keeps_write hP data)
  | flush => exact keeps_tree_onDescriptor (.pure _)
  | seek target => exact keeps_tree_onDescriptor (Descriptor.keeps_seek hanywhere target)
  | readAt n offset =>
    exact .mapError (keeps_tree_onDescriptor (Descriptor.keeps_preadAll n offset))
  | writeAt data offset =>
    exact .bind (.mapError (keeps_tree_onDescriptor (Descriptor.keeps_pwriteAll hP data offset)))
      fun _ => .pure _
  | truncate size => exact .mapError (keeps_tree_onDescriptor (Descriptor.keeps_resize hP size))
  | metadata => exact .bind (.mapError (keeps_tree_onDescriptor (.query _))) fun _ => .pure _
  | lock => exact .mapError (keeps_tree_onDescriptor (.pure _))
  | unlock => exact .mapError (keeps_tree_onDescriptor (.pure _))
  | close =>
    exact .bind (.mapError (keeps_tree_onDescriptor (.pure _))) fun _ => .update fun _ hs => hs

end ConfinedFs.Os.FileHandle
