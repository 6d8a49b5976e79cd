import ConfinedFs.Proofs.Memory.Edits

/-!
What an open handle in memory does, call by call: what it answers, where its position is
afterwards, and which change it makes to the data of its file.
-/

namespace ConfinedFs.Memory.Handle

variable {h : Handle} {m : Memory} (hopen : h.closed = false)

include hopen

theorem seek_apply {target : SeekTarget} {position : Int}
    (hposition : targetPosition h.cursor (m.content h.cell).data.length target = position) :
    seek target (h, m) =
      if position < 0 ∨ position ≥ positionBound then
        (.error (.custom .invalidInput "seeking to a negative or overflowing position"), (h, m))
      else (.ok position.toNat, { h with cursor := position.toNat }, m) := by
  have hready : requireOpen.mapError IoError.filesystem (h, m) = (.ok (), (h, m)) := by
    rw [Action.mapError_apply, requireOpen_apply hopen]
    rfl
  have hlook : (Action.look fun s : Handle × Memory =>
      targetPosition s.1.cursor (data s).length target : Action IoError _ Int) (h, m) =
      (.ok position, (h, m)) := by
    rw [Action.look_apply, ← hposition]
    rfl
  unfold seek
  refine (Action.bind_apply_of_ok hready).trans ?_
  refine (Action.bind_apply_of_ok hlook).trans ?_
  by_cases hrange : position < 0 ∨ position ≥ positionBound
  · rw [if_pos hrange, if_pos hrange]
    rfl
  · rw [if_neg hrange, if_neg hrange]
    rfl

section Refused

variable (hread : h.readable = false)

include hread

theorem requireReadable_refused :
    requireReadable (h, m) = (.error .permissionDenied, (h, m)) := by
  rw [requireReadable, Action.bind_apply_of_ok (requireOpen_apply hopen), Action.query_apply, hread]
  rfl

theorem read_unreadable (n : Nat) : read n (h, m) = (.error .permissionDenied, (h, m)) :=
  Action.bind_apply_of_error (requireReadable_refused hopen hread)

theorem readAt_unreadable (n offset : Nat) :
    readAt n offset (h, m) = (.error .permissionDenied, (h, m)) :=
  Action.bind_apply_of_error (requireReadable_refused hopen hread)

end Refused

section Writing

variable (hwrite : h.writable = true)

include hwrite

theorem requireWritable_apply : requireWritable (h, m) = (.ok (), (h, m)) := by
  rw [requireWritable, Action.bind_apply_of_ok (requireOpen_apply hopen), Action.query_apply,
    hwrite]
  rfl

omit hopen hwrite in
theorem store_apply {bytes : Bytes} {offset : Option Nat} {start : Nat}
    (hstart : offset.getD (m.content h.cell).data.length = start)
    (hbound : start + bytes.length < positionBound) :
    store bytes offset (h, m) = (.ok start, (h, m.edited h.cell (.put offset bytes))) := by
  subst hstart
  have hfits : ¬ offset.getD (data (h, m)).length + bytes.length ≥ positionBound :=
    Nat.not_le.2 hbound
  unfold store
  refine (Action.bind_apply_of_ok (Action.look_apply _ _)).trans ?_
  rw [if_neg hfits]
  refine (Action.bind_apply_of_ok (Action.update_apply _ _)).trans ?_
  exact Prod.ext rfl (Prod.ext rfl (modifyCell_congr rfl))

/-- Where a write goes. -/
def writeStart (h : Handle) (length : Nat) : Nat := if h.append then length else h.cursor

omit hopen hwrite in
theorem getD_writeOffset (h : Handle) (length : Nat) :
    (if h.append then none else some h.cursor).getD length = h.writeStart length := by
  unfold writeStart
  cases h.append <;> rfl

theorem write_apply {bytes : Bytes}
    (hbound : h.writeStart (m.content h.cell).data.length + bytes.length < positionBound) :
    let start := h.writeStart (m.content h.cell).data.length
    write bytes (h, m) = (.ok bytes.length, { h with cursor := start + bytes.length },
      m.edited h.cell (.put (some start) bytes)) := by
  intro start
  have hstart : _ = start := getD_writeOffset h (m.content h.cell).data.length
  have hedit : m.edited h.cell (.put (if h.append then none else some h.cursor) bytes) =
      m.edited h.cell (.put (some start) bytes) := by
    apply modifyCell_congr
    simp only [Edit.apply, hstart, Option.getD_some]
  unfold write
  refine (Action.bind_apply_of_ok (requireWritable_apply hopen hwrite)).trans ?_
  refine (Action.bind_apply_of_ok (Action.look_apply _ _)).trans ?_
  refine (Action.bind_apply_of_ok (store_apply hstart hbound)).trans ?_
  rw [hedit]
  rfl

theorem writeAt_apply {bytes : Bytes} {offset : Nat}
    (hbound : offset + bytes.length < positionBound) :
    writeAt bytes offset (h, m) =
      (.ok bytes.length, h, m.edited h.cell (.put (some offset) bytes)) := by
  unfold writeAt
  refine (Action.bind_apply_of_ok (requireWritable_apply hopen hwrite)).trans ?_
  exact Action.bind_apply_of_ok (store_apply rfl hbound)

theorem truncate_apply (size : Nat) :
    truncate size (h, m) = (.ok (), h, m.edited h.cell (.resize size)) :=
  Action.bind_apply_of_ok (requireWritable_apply hopen hwrite)

end Writing

end ConfinedFs.Memory.Handle
