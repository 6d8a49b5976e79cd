import ConfinedFs.Memory.Handle
import ConfinedFs.Os.File

/-!
What a descriptor on a file does. As long as no access goes behind the last position, every
call on it comes to what the data and the position say.
-/

namespace ConfinedFs.Os

/-- The node is a file with the given data. -/
def Tree.HoldsData (t : Tree) (i : NodeId) (data : Bytes) : Prop :=
  ∃ perm, t.node? i = some (.file perm data)

namespace Descriptor

variable {d : Descriptor} {t : Tree} {perm : Permissions} {data : Bytes}

/-- The position moves unless it would leave the range. -/
theorem moveInRange_apply (position : Int) (s : Descriptor × Tree) :
    (do
      if position < 0 ∨ position > maxOffset then throw .invalid
      Action.update (moveTo position.toNat)
      return position.toNat : Action Errno (Descriptor × Tree) Nat) s =
      if position < 0 ∨ position > maxOffset then (.error .invalid, s)
      else (.ok position.toNat, moveTo position.toNat s) := by
  by_cases hrange : position < 0 ∨ position > maxOffset
  · rw [if_pos hrange, if_pos hrange]
    rfl
  · rw [if_neg hrange, if_neg hrange]
    rfl

section Data

variable (hnode : t.node? d.node = some (.file perm data))

include hnode

theorem fileData_eq : fileData (d, t) = .ok data := by
  rw [fileData, hnode]

theorem putData_eq (changed : Bytes) :
    putData changed (d, t) = (d, t.put d.node (.file perm.changed changed)) := by
  rw [putData, hnode]

theorem readableData_eq (hread : d.readable = true) {offset count : Nat}
    (hrange : offset + count ≤ maxOffset) : readableData offset count (d, t) = .ok data := by
  simp only [readableData, hread, checkRange, Nat.not_lt.2 hrange, fileData_eq hnode]
  rfl

theorem writableData_eq (hwrite : d.writable = true) {offset count : Nat}
    (hrange : offset + count ≤ maxOffset) : writableData offset count (d, t) = .ok data := by
  simp only [writableData, hwrite, checkRange, Nat.not_lt.2 hrange, fileData_eq hnode]
  rfl

theorem read_apply (hread : d.readable = true) {n : Nat} (hrange : d.offset + n ≤ maxOffset) :
    let found := Bytes.slice d.offset (min n maxTransfer) data
    read n (d, t) = (.ok found, { d with offset := d.offset + found.length }, t) := by
  intro found
  have hdata : Action.query (readableData d.offset n) (d, t) = (.ok data, (d, t)) :=
    congrArg (·, (d, t)) (readableData_eq hnode hread hrange)
  rw [read, Action.bind_apply_of_ok (Action.look_apply _ _), Action.bind_apply_of_ok hdata]
  rfl

theorem pread_apply (hread : d.readable = true) {n offset : Nat}
    (hrange : offset + n ≤ maxOffset) :
    pread n offset (d, t) = (.ok (Bytes.slice offset (min n maxTransfer) data), (d, t)) := by
  have hdata : Action.query (readableData offset n) (d, t) = (.ok data, (d, t)) :=
    congrArg (·, (d, t)) (readableData_eq hnode hread hrange)
  unfold pread
  rw [if_neg (by omega)]
  exact (Action.bind_apply_of_ok hdata).trans rfl

/-- Reading on until the bytes are there or the file ends. The induction is on the calls,
each of which leaves fewer bytes to be read. -/
theorem preadWithin_apply (hread : d.readable = true) {calls n offset : Nat} (hcalls : n ≤ calls)
    (hrange : offset + n ≤ maxOffset) :
    preadWithin calls n offset (d, t) = (.ok (Bytes.slice offset n data), (d, t)) := by
  induction calls generalizing n offset with
  | zero =>
    rw [Nat.le_zero.1 hcalls, preadWithin, Bytes.slice, List.take_zero]
    rfl
  | succ calls ih =>
    rw [preadWithin]
    by_cases hn : n = 0
    · rw [if_pos hn, hn, Bytes.slice, List.take_zero]
      rfl
    · rw [if_neg hn, Action.bind_apply_of_ok (pread_apply hnode hread hrange)]
      have hlength : (Bytes.slice offset (min n maxTransfer) data).length =
          min (min n maxTransfer) (data.length - offset) := Bytes.length_slice ..
      by_cases hfound : Bytes.slice offset (min n maxTransfer) data = []
      · have hend : Bytes.slice offset n data = [] := by
          rw [hfound, List.length_nil, maxTransfer] at hlength
          rw [← List.length_eq_zero_iff, Bytes.length_slice]
          omega
        rw [if_pos (by rw [hfound]; rfl), hend]
        rfl
      · have hsome : 0 < (Bytes.slice offset (min n maxTransfer) data).length :=
          List.length_pos_iff.2 hfound
        rw [if_neg (by simpa using hfound),
          Action.bind_apply_of_ok (ih (by omega) (by omega)), Action.pure_apply,
          Bytes.slice_append (Nat.min_le_left ..)]

theorem preadAll_apply (hread : d.readable = true) {n offset : Nat}
    (hrange : offset + n ≤ maxOffset) :
    preadAll n offset (d, t) = (.ok (Bytes.slice offset n data), (d, t)) :=
  preadWithin_apply hnode hread (Nat.le_refl n) hrange

theorem write_nil_apply (hwrite : d.writable = true) (hrange : d.offset ≤ maxOffset) :
    write [] (d, t) = (.ok 0, (d, t)) := by
  have hdata : Action.query (writableData d.offset ([] : Bytes).length) (d, t) =
      (.ok data, (d, t)) := congrArg (·, (d, t)) (writableData_eq hnode hwrite hrange)
  rw [write, Action.bind_apply_of_ok (Action.look_apply _ _)]
  exact (Action.bind_apply_of_ok hdata).trans rfl

theorem write_apply (hwrite : d.writable = true) {bytes : Bytes} (hbytes : bytes ≠ [])
    (hrange : d.offset + bytes.length ≤ maxOffset) :
    let start := if d.append then data.length else d.offset
    let taken := bytes.take maxTransfer
    write bytes (d, t) = (.ok taken.length, { d with offset := start + taken.length },
      t.put d.node (.file perm.changed (Bytes.overwrite start taken data))) := by
  intro start taken
  have hdata : Action.query (writableData d.offset bytes.length) (d, t) = (.ok data, (d, t)) :=
    congrArg (·, (d, t)) (writableData_eq hnode hwrite hrange)
  rw [write, Action.bind_apply_of_ok (Action.look_apply _ _), Action.bind_apply_of_ok hdata,
    if_neg (by simpa using hbytes), Action.bind_apply_of_ok (Action.look_apply _ _)]
  show (Except.ok taken.length, moveTo (start + taken.length)
    (putData (Bytes.overwrite start taken data) (d, t))) = _
  rw [putData_eq hnode]
  rfl

theorem pwrite_apply (hwrite : d.writable = true) (happend : d.append = false) {bytes : Bytes}
    {offset : Nat} (hrange : offset + bytes.length ≤ maxOffset) :
    let taken := bytes.take maxTransfer
    pwrite bytes offset (d, t) = (.ok taken.length, d,
      t.put d.node (.file perm.changed (Bytes.overwrite offset taken data))) := by
  intro taken
  have hdata : Action.query (writableData offset bytes.length) (d, t) = (.ok data, (d, t)) :=
    congrArg (·, (d, t)) (writableData_eq hnode hwrite hrange)
  unfold pwrite
  rw [if_neg (by omega)]
  refine (Action.bind_apply_of_ok hdata).trans ?_
  refine (Action.bind_apply_of_ok (Action.look_apply _ _)).trans ?_
  rw [happend]
  exact congrArg (Prod.mk (Except.ok taken.length)) (putData_eq hnode _)

/-- Writing on until nothing is left. The induction is on the calls, each of which lays some
bytes over the data behind those of the call before. -/
theorem pwriteWithin_apply (hwrite : d.writable = true) (happend : d.append = false) {calls : Nat}
    {bytes : Bytes} {offset : Nat} (hbytes : bytes ≠ []) (hcalls : bytes.length ≤ calls)
    (hrange : offset + bytes.length ≤ maxOffset) :
    pwriteWithin calls bytes offset (d, t) = (.ok (), d,
      t.put d.node (.file perm.changed (Bytes.overwrite offset bytes data))) := by
  induction calls generalizing t perm data bytes offset with
  | zero => exact absurd (List.length_eq_zero_iff.1 (Nat.le_zero.1 hcalls)) hbytes
  | succ calls ih =>
    have hsplit : bytes.take maxTransfer ++ bytes.drop (bytes.take maxTransfer).length = bytes :=
      List.prefix_iff_eq_append.1 (List.take_prefix ..)
    have htaken : 0 < (bytes.take maxTransfer).length := by
      have hsome : 0 < bytes.length := List.length_pos_iff.2 hbytes
      rw [List.length_take, maxTransfer]
      omega
    rw [pwriteWithin, if_neg (by simpa using hbytes),
      Action.bind_apply_of_ok (pwrite_apply hnode hwrite happend hrange)]
    by_cases hrest : bytes.drop (bytes.take maxTransfer).length = []
    · rw [hrest, List.append_nil] at hsplit
      rw [hrest, hsplit]
      cases calls with
      | zero => rfl
      | succ calls => rfl
    · have hnext : (t.put d.node (.file perm.changed
          (Bytes.overwrite offset (bytes.take maxTransfer) data))).node? d.node =
          some (.file perm.changed (Bytes.overwrite offset (bytes.take maxTransfer) data)) := by
        rw [Tree.node?_put, if_pos rfl]
      have hlength : (bytes.drop (bytes.take maxTransfer).length).length =
          bytes.length - (bytes.take maxTransfer).length := List.length_drop
      have hle : (bytes.take maxTransfer).length ≤ bytes.length := List.length_take_le' ..
      rw [ih hnext hrest (by omega) (by omega), Tree.put_put, Permissions.changed_changed,
        Bytes.overwrite_behind, hsplit]

theorem pwriteAll_apply (hwrite : d.writable = true) (happend : d.append = false) {bytes : Bytes}
    {offset : Nat} (hbytes : bytes ≠ []) (hrange : offset + bytes.length ≤ maxOffset) :
    pwriteAll bytes offset (d, t) = (.ok (), d,
      t.put d.node (.file perm.changed (Bytes.overwrite offset bytes data))) :=
  pwriteWithin_apply hnode hwrite happend hbytes (Nat.le_refl _) hrange

theorem resize_apply (hwrite : d.writable = true) {size : Nat} (hrange : size ≤ maxOffset) :
    resize size (d, t) = (.ok (), d,
      t.put d.node (.file perm.changed (Bytes.resize size data))) := by
  have hdata : Action.query (fun s : Descriptor × Tree =>
      if s.1.writable then fileData s else .error .invalid) (d, t) = (.ok data, (d, t)) := by
    rw [Action.query_apply, if_pos hwrite, fileData_eq hnode]
  unfold resize
  rw [if_neg (by omega)]
  refine (Action.bind_apply_of_ok hdata).trans ?_
  exact congrArg (Prod.mk (Except.ok ())) (putData_eq hnode _)

/-- A target stands for the same position as in memory. -/
theorem seek_apply {target : SeekTarget} {position : Int}
    (hposition : Memory.Handle.targetPosition d.offset data.length target = position) :
    seek target (d, t) =
      if position < 0 ∨ position > maxOffset then (.error .invalid, (d, t))
      else (.ok position.toNat, { d with offset := position.toNat }, t) := by
  subst hposition
  unfold seek
  rw [Action.bind_apply_of_ok (Action.look_apply _ _)]
  cases target with
  | start offset => exact moveInRange_apply _ _
  | fromCurrent delta => exact moveInRange_apply _ _
  | fromEnd delta =>
    simp only [fileData_eq hnode]
    exact moveInRange_apply _ _

end Data

section Refused

theorem read_unreadable (hread : d.readable = false) (n : Nat) :
    read n (d, t) = (.error .badDescriptor, (d, t)) := by
  have hdata : Action.query (readableData d.offset n) (d, t) =
      (.error .badDescriptor, (d, t)) := by
    simp only [Action.query_apply, readableData, hread]
    rfl
  rw [read, Action.bind_apply_of_ok (Action.look_apply _ _), Action.bind_apply_of_error hdata]

theorem pread_unreadable (hread : d.readable = false) {n offset : Nat}
    (hrange : offset ≤ maxOffset) :
    pread n offset (d, t) = (.error .badDescriptor, (d, t)) := by
  have hdata : Action.query (readableData offset n) (d, t) = (.error .badDescriptor, (d, t)) := by
    simp only [Action.query_apply, readableData, hread]
    rfl
  unfold pread
  rw [if_neg (by omega)]
  exact Action.bind_apply_of_error hdata

theorem preadAll_unreadable (hread : d.readable = false) {n offset : Nat} (hn : n ≠ 0)
    (hrange : offset ≤ maxOffset) :
    preadAll n offset (d, t) = (.error .badDescriptor, (d, t)) := by
  obtain ⟨calls, rfl⟩ := Nat.exists_eq_succ_of_ne_zero hn
  rw [preadAll, preadWithin, if_neg hn]
  exact Action.bind_apply_of_error (pread_unreadable hread hrange)

end Refused

end Descriptor

namespace FileHandle

variable {d d' : Descriptor} {t t' : Tree} {α : Type} {x : Action Errno (Descriptor × Tree) α}

/-- An open handle does what its descriptor does. -/
theorem onDescriptor_apply {r : Except Errno α} (hx : x (d, t) = (r, d', t')) :
    onDescriptor x (⟨some d⟩, t) = (r.mapError .system, ⟨some d'⟩, t') := by
  unfold onDescriptor
  simp only [Action.mapError_apply, hx]

theorem control_apply {r : Except Errno α} (hx : x (d, t) = (r, d', t')) :
    control x (⟨some d⟩, t) =
      ((r.mapError IoError.system).mapError FileError.ofIo, ⟨some d'⟩, t') := by
  rw [control, Action.mapError_apply, onDescriptor_apply hx]

end FileHandle

end ConfinedFs.Os
