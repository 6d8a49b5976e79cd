/-!
Byte strings. Names, paths and file contents are plain lists of bytes: a name
need not be text in any encoding.
-/

namespace ConfinedFs

/-- A string of arbitrary bytes. -/
abbrev Bytes := List UInt8

namespace Bytes

/-- The separator of path components. -/
def slash : UInt8 := 47

/-- The byte of which the two reserved component texts are made. -/
def dot : UInt8 := 46

/-- The UTF-8 encoding of a text. -/
def ofString (text : String) : Bytes := text.toUTF8.toList

/-- The fields between separators. There is always one more field than there
are separators, so the empty string has one empty field. -/
def fields (separator : UInt8) : Bytes → List Bytes
  | [] => [[]]
  | b :: rest =>
    if b = separator then [] :: fields separator rest
    else
      match fields separator rest with
      | [] => [[b]]
      | field :: others => (b :: field) :: others

/-- The fields written one after another with a separator between each two. -/
def join (separator : UInt8) : List Bytes → Bytes
  | [] => []
  | [field] => field
  | field :: others => field ++ separator :: join separator others

theorem fields_ne_nil (separator : UInt8) (data : Bytes) : fields separator data ≠ [] := by
  cases data with
  | nil => simp [fields]
  | cons b rest =>
    rw [fields]
    split
    · simp
    · split <;> simp

/-- Nothing is lost in fields. -/
theorem join_fields (separator : UInt8) (data : Bytes) :
    join separator (fields separator data) = data := by
  induction data with
  | nil => rfl
  | cons b rest ih =>
    rw [fields]
    split
    · next h =>
      cases hf : fields separator rest with
      | nil => exact absurd hf (fields_ne_nil separator rest)
      | cons field others =>
        rw [hf] at ih
        simp [join, h, ih]
    · split
      · next hf => exact absurd hf (fields_ne_nil separator rest)
      · next field others hf =>
        rw [hf] at ih
        cases others with
        | nil => simp [join] at ih ⊢; exact ih
        | cons => simp [join] at ih ⊢; exact ih

/-- The string cut or padded with zeros to exactly `n` bytes. -/
def resize (n : Nat) (data : Bytes) : Bytes :=
  data.take n ++ List.replicate (n - data.length) 0

@[simp]
theorem length_resize (n : Nat) (data : Bytes) : (resize n data).length = n := by
  simp [resize]
  omega

/-- The bytes of `data` from `offset` on, at most `n` of them. -/
def slice (offset n : Nat) (data : Bytes) : Bytes :=
  (data.drop offset).take n

@[simp]
theorem length_slice (offset n : Nat) (data : Bytes) :
    (slice offset n data).length = min n (data.length - offset) := by
  simp [slice]

/-- A limit does not show as long as no more is found than it lets through. -/
theorem slice_min {offset n limit : Nat} {data : Bytes}
    (hlimit : min n (data.length - offset) ≤ limit) :
    slice offset (min n limit) data = slice offset n data := by
  rw [slice, slice, List.take_eq_take_iff, List.length_drop]
  omega

/-- The bytes that were found, and then those behind them. -/
theorem slice_append {offset k n : Nat} {data : Bytes} (hk : k ≤ n) :
    let found := slice offset k data
    found ++ slice (offset + found.length) (n - found.length) data = slice offset n data := by
  intro found
  have hfound : found = (data.drop offset).take found.length := by
    rw [length_slice, ← List.length_drop, ← List.take_take, List.take_length]
    rfl
  have hle : found.length ≤ n := by
    rw [length_slice]
    omega
  calc found ++ slice (offset + found.length) (n - found.length) data
      = (data.drop offset).take found.length ++
          ((data.drop offset).drop found.length).take (n - found.length) := by
        rw [slice, List.drop_drop, ← hfound]
    _ = slice offset n data := by
        rw [← List.take_add, Nat.add_sub_cancel' hle, slice]

/-- `data` with `patch` laid over it at `offset`. A gap before the patch is
filled with zeros and everything outside of the patch is kept. -/
def overwrite (offset : Nat) (patch data : Bytes) : Bytes :=
  data.take offset ++ List.replicate (offset - data.length) 0 ++ patch ++
    data.drop (offset + patch.length)

@[simp]
theorem length_overwrite (offset : Nat) (patch data : Bytes) :
    (overwrite offset patch data).length = max data.length (offset + patch.length) := by
  simp [overwrite]
  omega

/-- Bytes laid over a string behind those that have just been laid over it. -/
theorem overwrite_behind (offset : Nat) (patch more data : Bytes) :
    overwrite (offset + patch.length) more (overwrite offset patch data) =
      overwrite offset (patch ++ more) data := by
  have hstart : (data.take offset ++ List.replicate (offset - data.length) (0 : UInt8) ++
      patch).length = offset + patch.length := by
    simp
    omega
  have htake : (overwrite offset patch data).take (offset + patch.length) =
      data.take offset ++ List.replicate (offset - data.length) 0 ++ patch := by
    rw [overwrite, List.take_append_of_le_length (by omega), List.take_of_length_le (by omega)]
  have hdrop : (overwrite offset patch data).drop (offset + patch.length + more.length) =
      data.drop (offset + (patch ++ more).length) := by
    rw [overwrite, List.drop_append, List.drop_of_length_le (by omega), hstart, List.nil_append,
      Nat.add_sub_cancel_left, List.drop_drop, List.length_append, Nat.add_assoc]
  rw [overwrite, htake, hdrop, length_overwrite, Nat.sub_eq_zero_of_le (Nat.le_max_right ..),
    overwrite]
  simp only [List.replicate_zero, List.append_nil, List.append_assoc]

end Bytes

end ConfinedFs
