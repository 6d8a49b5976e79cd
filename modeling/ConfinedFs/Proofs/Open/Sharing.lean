import ConfinedFs.Proofs.Memory.Binding
import ConfinedFs.Proofs.Open.Alike

/-!
A file in memory as the users of its handles see it: one list of bytes that they share, and for
each handle a position, the rights it was given and whether it has been closed. What is done with
the handles, in whatever order, comes to the same with the list of bytes.
-/

namespace ConfinedFs

open ConfinedFs.Memory (Handle fileSystem)

variable {ε α : Type}

namespace Bytes

/-- The bytes from a position on, at most so many of them. There are none from the end on. -/
def window (start n : Nat) (data : Bytes) : Bytes :=
  (List.range (min n (data.length - start))).map fun i => data.getD (start + i) 0

/-- The bytes with a patch in place of those from a position on. What there was not before the
patch is zero. -/
def patched (start : Nat) (patch data : Bytes) : Bytes :=
  (List.range (max data.length (start + patch.length))).map fun i =>
    if start ≤ i ∧ i < start + patch.length then patch.getD (i - start) 0 else data.getD i 0

/-- So many bytes. What there was not is zero. -/
def fitted (size : Nat) (data : Bytes) : Bytes := (List.range size).map fun i => data.getD i 0

/-- A byte that there is, or zero. -/
theorem dite_getElem (i : Nat) (data : Bytes) :
    (if h : i < data.length then data[i] else 0) = data[i]?.getD 0 := by
  by_cases h : i < data.length
  · rw [dif_pos h, List.getElem?_eq_getElem h, Option.getD_some]
  · rw [dif_neg h, List.getElem?_eq_none (Nat.not_lt.1 h), Option.getD_none]

theorem slice_eq_window (start n : Nat) (data : Bytes) :
    slice start n data = window start n data := by
  apply List.ext_getElem
  · simp [window]
  · intro i hi _
    rw [length_slice] at hi
    have hdata : start + i < data.length := by omega
    simp [slice, window, List.getD_eq_getElem?_getD, hdata]

theorem drop_eq_window (start : Nat) (data : Bytes) :
    data.drop start = window start data.length data := by
  rw [← slice_eq_window, slice, List.take_of_length_le]
  rw [List.length_drop]
  exact Nat.sub_le ..

theorem overwrite_eq_patched (start : Nat) (patch data : Bytes) :
    overwrite start patch data = patched start patch data := by
  apply List.ext_getElem
  · simp [patched]
  · intro i hi _
    rw [length_overwrite] at hi
    simp only [patched, List.getElem_map, List.getElem_range, overwrite, List.getElem_append,
      List.getElem_replicate, List.getElem_take, List.getElem_drop, List.length_append,
      List.length_take, List.length_replicate, List.getD_eq_getElem?_getD]
    have hgap : min start data.length + (start - data.length) = start := by omega
    simp only [hgap]
    by_cases hbefore : i < start
    · have hkept : i < min start data.length ↔ i < data.length := by omega
      rw [dif_pos (by omega), dif_pos hbefore, if_neg (by omega)]
      simp only [hkept]
      exact dite_getElem i data
    by_cases hin : i < start + patch.length
    · have hpatch : i - start < patch.length := by omega
      rw [dif_pos hin, dif_neg hbefore, if_pos ⟨Nat.not_lt.1 hbefore, hin⟩,
        List.getElem?_eq_getElem hpatch, Option.getD_some]
    · have hdata : i < data.length := by omega
      have hbehind : start + patch.length + (i - (start + patch.length)) = i := by omega
      rw [dif_neg hin, if_neg fun hboth => hin hboth.2, List.getElem?_eq_getElem hdata,
        Option.getD_some]
      simp only [hbehind]

theorem resize_eq_fitted (size : Nat) (data : Bytes) : resize size data = fitted size data := by
  apply List.ext_getElem
  · simp [fitted]
  · intro i hi _
    simp only [fitted, List.getElem_map, List.getElem_range, resize, List.getElem_append,
      List.getElem_replicate, List.getElem_take, List.length_take, List.getD_eq_getElem?_getD]
    have hkept : i < min size data.length ↔ i < data.length := by
      rw [length_resize] at hi
      omega
    simp only [hkept]
    exact dite_getElem i data

end Bytes

namespace FileOperation

/-- An error of the file in the answer to a call. -/
def report : FileOperation ε α → FileError → ε
  | read _ | readToEnd | write _ | flush | seek _ => .filesystem
  | readAt _ _ | writeAt _ _ | truncate _ | metadata | lock | unlock | close => id

end FileOperation

/-- A handle on a shared file as its user sees it. -/
structure View where
  name : Path
  cursor : Nat
  readable : Bool
  writable : Bool
  append : Bool
  closed : Bool

namespace View

/-- Where a write at the position goes. -/
def start (v : View) (length : Nat) : Nat := if v.append then length else v.cursor

/-- Has the handle been given the right that a call needs? -/
def allows (v : View) : FileOperation ε α → Bool
  | .read _ | .readToEnd | .readAt _ _ => v.readable
  | .write _ | .writeAt _ _ | .truncate _ => v.writable
  | .flush | .seek _ | .metadata | .lock | .unlock | .close => true

/-- Why the handle takes no calls, or none that need a right that it may have been given. -/
def barred (v : View) (allowed : Bool) : Option FileError :=
  if v.closed then some .fileClosed else if allowed then none else some .permissionDenied

/-- Why a call fails that the handle takes: there is no such position as it leads to. -/
def misled (v : View) (length : Nat) : FileOperation ε α → Option ε
  | .write bytes =>
    if v.start length + bytes.length < positionBound then none else some (.filesystem .invalidInput)
  | .writeAt bytes offset =>
    if offset + bytes.length < positionBound then none else some .invalidInput
  | .seek target =>
    let position := Handle.targetPosition v.cursor length target
    if 0 ≤ position ∧ position < positionBound then none
    else some (.custom .invalidInput "seeking to a negative or overflowing position")
  | _ => none

/-- Why a call fails. -/
def refusal (v : View) (length : Nat) (op : FileOperation ε α) : Option ε :=
  ((v.barred (v.allows op)).map op.report).or (v.misled length op)

/-- The answer to a call that does not fail. -/
def result (v : View) (content : Content) : FileOperation ε α → α
  | .read n => Bytes.window v.cursor n content.data
  | .readToEnd => Bytes.window v.cursor content.data.length content.data
  | .readAt n offset => Bytes.window offset n content.data
  | .write bytes | .writeAt bytes _ => bytes.length
  | .seek target => (Handle.targetPosition v.cursor content.data.length target).toNat
  | .metadata =>
    { name := v.name.baseName.bytes, fileType := .ofFile, perm := content.perm,
      len := content.data.length }
  | .flush | .truncate _ | .lock | .unlock | .close => ()

/-- The handle after a call that does not fail. -/
def after (v : View) (length : Nat) : FileOperation ε α → View
  | .read n => { v with cursor := v.cursor + min n (length - v.cursor) }
  | .readToEnd => { v with cursor := v.cursor + (length - v.cursor) }
  | .write bytes => { v with cursor := v.start length + bytes.length }
  | .seek target => { v with cursor := (Handle.targetPosition v.cursor length target).toNat }
  | .close => { v with closed := true }
  | .flush | .readAt _ _ | .writeAt _ _ | .truncate _ | .metadata | .lock | .unlock => v

/-- The bytes after a call that does not fail. -/
def dataAfter (v : View) (data : Bytes) : FileOperation ε α → Bytes
  | .write bytes => Bytes.patched (v.start data.length) bytes data
  | .writeAt bytes offset => Bytes.patched offset bytes data
  | .truncate size => Bytes.fitted size data
  | _ => data

/-- What a call comes to: the answer, and the handle and the file after it. -/
def call (v : View) (content : Content) (op : FileOperation ε α) : Except ε α × View × Content :=
  match v.refusal content.data.length op with
  | some e => (.error e, v, content)
  | none => (.ok (v.result content op), v.after content.data.length op,
      { content with data := v.dataAfter content.data op })

variable {v : View} {content : Content} {e : ε}

theorem barred_eq_none_iff {allowed : Bool} :
    v.barred allowed = none ↔ v.closed = false ∧ allowed = true := by
  unfold barred
  cases v.closed <;> cases allowed <;> simp

theorem call_of_refusal {op : FileOperation ε α} (h : v.refusal content.data.length op = some e) :
    v.call content op = (.error e, v, content) := by
  rw [call, h]

theorem call_of_closed (h : v.closed = true) (content : Content) (op : FileOperation ε α) :
    v.call content op = (.error (op.report .fileClosed), v, content) := by
  apply call_of_refusal
  rw [refusal, barred, if_pos h]
  rfl

/-- A call that fails leaves the handle and the file as they were. -/
theorem call_of_error {op : FileOperation ε α} (h : (v.call content op).1 = .error e) :
    (v.call content op).2 = (v, content) := by
  cases hrefusal : v.refusal content.data.length op with
  | some e' => rw [call_of_refusal hrefusal]
  | none =>
    rw [call, hrefusal] at h
    cases h

theorem call_of_refusal_none {op : FileOperation ε α}
    (h : v.refusal content.data.length op = none) :
    v.call content op = (.ok (v.result content op), v.after content.data.length op,
      { content with data := v.dataAfter content.data op }) := by
  rw [call, h]

/-- A handle is known by the same name after a call. -/
theorem name_call (v : View) (content : Content) (op : FileOperation ε α) :
    (v.call content op).2.1.name = v.name := by
  cases hrefusal : v.refusal content.data.length op with
  | some e => rw [call_of_refusal hrefusal]
  | none =>
    rw [call_of_refusal_none hrefusal]
    cases op <;> rfl

end View

namespace Memory.Handle

variable {h : Handle} {m : Memory} {name : Path} {e : FileError}

/-- What the user of a handle sees of it, who knows it by a name. -/
def view (h : Handle) (name : Path) : View :=
  ⟨name, h.cursor, h.readable, h.writable, h.append, h.closed⟩

/-- The handle on a cell that is seen so. -/
def ofView (c : CellId) (v : View) : Handle :=
  ⟨c, v.cursor, v.readable, v.writable, v.append, v.closed⟩

section Barred

theorem requireOpen_eq (h : Handle) (m : Memory) (name : Path) :
    requireOpen (h, m) = (((h.view name).barred true).elim (.ok ()) .error, (h, m)) := by
  obtain ⟨cell, cursor, readable, writable, append, closed⟩ := h
  cases closed <;> rfl

theorem requireReadable_eq (h : Handle) (m : Memory) (name : Path) :
    requireReadable (h, m) = (((h.view name).barred h.readable).elim (.ok ()) .error, (h, m)) := by
  obtain ⟨cell, cursor, readable, writable, append, closed⟩ := h
  cases closed <;> cases readable <;> rfl

theorem requireWritable_eq (h : Handle) (m : Memory) (name : Path) :
    requireWritable (h, m) = (((h.view name).barred h.writable).elim (.ok ()) .error, (h, m)) := by
  obtain ⟨cell, cursor, readable, writable, append, closed⟩ := h
  cases closed <;> cases writable <;> rfl

theorem mapError_of_error {x : Action FileError (Handle × Memory) α} {s : Handle × Memory}
    (hx : x s = (.error e, s)) : x.mapError IoError.filesystem s = (.error (.filesystem e), s) := by
  rw [Action.mapError_apply, hx]
  rfl

/-- A call that the handle does not take changes nothing. -/
theorem onDevice_of_barred {op : FileOperation ε α}
    (hbarred : (h.view name).barred ((h.view name).allows op) = some e) :
    op.onDevice name (h, m) = (.error (op.report e), (h, m)) := by
  have hopen : (h.view name).barred true = some e → requireOpen (h, m) = (.error e, (h, m)) :=
    fun hb => by rw [requireOpen_eq h m name, hb]; rfl
  have hread : (h.view name).barred h.readable = some e →
      requireReadable (h, m) = (.error e, (h, m)) :=
    fun hb => by rw [requireReadable_eq h m name, hb]; rfl
  have hwrite : (h.view name).barred h.writable = some e →
      requireWritable (h, m) = (.error e, (h, m)) :=
    fun hb => by rw [requireWritable_eq h m name, hb]; rfl
  cases op with
  | read n | readToEnd => exact mapError_of_error (Action.bind_apply_of_error (hread hbarred))
  | readAt n offset => exact Action.bind_apply_of_error (hread hbarred)
  | write bytes => exact mapError_of_error (Action.bind_apply_of_error (hwrite hbarred))
  | writeAt bytes offset | truncate size => exact Action.bind_apply_of_error (hwrite hbarred)
  | flush => exact mapError_of_error (hopen hbarred)
  | seek target => exact Action.bind_apply_of_error (mapError_of_error (hopen hbarred))
  | metadata | close => exact Action.bind_apply_of_error (hopen hbarred)
  | lock | unlock => exact hopen hbarred

end Barred

section Taken

theorem mapError_of_ok {x : Action FileError (Handle × Memory) α} {s s' : Handle × Memory} {a : α}
    (hx : x s = (.ok a, s')) : x.mapError IoError.filesystem s = (.ok a, s') := by
  rw [Action.mapError_apply, hx]
  rfl

theorem store_refused {bytes : Bytes} {offset : Option Nat} {start : Nat}
    (hstart : offset.getD (m.content h.cell).data.length = start)
    (hbound : ¬ start + bytes.length < positionBound) :
    store bytes offset (h, m) = (.error .invalidInput, (h, m)) := by
  subst hstart
  have hbound : offset.getD (data (h, m)).length + bytes.length ≥ positionBound :=
    Nat.not_lt.1 hbound
  unfold store
  refine (Action.bind_apply_of_ok (Action.look_apply _ _)).trans ?_
  rw [if_pos hbound]
  rfl

variable (hopen : h.closed = false) {op : FileOperation ε α}
  (hallowed : (h.view name).allows op = true)

include hopen hallowed

/-- A call that leads to no position changes nothing. -/
theorem onDevice_of_misled {e : ε}
    (hmisled : (h.view name).misled (m.content h.cell).data.length op = some e) :
    op.onDevice name (h, m) = (.error e, (h, m)) := by
  cases op with
  | write bytes =>
    obtain ⟨hbound, he⟩ := Option.ite_none_left_eq_some.1 hmisled
    cases he
    apply mapError_of_error
    refine (Action.bind_apply_of_ok (requireWritable_apply hopen hallowed)).trans ?_
    refine (Action.bind_apply_of_ok (Action.look_apply _ _)).trans ?_
    exact Action.bind_apply_of_error (store_refused (getD_writeOffset h _) hbound)
  | writeAt bytes offset =>
    obtain ⟨hbound, he⟩ := Option.ite_none_left_eq_some.1 hmisled
    cases he
    refine (Action.bind_apply_of_ok (requireWritable_apply hopen hallowed)).trans ?_
    exact Action.bind_apply_of_error (store_refused rfl hbound)
  | seek target =>
    obtain ⟨hrange, he⟩ := Option.ite_none_left_eq_some.1 hmisled
    cases he
    refine (seek_apply hopen rfl).trans (if_pos ?_)
    have hcursor : (h.view name).cursor = h.cursor := rfl
    rw [hcursor] at hrange
    omega
  | _ => cases hmisled

/-- A call that is taken and leads to a position. -/
theorem onDevice_of_led
    (hled : (h.view name).misled (m.content h.cell).data.length op = none) :
    op.onDevice name (h, m) =
      (.ok ((h.view name).result (m.content h.cell) op),
        ofView h.cell ((h.view name).after (m.content h.cell).data.length op),
        m.modifyCell h.cell fun _ => { m.content h.cell with
          data := (h.view name).dataAfter (m.content h.cell).data op }) := by
  have hsame : m = m.modifyCell h.cell fun _ => m.content h.cell :=
    (modifyCell_id m h.cell).symm.trans (modifyCell_congr rfl)
  have hedited : ∀ {e : Edit} {bytes : Bytes}, e.apply (m.content h.cell).data = bytes →
      m.edited h.cell e = m.modifyCell h.cell fun _ => { m.content h.cell with data := bytes } :=
    fun hbytes => modifyCell_congr (congrArg (Content.mk · _) hbytes)
  have hholds : ∀ {c : Prop} [Decidable c] {e : ε}, (if c then none else some e) = none → c :=
    fun hnone => Decidable.byContradiction fun hc => nomatch (if_neg hc).symm.trans hnone
  cases op with
  | read n =>
    refine (mapError_of_ok (read_apply hopen hallowed n)).trans ?_
    rw [Bytes.length_slice, Bytes.slice_eq_window]
    exact Prod.ext rfl (Prod.ext rfl hsame)
  | readToEnd =>
    refine (mapError_of_ok (readRest_apply hopen hallowed)).trans ?_
    rw [List.length_drop, Bytes.drop_eq_window]
    exact Prod.ext rfl (Prod.ext rfl hsame)
  | readAt n offset =>
    refine (readAt_apply hopen hallowed n offset).trans ?_
    rw [Bytes.slice_eq_window]
    exact Prod.ext rfl (Prod.ext rfl hsame)
  | write bytes =>
    refine (mapError_of_ok (write_apply hopen hallowed (hholds hled))).trans ?_
    exact Prod.ext rfl (Prod.ext rfl (hedited (Bytes.overwrite_eq_patched ..)))
  | writeAt bytes offset =>
    refine (writeAt_apply hopen hallowed (hholds hled)).trans ?_
    exact Prod.ext rfl (Prod.ext rfl (hedited (Bytes.overwrite_eq_patched ..)))
  | truncate size =>
    refine (truncate_apply hopen hallowed size).trans ?_
    exact Prod.ext rfl (Prod.ext rfl (hedited (Bytes.resize_eq_fitted ..)))
  | seek target =>
    have hrange := hholds hled
    refine (seek_apply hopen rfl).trans ((if_neg ?_).trans ?_)
    · have hcursor : (h.view name).cursor = h.cursor := rfl
      rw [hcursor] at hrange
      omega
    · exact Prod.ext rfl (Prod.ext rfl hsame)
  | flush =>
    refine (mapError_of_ok (requireOpen_apply hopen)).trans ?_
    exact Prod.ext rfl (Prod.ext rfl hsame)
  | metadata => exact (metadata_apply hopen name).trans (Prod.ext rfl (Prod.ext rfl hsame))
  | lock | unlock => exact (requireOpen_apply hopen).trans (Prod.ext rfl (Prod.ext rfl hsame))
  | close =>
    refine (Action.bind_apply_of_ok (requireOpen_apply hopen)).trans ?_
    exact Prod.ext rfl (Prod.ext rfl hsame)

end Taken

/-- What is done with a handle comes to the same with what its user sees of it and with the content
of its file. -/
theorem onDevice_eq_call (op : FileOperation ε α) (name : Path) (h : Handle) (m : Memory) :
    op.onDevice name (h, m) =
      let r := (h.view name).call (m.content h.cell) op
      (r.1, ofView h.cell r.2.1, m.modifyCell h.cell fun _ => r.2.2) := by
  have hsame : m = m.modifyCell h.cell fun _ => m.content h.cell :=
    (modifyCell_id m h.cell).symm.trans (modifyCell_congr rfl)
  have hrefused : ∀ {e : ε}, (h.view name).refusal (m.content h.cell).data.length op = some e →
      op.onDevice name (h, m) = (.error e, (h, m)) →
      op.onDevice name (h, m) =
        let r := (h.view name).call (m.content h.cell) op
        (r.1, ofView h.cell r.2.1, m.modifyCell h.cell fun _ => r.2.2) := by
    intro e hrefusal hrun
    rw [View.call_of_refusal hrefusal, hrun]
    exact Prod.ext rfl (Prod.ext rfl hsame)
  cases hbarred : (h.view name).barred ((h.view name).allows op) with
  | some e =>
    refine hrefused ?_ (onDevice_of_barred hbarred)
    rw [View.refusal, hbarred]
    rfl
  | none =>
    obtain ⟨hopen, hallowed⟩ := View.barred_eq_none_iff.1 hbarred
    have hrefusal : (h.view name).refusal (m.content h.cell).data.length op =
        (h.view name).misled (m.content h.cell).data.length op := by
      rw [View.refusal, hbarred]
      rfl
    cases hmisled : (h.view name).misled (m.content h.cell).data.length op with
    | some e => exact hrefused (hrefusal.trans hmisled) (onDevice_of_misled hopen hallowed hmisled)
    | none =>
      rw [View.call_of_refusal_none (hrefusal.trans hmisled)]
      exact onDevice_of_led hopen hallowed hmisled

end Memory.Handle

/-- A shared file: what it holds, and what the users see of their handles on it. -/
structure Sharing where
  content : Content
  views : Nat → Option View

namespace Sharing

variable {s : Sharing} {d : Dialog Memory Handle} {f : OpenFile Handle} {i : Nat}
  {v : View}

/-- A file of a dialog, told by its cell, with the handles that have been handed out on it. -/
def of (d : Dialog Memory Handle) (c : CellId) : Sharing where
  content := d.state.content c
  views i := (d.files i).bind fun f =>
    if f.handle.cell = c then some (f.handle.view f.name) else none

/-- The shared file after a call to one of the handles. -/
def use (s : Sharing) (i : Nat) (op : FileOperation ε α) : Sharing :=
  match s.views i with
  | none => s
  | some v =>
    let r := v.call s.content op
    ⟨r.2.2, fun j => if j = i then some r.2.1 else s.views j⟩

/-- The shared file after calls to the handles, in order. -/
def run (s : Sharing) (uses : List (Nat × Use)) : Sharing :=
  uses.foldl (fun s u => s.use u.1 u.2.op) s

theorem use_of_view (hv : s.views i = some v) (op : FileOperation ε α) :
    s.use i op = ⟨(v.call s.content op).2.2,
      fun j => if j = i then some (v.call s.content op).2.1 else s.views j⟩ := by
  rw [use, hv]

theorem use_of_none (hv : s.views i = none) (op : FileOperation ε α) : s.use i op = s := by
  rw [use, hv]

/-- A call that fails leaves everything as it was. -/
theorem use_of_error {op : FileOperation ε α} {e : ε} (hv : s.views i = some v)
    (herror : (v.call s.content op).1 = .error e) : s.use i op = s := by
  have hviews : (fun j => if j = i then some v else s.views j) = s.views := by
    funext j
    by_cases hj : j = i
    · rw [if_pos hj, hj, hv]
    · rw [if_neg hj]
  rw [use_of_view hv, View.call_of_error herror, hviews]

/-- A handle that has been closed stays closed. -/
theorem closed_use (hv : s.views i = some v) (hclosed : v.closed = true) (j : Nat)
    (op : FileOperation ε α) : (s.use j op).views i = some v := by
  by_cases hj : i = j
  · subst hj
    rw [use_of_error hv (congrArg Prod.fst (View.call_of_closed hclosed s.content op)), hv]
  · cases hother : s.views j with
    | none => rw [use_of_none hother, hv]
    | some w =>
      rw [use_of_view hother]
      exact (if_neg hj).trans hv

theorem closed_run (hv : s.views i = some v) (hclosed : v.closed = true)
    (uses : List (Nat × Use)) : (s.run uses).views i = some v := by
  induction uses generalizing s with
  | nil => exact hv
  | cons u uses ih => exact ih (closed_use hv hclosed u.1 u.2.op)

section Step

variable (hd : d.Numbered)

include hd

/-- A call that hands out no file leaves the handles that there are. -/
theorem of_after (m : Memory) (c : CellId) :
    of (d.after m none) c = ⟨m.content c, (of d c).views⟩ := by
  have hfiles : (d.after m none).files = d.files := by
    funext j
    dsimp only [Dialog.after]
    by_cases hj : j = d.calls
    · rw [if_pos hj]
      cases hf : d.files j with
      | none => rfl
      | some f => exact absurd (hd j f hf) (Nat.not_lt.2 (Nat.le_of_eq hj.symm))
    · rw [if_neg hj]
  rw [of, hfiles]
  rfl

theorem numbered_withFile (hf : d.files i = some f) (g : OpenFile Handle) :
    (d.withFile i g).Numbered := by
  intro j f' hf'
  dsimp only [Dialog.withFile] at hf'
  split at hf'
  · next hj => exact hj ▸ hd i f hf
  · exact hd j f' hf'

theorem of_step (h : d.Sound) (c : CellId) (i : Nat) (op : FileOperation ε α) :
    of (d.step fileSystem (.use i op)) c = (of d c).use i op := by
  cases hf : d.files i with
  | none =>
    have hview : (of d c).views i = none := by
      show (d.files i).bind _ = none
      rw [hf]
      rfl
    rw [use_of_none hview, Dialog.step, hf]
    exact of_after hd d.state c
  | some f =>
    have hview : (of d c).views i =
        if f.handle.cell = c then some (f.handle.view f.name) else none := by
      show (d.files i).bind _ = _
      rw [hf]
      rfl
    have hviews : ∀ (g : OpenFile Handle), (of (d.withFile i g) c).views = fun j =>
        if j = i then if g.handle.cell = c then some (g.handle.view g.name) else none
        else (of d c).views j := by
      intro g
      funext j
      show (if j = i then some g else d.files j).bind _ = _
      by_cases hj : j = i
      · rw [if_pos hj, if_pos hj]
        rfl
      · rw [if_neg hj, if_neg hj]
        rfl
    let r := (f.handle.view f.name).call (d.state.content f.handle.cell) op
    let g := f.withHandle (Handle.ofView f.handle.cell r.2.1)
    have hstep : d.step fileSystem (.use i op) =
        (d.withFile i g).after (d.state.modifyCell f.handle.cell fun _ => r.2.2) none := by
      rw [Dialog.step, hf]
      dsimp only
      rw [OpenFile.perform_apply, Handle.onDevice_eq_call]
    have hseen : g.handle.view g.name = r.2.1 := by
      have hname : r.2.1.name = f.name := View.name_call ..
      show (Handle.ofView _ r.2.1).view f.name = r.2.1
      rw [← hname]
      rfl
    have hcell : g.handle.cell = f.handle.cell := rfl
    rw [hstep, of_after (numbered_withFile hd hf g), hviews, hseen, hcell]
    by_cases hc : f.handle.cell = c
    · subst hc
      rw [if_pos rfl] at hview
      rw [use_of_view hview, Memory.content_modifyCell_self (h.files i f hf).lt, if_pos rfl]
      rfl
    · have hkept : (fun j => if j = i then none else (of d c).views j) = (of d c).views := by
        funext j
        by_cases hj : j = i
        · rw [if_pos hj, hj, hview, if_neg hc]
        · rw [if_neg hj]
      rw [if_neg hc] at hview
      rw [use_of_none hview, Memory.content_modifyCell_of_ne (Ne.symm hc), if_neg hc, hkept]
      rfl

theorem of_run (h : d.Sound) (c : CellId) (uses : List (Nat × Use)) :
    of (d.run fileSystem (uses.map fun u => .use u.1 u.2.op)) c = (of d c).run uses := by
  induction uses generalizing d with
  | nil => rfl
  | cons u uses ih =>
    have hnext := ih (hd.step (.use u.1 u.2.op)) (h.step (.use u.1 u.2.op))
    rw [of_step hd h] at hnext
    exact hnext

end Step

theorem fileAnswer_eq (c : CellId) (hv : (of d c).views i = some v) (op : FileOperation ε α) :
    d.fileAnswer i op = some (v.call (of d c).content op).1 := by
  obtain ⟨f, hf, hview⟩ := Option.bind_eq_some_iff.1 hv
  obtain ⟨hc, hview⟩ := Option.ite_none_right_eq_some.1 hview
  cases hview
  subst hc
  rw [Dialog.fileAnswer, hf, Option.map_some, OpenFile.perform_apply, Handle.onDevice_eq_call]
  rfl

end Sharing

end ConfinedFs
