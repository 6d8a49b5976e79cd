import ConfinedFs.Proofs.Layer.Operation

/-!
Dialogs with a filesystem. A caller asks for one operation after the other and uses
the files that have been handed out to it, each told by the number of the call that
it came from. A call may be passed over, so that files keep their numbers when some
calls are left out.
-/

namespace ConfinedFs

/-- A request to an open file, with the types of its errors and of its answer. All
other operations of a file are built from these. -/
inductive FileOperation : Type → Type → Type where
  | read (n : Nat) : FileOperation IoError Bytes
  | readToEnd : FileOperation IoError Bytes
  | write (data : Bytes) : FileOperation IoError Nat
  | flush : FileOperation IoError Unit
  | seek (target : SeekTarget) : FileOperation IoError Nat
  | readAt (n offset : Nat) : FileOperation FileError Bytes
  | writeAt (data : Bytes) (offset : Nat) : FileOperation FileError Nat
  | truncate (size : Nat) : FileOperation FileError Unit
  | metadata : FileOperation FileError Metadata
  | lock : FileOperation FileError Unit
  | unlock : FileOperation FileError Unit
  | close : FileOperation FileError Unit

variable {σ H ε α : Type}

/-- What is done with the handle of a file that is known by a name. -/
def FileOperation.onDevice [Device σ H] (name : Path) :
    FileOperation ε α → Action ε (H × σ) α
  | read n => Device.read n
  | readToEnd => Device.readRest
  | write data => Device.write data
  | flush => Device.flush
  | seek target => Device.seek target
  | readAt n offset => Device.readAt n offset
  | writeAt data offset => Device.writeAt data offset
  | truncate size => Device.truncate size
  | metadata => Device.metadata name
  | lock => Device.lock
  | unlock => Device.unlock
  | close => Device.close

namespace OpenFile

variable [Device σ H]

/-- The file does what is asked for. -/
def perform : FileOperation ε α → Action ε (OpenFile H × σ) α
  | .read n => read n
  | .readToEnd => readToEnd
  | .write data => write data
  | .flush => flush
  | .seek target => seek target
  | .readAt n offset => readAt n offset
  | .writeAt data offset => writeAt data offset
  | .truncate size => truncate size
  | .metadata => metadata
  | .lock => lock
  | .unlock => unlock
  | .close => close

/-- A file does it with its handle and keeps its names. -/
theorem perform_apply (op : FileOperation ε α) (f : OpenFile H) (s : σ) :
    perform op (f, s) =
      let r := op.onDevice f.name (f.handle, s)
      (r.1, f.withHandle r.2.1, r.2.2) := by
  cases op <;> rfl

end OpenFile

/-- The file in the answer to a request. -/
def Operation.opened : Operation H α → α → Option (OpenFile H)
  | openFile _ _, f => some f
  | tempFile _ _ _, f => some f
  | _, _ => none

/-- A call: a request to the filesystem or to a file, or none. -/
inductive Turn (H : Type) : Type 1 where
  | pass
  | ask {α : Type} (op : Operation H α)
  | use (i : Nat) {ε α : Type} (op : FileOperation ε α)

/-- How far a dialog has come: the state, how many calls there have been, and the
file that each of them has handed out. -/
structure Dialog (σ H : Type) where
  state : σ
  calls : Nat := 0
  files : Nat → Option (OpenFile H) := fun _ => none

namespace Dialog

variable {fs fs' : FileSystem σ H} {d d' : Dialog σ H}

/-- The dialog after a call that has left a state and may have handed out a file. -/
def after (d : Dialog σ H) (s : σ) (f : Option (OpenFile H)) : Dialog σ H where
  state := s
  calls := d.calls + 1
  files i := if i = d.calls then f else d.files i

/-- The dialog with one of its files as it is by now. -/
def withFile (d : Dialog σ H) (i : Nat) (f : OpenFile H) : Dialog σ H :=
  { d with files := fun j => if j = i then some f else d.files j }

/-- The answer to a request to the filesystem. -/
def answer (fs : FileSystem σ H) (d : Dialog σ H) (op : Operation H α) : Except FileError α :=
  (fs.perform op d.state).1

section

variable [Device σ H]

/-- The answer to a request to a file, if there is such a file. -/
def fileAnswer (d : Dialog σ H) (i : Nat) (op : FileOperation ε α) : Option (Except ε α) :=
  (d.files i).map fun f => (OpenFile.perform op (f, d.state)).1

/-- The dialog after a call. -/
def step (fs : FileSystem σ H) (d : Dialog σ H) : Turn H → Dialog σ H
  | .pass => d.after d.state none
  | .ask op => d.after (fs.perform op d.state).2 ((d.answer fs op).toOption.bind op.opened)
  | .use i op =>
    match d.files i with
    | none => d.after d.state none
    | some f =>
      let r := (OpenFile.perform op (f, d.state)).2
      (d.withFile i r.1).after r.2 none

/-- The dialog after all of the calls, in order. -/
def run (fs : FileSystem σ H) (d : Dialog σ H) (turns : List (Turn H)) : Dialog σ H :=
  turns.foldl (step fs) d

/-- What each call keeps holds after all of them. -/
theorem run_keeps {I : Dialog σ H → Prop} {turns : List (Turn H)} (hd : I d)
    (hstep : ∀ t ∈ turns, ∀ d, I d → I (step fs d t)) : I (run fs d turns) := by
  induction turns generalizing d with
  | nil => exact hd
  | cons t turns ih =>
    have hnext := hstep t (List.mem_cons_self ..) d hd
    exact ih hnext fun t' ht' => hstep t' (List.mem_cons_of_mem _ ht')

/-- Two dialogs of which each call keeps a relation, the second one with other calls,
are related after all of them. -/
theorem run_related {R : Dialog σ H → Dialog σ H → Prop} {tr : Turn H → Turn H}
    {turns : List (Turn H)} (hd : R d d')
    (hstep : ∀ t ∈ turns, ∀ d d', R d d' → R (step fs d t) (step fs' d' (tr t))) :
    R (run fs d turns) (run fs' d' (turns.map tr)) := by
  induction turns generalizing d d' with
  | nil => exact hd
  | cons t turns ih =>
    have hnext := hstep t (List.mem_cons_self ..) d d' hd
    exact ih hnext fun t' ht' => hstep t' (List.mem_cons_of_mem _ ht')

end

/-- Two dialogs with as many calls, with related states and related files. -/
structure InStep (S : σ → σ → Prop) (F : Option (OpenFile H) → Option (OpenFile H) → Prop)
    (d d' : Dialog σ H) : Prop where
  calls : d.calls = d'.calls
  state : S d.state d'.state
  files : ∀ i, F (d.files i) (d'.files i)

variable {S : σ → σ → Prop} {F : Option (OpenFile H) → Option (OpenFile H) → Prop}

theorem InStep.after (h : InStep S F d d') {s s' : σ} {f f' : Option (OpenFile H)} (hs : S s s')
    (hf : F f f') : InStep S F (d.after s f) (d'.after s' f') := by
  refine ⟨congrArg (· + 1) h.calls, hs, ?_⟩
  intro i
  dsimp only [Dialog.after]
  rw [← h.calls]
  by_cases hi : i = d.calls
  · rw [if_pos hi, if_pos hi]
    exact hf
  · rw [if_neg hi, if_neg hi]
    exact h.files i

/-- One of the files may go on alone. -/
theorem InStep.withFileLeft (h : InStep S F d d') (i : Nat) {f : OpenFile H}
    (hf : F (some f) (d'.files i)) : InStep S F (d.withFile i f) d' := by
  refine ⟨h.calls, h.state, ?_⟩
  intro j
  dsimp only [Dialog.withFile]
  by_cases hj : j = i
  · rw [if_pos hj, hj]
    exact hf
  · rw [if_neg hj]
    exact h.files j

theorem InStep.withFile (h : InStep S F d d') {i : Nat} {f f' : OpenFile H}
    (hf : F (some f) (some f')) : InStep S F (d.withFile i f) (d'.withFile i f') := by
  refine ⟨h.calls, h.state, ?_⟩
  intro j
  dsimp only [Dialog.withFile]
  by_cases hj : j = i
  · rw [if_pos hj, if_pos hj]
    exact hf
  · rw [if_neg hj, if_neg hj]
    exact h.files j

section HasFile

variable {F : H → Prop} {i : Nat}

/-- The file of an earlier call, by a handle of the given sort. -/
def HasFile (F : H → Prop) (i : Nat) (d : Dialog σ H) : Prop :=
  i < d.calls ∧ ∃ f, d.files i = some f ∧ F f.handle

theorem HasFile.after (h : d.HasFile F i) (s : σ) (f : Option (OpenFile H)) :
    (d.after s f).HasFile F i := by
  obtain ⟨hi, g, hg, hhandle⟩ := h
  refine ⟨Nat.lt_succ_of_lt hi, g, ?_, hhandle⟩
  rw [← hg]
  exact if_neg (Nat.ne_of_lt hi)

/-- Whatever the call is, the file of an earlier one stays what it is if all that is done
with a handle leaves it what it is. -/
theorem HasFile.step [Device σ H] (h : d.HasFile F i)
    (hF : ∀ {ε α : Type} (op : FileOperation ε α) (name : Path) (k : H) (s : σ), F k →
      F (op.onDevice name (k, s)).2.1) (t : Turn H) : (d.step fs t).HasFile F i := by
  cases t with
  | pass => exact h.after _ _
  | ask op => exact h.after _ _
  | use j op =>
    rw [Dialog.step]
    cases hg : d.files j with
    | none => exact h.after _ _
    | some g =>
      dsimp only
      refine HasFile.after (d := d.withFile j _) ?_ _ none
      obtain ⟨hi, f, hf, hhandle⟩ := h
      by_cases hj : i = j
      · subst hj
        rw [hf] at hg
        cases hg
        refine ⟨hi, _, if_pos rfl, ?_⟩
        rw [OpenFile.perform_apply]
        exact hF op g.name g.handle d.state hhandle
      · exact ⟨hi, f, (if_neg hj).trans hf, hhandle⟩

end HasFile

/-- A file has been handed out by an earlier call. -/
def Numbered (d : Dialog σ H) : Prop := ∀ i f, d.files i = some f → i < d.calls

theorem Numbered.step [Device σ H] (h : d.Numbered) (t : Turn H) : (d.step fs t).Numbered := by
  have hafter : ∀ {d : Dialog σ H} {s : σ} {x : Option (OpenFile H)}, d.Numbered →
      (d.after s x).Numbered := by
    intro d s x h i f hf
    dsimp only [Dialog.after] at hf ⊢
    split at hf
    · omega
    · exact Nat.lt_succ_of_lt (h i f hf)
  cases t with
  | pass => exact hafter h
  | ask op => exact hafter h
  | use j op =>
    rw [Dialog.step]
    cases hg : d.files j with
    | none => exact hafter h
    | some g =>
      apply hafter
      intro i f hf
      dsimp only [withFile] at hf
      split at hf
      · next hi => exact hi ▸ h j g hg
      · exact h i f hf

/-- In the state that has been reached something holds, and so does something of every
handle that has been handed out. -/
structure Holds (S : σ → Prop) (F : σ → H → Prop) (d : Dialog σ H) : Prop where
  state : S d.state
  files : ∀ i f, d.files i = some f → F d.state f.handle

/-- What a step from one state to another one keeps. -/
structure Carries (S : σ → Prop) (F : σ → H → Prop) (s s' : σ) : Prop where
  state : S s'
  handles : ∀ h, F s h → F s' h

/-- The file of an answer belongs to a request that has succeeded. -/
theorem opened_of_answer {op : Operation H α} {f : OpenFile H}
    (h : (d.answer fs op).toOption.bind op.opened = some f) :
    ∃ a, (fs.perform op d.state).1 = .ok a ∧ op.opened a = some f := by
  obtain ⟨a, ha, hopened⟩ := Option.bind_eq_some_iff.1 h
  refine ⟨a, ?_, hopened⟩
  rw [answer] at ha
  cases hrun : (fs.perform op d.state).1 with
  | error e =>
    rw [hrun] at ha
    cases ha
  | ok b =>
    rw [hrun] at ha
    exact congrArg Except.ok (Option.some.inj ha)

/-- Using a file leaves the state that its handle leaves. -/
theorem state_step_use [Device σ H] {i : Nat} {f : OpenFile H} (hf : d.files i = some f)
    (op : FileOperation ε α) :
    (d.step fs (.use i op)).state = (op.onDevice f.name (f.handle, d.state)).2.2 := by
  rw [Dialog.step, hf]
  dsimp only [after]
  rw [OpenFile.perform_apply]

/-- The file of a call after one more call: it was there, and it may have been used now, or
it has been handed out now. -/
theorem files_step [Device σ H] {P Q : H → Prop} {t : Turn H} {i : Nat}
    (hold : ∀ f, d.files i = some f → P f.handle) (hkept : ∀ k, P k → Q k)
    (hask : ∀ {α : Type} (op : Operation H α), t = .ask op → ∀ a f,
      (fs.perform op d.state).1 = .ok a → op.opened a = some f → Q f.handle)
    (huse : ∀ {ε α : Type} (op : FileOperation ε α), t = .use i op → ∀ f, d.files i = some f →
      Q (op.onDevice f.name (f.handle, d.state)).2.1) :
    ∀ g, (d.step fs t).files i = some g → Q g.handle := by
  have hafter : ∀ {s : σ} {x : Option (OpenFile H)}, (∀ f, x = some f → Q f.handle) →
      ∀ g, (d.after s x).files i = some g → Q g.handle := by
    intro s x hx g hg
    dsimp only [after] at hg
    split at hg
    · exact hx g hg
    · exact hkept g.handle (hold g hg)
  cases t with
  | pass => exact hafter nofun
  | ask op =>
    apply hafter
    intro f hf
    obtain ⟨a, ha, hfile⟩ := opened_of_answer hf
    exact hask op rfl a f ha hfile
  | use j op =>
    rw [Dialog.step]
    cases hd : d.files j with
    | none => exact hafter nofun
    | some f =>
      intro g hg
      dsimp only [after, withFile] at hg
      split at hg
      · cases hg
      · split at hg
        · next hi =>
          subst hi
          rw [← Option.some.inj hg, OpenFile.perform_apply]
          exact huse op rfl f hd
        · exact hkept g.handle (hold g hg)

section Holds

variable {S : σ → Prop} {F : σ → H → Prop}

/-- A call keeps what the request to the filesystem keeps, or what is done with the
handle of a file. -/
theorem Holds.step [Device σ H] (h : Holds S F d) (t : Turn H)
    (hask : ∀ {α : Type} (op : Operation H α), t = .ask op → ∀ s, S s →
      Carries S F s (fs.perform op s).2 ∧
      ∀ a f, (fs.perform op s).1 = .ok a → op.opened a = some f →
        F (fs.perform op s).2 f.handle)
    (huse : ∀ {ε α : Type} (op : FileOperation ε α) (name : Path) (k : H) (s : σ), S s → F s k →
      Carries S F s (op.onDevice name (k, s)).2.2 ∧
      F (op.onDevice name (k, s)).2.2 (op.onDevice name (k, s)).2.1) :
    Holds S F (d.step fs t) := by
  have hcarries : Carries S F d.state (d.step fs t).state := by
    cases t with
    | pass => exact ⟨h.state, fun _ hk => hk⟩
    | ask op => exact (hask op rfl d.state h.state).1
    | use i op =>
      cases hd : d.files i with
      | none =>
        rw [Dialog.step, hd]
        exact ⟨h.state, fun _ hk => hk⟩
      | some f =>
        rw [state_step_use hd]
        exact (huse op f.name f.handle d.state h.state (h.files i f hd)).1
  refine ⟨hcarries.state, fun i => files_step (h.files i) hcarries.handles ?_ ?_⟩
  · rintro α op rfl a f ha hf
    exact (hask op rfl d.state h.state).2 a f ha hf
  · rintro ε α op rfl f hf
    rw [state_step_use hf]
    exact (huse op f.name f.handle d.state h.state (h.files i f hf)).2

end Holds

end Dialog

end ConfinedFs
