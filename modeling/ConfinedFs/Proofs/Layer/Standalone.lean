import ConfinedFs.Proofs.Layer.MemoryJail
import ConfinedFs.Proofs.Memory.MirroredOperations
import ConfinedFs.Proofs.Memory.Rerooted

/-!
A jail over a tree in memory without links is a filesystem of its own. What is asked of it
on the way down from its top is answered as if the tree below its base were a tree by itself,
with the base as its top, and as if the paths were seen from there.
-/

namespace ConfinedFs

open ConfinedFs.Path

variable {σ H ε α : Type} {base p : Path}

/-- A path that does not climb out of a jail and leads further down than its top. -/
structure Path.LeadsDown (p : Path) : Prop where
  stays : p.climbsOut = false
  below : p.fromTop ≠ top

theorem Path.LeadsDown.names_ne (h : p.LeadsDown) : p.names ≠ [] := by
  intro hnil
  refine h.below ?_
  rw [fromTop_eq, hnil]
  rfl

namespace Operation

/-- The same request with its paths as they are seen from the top. -/
def fromTop : Operation H α → Operation H α
  | openFile p o => openFile p.fromTop o
  | stat p => stat p.fromTop
  | lstat p => lstat p.fromTop
  | rename source target => rename source.fromTop target.fromTop
  | remove p => remove p.fromTop
  | tempFile draws dir stem => tempFile draws dir.fromTop stem
  | readDir p => readDir p.fromTop
  | createDirAll p mode => createDirAll p.fromTop mode
  | symlink target link => symlink target link.fromTop
  | readlink p => readlink p.fromTop

/-- Is the request about what is further down than the top of a jail, and none for a link or
for a file with a new name? The top may be listed. -/
def LeadsDown : Operation H α → Prop
  | openFile p _ | stat p | lstat p | remove p | createDirAll p _ => p.LeadsDown
  | rename source target => source.LeadsDown ∧ target.LeadsDown
  | readDir p => p.climbsOut = false
  | tempFile _ _ _ | symlink _ _ | readlink _ => False

theorem LeadsDown.not_crosses {op : Operation H α} (h : op.LeadsDown) : ¬ op.Crosses := by
  rintro (⟨p, hp, hclimbs⟩ | hstores)
  · have hstays : p.climbsOut = false := by
      cases op with
      | openFile q o | stat q | lstat q | remove q | createDirAll q mode =>
        rw [List.mem_singleton.1 hp]
        exact Path.LeadsDown.stays h
      | readDir q =>
        rw [List.mem_singleton.1 hp]
        exact h
      | rename source target =>
        rcases List.mem_cons.1 hp with rfl | hp
        · exact h.1.stays
        · rw [List.mem_singleton.1 hp]
          exact h.2.stays
      | tempFile draws dir stem | symlink target link | readlink q => exact h.elim
    rw [hstays] at hclimbs
    cases hclimbs
  · cases op with
    | symlink target link => exact h
    | _ => exact hstores

/-- Two answers that are the same but for the name of a file and the number of its cell. -/
def SameAnswer : Operation Memory.Handle α → α → α → Prop
  | openFile _ _, f, f' => f'.handle = { f.handle with cell := f'.handle.cell }
  | tempFile _ _ _, f, f' => f'.handle = { f.handle with cell := f'.handle.cell }
  | _, a, a' => a = a'

end Operation

namespace Turn

/-- The same call with the paths of a request as they are seen from the top. -/
def fromTop : Turn H → Turn H
  | ask op => ask op.fromTop
  | use i op => use i op
  | pass => pass

/-- What is done with a file is about no path. -/
def LeadsDown : Turn H → Prop
  | ask op => op.LeadsDown
  | use _ _ | pass => True

end Turn

namespace Memory

open ConfinedFs.Action (Coupled)

variable {R : CellId → CellId → Prop}

/-- Files with twin handles, of which the names end alike. -/
structure TwinFiles (R : CellId → CellId → Prop) (f f' : OpenFile Handle) : Prop where
  handles : f.handle.Twin R f'.handle
  names : f.name.baseName = f'.name.baseName

/-- Answers that are the same, or twin files. -/
def TwinAnswers (R : CellId → CellId → Prop) : Operation Handle α → α → α → Prop
  | .openFile _ _, f, f' => TwinFiles R f f'
  | .tempFile _ _ _, f, f' => TwinFiles R f f'
  | _, a, a' => a = a'

theorem TwinAnswers.sameAnswer {op : Operation Handle α} {a a' : α} (h : TwinAnswers R op a a') :
    op.SameAnswer a a' := by
  cases op with
  | openFile p o => exact TwinFiles.handles h |>.same
  | tempFile draws dir stem => exact TwinFiles.handles h |>.same
  | _ => exact h

end Memory

namespace Jail

open ConfinedFs.Action (Coupled)
open ConfinedFs.Memory (Mirror TwinAnswers TwinFiles)

variable {m n m₀ n₀ : Memory} {R : CellId → CellId → Prop}

/-- What the jail has asked for below it, it answers under the names that its caller
knows. -/
theorem coupled_shown {S : Memory → Memory → Prop} {op : Operation Memory.Handle α}
    {Q : α → α → Prop} {y : Action FileError Memory α} (hcrosses : ¬ op.Crosses)
    (h : Coupled S (fun a a' => ∃ shown, op.shown base a = .ok shown ∧ Q shown a')
      (Memory.fileSystem.perform (op.handedDown base)) y m n) :
    Coupled S Q ((confine Memory.fileSystem base).fileSystem.perform op) y m n := by
  rw [perform_of_not_crosses hcrosses, ← bind_pure y]
  refine h.bind ?_
  rintro a a' m' n' - - ⟨shown, hshown, hQ⟩ h'
  rw [hshown]
  exact Coupled.pure h' hQ

/-- A request on the way down from the top of the jail is answered as it is in the other
tree. -/
theorem coupled_perform (hbase : base.isAbsolute = true) {op : Operation Memory.Handle α}
    (hdown : op.LeadsDown) (h : Mirror R base.names [] m₀ n₀ m n) :
    Coupled (Mirror R base.names [] m₀ n₀) (TwinAnswers R op)
      ((confine Memory.fileSystem base).fileSystem.perform op)
      (Memory.fileSystem.perform op.fromTop) m n := by
  have hinside : ∀ {p : Path}, p.climbsOut = false →
      inside base p = ofNames (base.names ++ p.names) := inside_eq hbase
  have htop : ∀ p : Path, p.fromTop = ofNames ([] ++ p.names) := fromTop_eq
  have hdescribed : ∀ {p : Path}, p.LeadsDown → ∀ followLast,
      Outcomes (fun a a' => a.named p = a')
        ((m.resolve (inside base p) followLast).bind
          (m.describe · (inside base p).baseName.bytes))
        ((n.resolve p.fromTop followLast).bind (n.describe · p.fromTop.baseName.bytes)) := by
    intro p hp followLast
    have houtcomes := Memory.described_outcomes h hp.names_ne followLast
      (inside base p).baseName.bytes p
    rwa [← hinside hp.stays, ← htop p, ← baseName_fromTop hp.stays hp.names_ne] at houtcomes
  apply coupled_shown hdown.not_crosses
  cases op with
  | openFile p o =>
    have hp : p.LeadsDown := hdown
    have hopen := Memory.coupled_openFile h p.names o
    rw [← hinside hp.stays, ← htop p] at hopen
    refine hopen.mono ?_
    rintro f f' ⟨htwin, hname⟩
    refine ⟨_, rfl, htwin, ?_⟩
    rw [hname, baseName_fromTop hp.stays hp.names_ne]
    rfl
  | stat p =>
    have hp : p.LeadsDown := hdown
    exact Coupled.query h ((hdescribed hp true).mono fun _ _ heq => ⟨_, rfl, heq⟩)
  | lstat p =>
    have hp : p.LeadsDown := hdown
    exact Coupled.query h ((hdescribed hp false).mono fun _ _ heq => ⟨_, rfl, heq⟩)
  | rename source target =>
    have hrename := Memory.coupled_rename h hdown.1.names_ne hdown.2.names_ne
    rw [← hinside hdown.1.stays, ← hinside hdown.2.stays, ← htop source, ← htop target] at hrename
    exact hrename.mono fun _ _ _ => ⟨_, rfl, rfl⟩
  | remove p =>
    have hp : p.LeadsDown := hdown
    have hremove := Memory.coupled_remove h hp.names_ne
    rw [← hinside hp.stays, ← htop p] at hremove
    exact hremove.mono fun _ _ _ => ⟨_, rfl, rfl⟩
  | createDirAll p mode =>
    have hp : p.LeadsDown := hdown
    have hcreate := Memory.coupled_createDirAll h p.names mode
    rw [← hinside hp.stays, ← htop p] at hcreate
    exact hcreate.mono fun _ _ _ => ⟨_, rfl, rfl⟩
  | readDir p =>
    have hstays : p.climbsOut = false := hdown
    have hlisting := Memory.readDir_outcomes h p.names
    rw [← hinside hstays, fromTop_ofNames, ← htop p] at hlisting
    refine Coupled.query h (hlisting.mono fun l l' heq => ⟨_, rfl, ?_⟩)
    exact congrArg Listing.mk heq
  | tempFile draws dir stem | symlink target link | readlink p => exact hdown.elim

section Dialogs

variable {d d' : Dialog Memory Memory.Handle}

/-- Dialogs with trees that mirror one another below the base and the top, in which as many
files have been handed out, which are twins. -/
abbrev Mirrored (R : CellId → CellId → Prop) (base : Path) (m₀ n₀ : Memory) :
    Dialog Memory Memory.Handle → Dialog Memory Memory.Handle → Prop :=
  Dialog.InStep (Mirror R base.names [] m₀ n₀) (Option.Rel (TwinFiles R))

theorem twinFiles_opened {op : Operation Memory.Handle α} {r r' : Except FileError α}
    (h : Outcomes (TwinAnswers R op) r r') :
    Option.Rel (TwinFiles R) (r.toOption.bind op.opened) (r'.toOption.bind op.fromTop.opened) := by
  cases r <;> cases r'
  case error.error => exact .none
  case ok.ok f f' =>
    cases op with
    | openFile p o | tempFile draws dir stem => exact .some h
    | _ => exact .none
  all_goals exact h.elim

/-- What is done with twin files has the same outcome. -/
theorem coupled_onDevice {f f' : OpenFile Memory.Handle} (hfiles : TwinFiles R f f')
    (h : Mirror R base.names [] m₀ n₀ m n) (op : FileOperation ε α) :
    Coupled (Memory.Handle.Twins R base.names [] m₀ n₀) Eq (op.onDevice f.name)
      (op.onDevice f'.name) (f.handle, m) (f'.handle, n) := by
  rw [Memory.Handle.onDevice_congr op hfiles.names]
  exact Memory.Handle.respects_onDevice op f'.name _ _ ⟨h, hfiles.handles⟩

theorem fileAnswer_of_mirrored (h : Mirrored R base m₀ n₀ d d') (i : Nat)
    (op : FileOperation ε α) : d.fileAnswer i op = d'.fileAnswer i op := by
  have hfiles := h.files i
  rw [Dialog.fileAnswer, Dialog.fileAnswer]
  cases hd : d.files i <;> cases hd' : d'.files i <;> rw [hd, hd'] at hfiles
  case none.none => rfl
  case some.some f f' =>
    cases hfiles with
    | some htwin =>
      rw [Option.map_some, Option.map_some, OpenFile.perform_apply, OpenFile.perform_apply]
      exact congrArg some (coupled_onDevice htwin h.state op).outcomes.eq
  all_goals cases hfiles

theorem mirrored_step (hbase : base.isAbsolute = true) (h : Mirrored R base m₀ n₀ d d')
    {t : Turn Memory.Handle} (ht : t.LeadsDown) :
    Mirrored R base m₀ n₀ (d.step (confine Memory.fileSystem base).fileSystem t)
      (d'.step Memory.fileSystem t.fromTop) := by
  cases t with
  | pass => exact h.after h.state .none
  | ask op =>
    have hcoupled := coupled_perform hbase ht h.state
    exact h.after hcoupled.states (twinFiles_opened hcoupled.outcomes)
  | use i op =>
    have hfiles := h.files i
    rw [Turn.fromTop, Dialog.step, Dialog.step]
    cases hd : d.files i <;> cases hd' : d'.files i <;> rw [hd, hd'] at hfiles
    case none.none => exact h.after h.state .none
    case some.some f f' =>
      cases hfiles with
      | some htwin =>
        have hcoupled := (coupled_onDevice htwin h.state op).states
        dsimp only
        rw [OpenFile.perform_apply, OpenFile.perform_apply]
        refine (h.withFile (.some ⟨hcoupled.handles, ?_⟩)).after hcoupled.mirror .none
        exact htwin.names
    all_goals cases hfiles

/-- A jail at a directory of a tree without links, and the tree below that directory as a
tree of its own, with the directory as its top. Whatever is asked of both, on the way down
from the top of the jail and with the paths as they are seen from there, is answered alike,
in each run and at any time in it: all requests fail for the same reason or have the same
answer, and the files that they hand out do the same. What is below the base stays the same
as what is in the other tree, and everything else in the tree of the jail stays as it was. -/
theorem run_standalone (h : m.WellFormed) (hlinks : ∀ k c, m.nodeAt k ≠ some ⟨.symlink, c⟩)
    (hbase : base.isAbsolute = true)
    (hdir : ∃ d, m.nodeAt base.names = some d ∧ d.isDir = true) :
    (m.rerooted base.names).WellFormed ∧
    (∀ k, (m.rerooted base.names).entryAt k = m.entryAt (base.names ++ k)) ∧
    ∀ n : Memory, n.WellFormed → (∀ k, k ≠ [] → n.entryAt k = m.entryAt (base.names ++ k)) →
      ∀ turns : List (Turn Memory.Handle), (∀ t ∈ turns, t.LeadsDown) →
        let fs := (confine Memory.fileSystem base).fileSystem
        let d := Dialog.run fs { state := m } turns
        let d' := Dialog.run Memory.fileSystem { state := n } (turns.map Turn.fromTop)
        (∀ {α : Type} (op : Operation Memory.Handle α), op.LeadsDown →
          Outcomes op.SameAnswer (d.answer fs op) (d'.answer Memory.fileSystem op.fromTop)) ∧
        (∀ (i : Nat) {ε α : Type} (op : FileOperation ε α), d.fileAnswer i op = d'.fileAnswer i op) ∧
        (∀ k, k ≠ [] → d.state.entryAt (base.names ++ k) = d'.state.entryAt k) ∧
        d'.state.entryAt [] = n.entryAt [] ∧
        ∀ k, k.isBelow base.names = false → d.state.entryAt k = m.entryAt k := by
  refine ⟨Memory.wellFormed_rerooted h hdir, Memory.entryAt_rerooted h hdir, ?_⟩
  intro n hn hentries turns hturns fs d d'
  have hstart := Memory.mirror_of_entries h hn hlinks hdir hentries
  have hrun : Mirrored (Memory.Corresponds m n base.names) base m n d d' :=
    Dialog.run_related ⟨rfl, hstart, fun _ => .none⟩
      fun t ht _ _ h => mirrored_step hbase h (hturns t ht)
  refine ⟨?_, ?_, ?_, ?_, ?_⟩
  · intro α op hop
    exact (coupled_perform hbase hop hrun.state).outcomes.mono fun _ _ => TwinAnswers.sameAnswer
  · intro i ε α op
    exact fileAnswer_of_mirrored hrun i op
  · intro k hk
    exact hrun.state.entryAt_eq hk
  · exact hrun.state.right.entryAt_eq rfl
  · intro k hk
    exact hrun.state.left.entryAt_eq hk

section House

private def room : Name := ⟨[114], by decide⟩

private def hall : Name := ⟨[104], by decide⟩

private def chest : Name := ⟨[99], by decide⟩

/-- A tree with a directory for a jail, a directory in it and a file beside it. -/
private def house : Memory :=
  let made := (Memory.createDirAll (ofNames [room, chest]) 0o700 .fresh).2
  (Memory.openFile (ofNames [hall]) .creating made).2

private theorem wellFormed_house : house.WellFormed := by
  have hmade := (Memory.atomic_createDirAll (ofNames [room, chest]) 0o700).wellFormed
    Memory.wellFormed_fresh
  exact (Memory.atomic_openFile (ofNames [hall]) .creating).wellFormed hmade

private theorem plain_house : house.Plain := Memory.plain_of_slots (by decide)

/-- A file that is made, written and moved to the directory, under paths that need cleaning,
and a file that is not there, removed. -/
private def furnishing : List (Turn Memory.Handle) :=
  [.ask (.openFile ⟨[99, 47, 46, 46, 47, 104]⟩ .creating), .use 0 (.write [42]),
    .ask (.rename ⟨[47, 104]⟩ ⟨[99, 47, 104]⟩), .ask (.remove ⟨[104]⟩)]

private theorem leadsDown_furnishing : ∀ t ∈ furnishing, t.LeadsDown := by
  have hdown : ∀ p : Path, p.climbsOut = false ∧ p.fromTop ≠ top → p.LeadsDown :=
    fun _ hp => ⟨hp.1, hp.2⟩
  intro t ht
  simp only [furnishing, List.mem_cons, List.not_mem_nil, or_false] at ht
  rcases ht with rfl | rfl | rfl | rfl
  · exact hdown _ (by decide)
  · trivial
  · exact ⟨hdown _ (by decide), hdown _ (by decide)⟩
  · exact hdown _ (by decide)

/-- The file is the one in the room and the one in the tree by itself, the one in the hall
is left alone, and what was moved is not found on either side. -/
theorem run_standalone_furnished :
    (house.WellFormed ∧ (∀ k c, house.nodeAt k ≠ some ⟨.symlink, c⟩) ∧
        (ofNames [room]).isAbsolute = true ∧
        (∃ d, house.nodeAt (ofNames [room]).names = some d ∧ d.isDir = true) ∧
        ∀ t ∈ furnishing, t.LeadsDown) ∧
      let d := Dialog.run (confine Memory.fileSystem (ofNames [room])).fileSystem
        { state := house } furnishing
      let d' := Dialog.run Memory.fileSystem { state := house.rerooted [room] }
        (furnishing.map Turn.fromTop)
      d'.state.entryAt [chest, hall] = some (.file, ⟨[42], 0o666⟩) ∧
        d.state.entryAt [room, chest, hall] = d'.state.entryAt [chest, hall] ∧
        d.state.entryAt [hall] = house.entryAt [hall] := by
  have hdir : ∃ d, house.nodeAt (ofNames [room]).names = some d ∧ d.isDir = true :=
    ⟨⟨.directory, 1⟩, by decide, rfl⟩
  obtain ⟨hwf, hentries, hrun⟩ :=
    run_standalone wellFormed_house plain_house (isAbsolute_ofNames [room]) hdir
  refine ⟨⟨wellFormed_house, plain_house, isAbsolute_ofNames _, hdir, leadsDown_furnishing⟩, ?_⟩
  obtain ⟨-, -, hsame, -, houtside⟩ :=
    hrun _ hwf (fun k _ => hentries k) furnishing leadsDown_furnishing
  rw [names_ofNames] at hsame houtside
  exact ⟨by decide, hsame [chest, hall] (by decide), houtside [hall] (by decide)⟩

end House

end Dialogs

end Jail

end ConfinedFs
