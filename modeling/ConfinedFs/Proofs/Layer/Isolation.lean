import ConfinedFs.Proofs.Layer.Pair
import ConfinedFs.Proofs.Layer.Routing
import ConfinedFs.Proofs.Triple

/-!
The two sides of a mount. A dialog with a mount is two dialogs, one with each of the
filesystems, which hear of the calls that are routed to them and of no others. The
proof keeps the mount in step with one side at a time: the part of the state that the
side acts on is the same, and so are the handles that belong to it.
-/

namespace ConfinedFs

open ConfinedFs.Path

variable {ρ σ τ H K ε α : Type} {point : Path}

/-- A call as one side of a mount hears of it. -/
def Turn.onSide (point : Path) (mounted : Bool) : Turn H → Turn H
  | pass => pass
  | ask op =>
    if op.refusal point = none ∧ decide (point.names <+: op.lead.names) = mounted then
      ask (op.routed point)
    else pass
  | use i op => use i op

/-- Is it a call for the listing in which the mountpoint is shown? -/
def Turn.ShowsPoint (point : Path) : Turn H → Prop
  | ask op => op.ShowsPoint point
  | _ => False

/-- Of two files in the same place the second one is there if the first one's handle is
of the given kind, and has the same handle. -/
def Shared (mine : H → Bool) (x y : Option (OpenFile H)) : Prop :=
  y.map (·.handle) = (x.map (·.handle)).filter mine

section Shared

variable {mine : H → Bool} {f : OpenFile H} {y : Option (OpenFile H)}

theorem shared_none : Shared mine none y ↔ y = none := by simp [Shared]

theorem shared_of_not_mine (h : mine f.handle = false) : Shared mine (some f) y ↔ y = none := by
  simp [Shared, Option.filter_some, h]

theorem shared_of_mine (h : mine f.handle = true) :
    Shared mine (some f) y ↔ ∃ f', y = some f' ∧ f'.handle = f.handle := by
  simp [Shared, Option.filter_some, h]

end Shared

theorem Operation.handle_relabelled (op : Operation H α) (point : Path) (a : α) :
    (op.opened (op.relabelled a)).map (·.handle) =
      ((op.routed point).opened a).map (·.handle) := by
  cases op <;> rfl

namespace Mount

section

variable {op : Operation H α}

theorem perform_of_refusal (under source : FileSystem ρ H) {e : FileError}
    (hshows : ¬ op.ShowsPoint point) (h : op.refusal point = some e) (s : ρ) :
    (attach under point source).fileSystem.perform op s = (.error e, s) := by
  rw [perform_attach under source hshows, h]
  rfl

theorem perform_of_routed (under source : FileSystem ρ H) (hshows : ¬ op.ShowsPoint point)
    (h : op.refusal point = none) (s : ρ) :
    (attach under point source).fileSystem.perform op s =
      (((chosen under point source op).perform (op.routed point) s).1.map op.relabelled,
        ((chosen under point source op).perform (op.routed point) s).2) := by
  rw [perform_attach under source hshows, h]
  exact Action.bind_pure_apply _ _ s

end

section OneSide

variable {part : Part ρ σ} {mine : H → Bool} {under source own other : FileSystem ρ H}
  {mounted : Bool} {d d' : Dialog ρ H}

/-- The side and the other one. -/
def IsSide (under source own other : FileSystem ρ H) (mounted : Bool) : Prop :=
  own = (if mounted then source else under) ∧ other = if mounted then under else source

theorem chosen_of_side (hside : IsSide under source own other mounted) {op : Operation H α}
    (h : decide (point.names <+: op.lead.names) = mounted) : chosen under point source op = own := by
  rw [hside.1, ← h, chosen]
  simp

theorem chosen_of_other (hside : IsSide under source own other mounted) {op : Operation H α}
    (h : decide (point.names <+: op.lead.names) ≠ mounted) :
    chosen under point source op = other := by
  rw [hside.2, chosen]
  cases mounted with
  | true => rw [if_neg (by simpa using h), if_pos rfl]
  | false => rw [if_pos (by simpa using h), if_neg nofun]

/-- The dialogs with the mount and with one side alone. -/
abbrev KeepsUp (part : Part ρ σ) (mine : H → Bool) : Dialog ρ H → Dialog ρ H → Prop :=
  Dialog.InStep (fun s s' => part.get s = part.get s') (Shared mine)

/-- The mount answers what the side in step with it answers. -/
theorem answer_of_keepsUp (hside : IsSide under source own other mounted)
    (hown : own.ActsOn part mine) (h : KeepsUp part mine d d') {op : Operation H α}
    (hshows : ¬ op.ShowsPoint point) (hrefusal : op.refusal point = none)
    (hroute : decide (point.names <+: op.lead.names) = mounted) :
    d.answer (attach under point source).fileSystem op =
      (d'.answer own (op.routed point)).map op.relabelled := by
  have hrun := perform_of_routed under source hshows hrefusal d.state
  have hresult := (hown.agree (op.routed point) d.state d'.state h.state).1
  rw [Dialog.answer, Dialog.answer, hrun, chosen_of_side hside hroute, hresult]

theorem file_eq_none (h : KeepsUp part mine d d') {i : Nat} (hf : d.files i = none) :
    d'.files i = none := by
  have hfiles := h.files i
  rw [hf] at hfiles
  exact shared_none.1 hfiles

/-- A file of the other side is not there. -/
theorem file_of_not_mine (h : KeepsUp part mine d d') {i : Nat} {f : OpenFile H}
    (hf : d.files i = some f) (hmine : mine f.handle = false) : d'.files i = none := by
  have hfiles := h.files i
  rw [hf] at hfiles
  exact (shared_of_not_mine hmine).1 hfiles

variable [Device ρ H]

theorem keepsUp_ask (hside : IsSide under source own other mounted) (hown : own.ActsOn part mine)
    (hother : other.Spares part mine) (h : KeepsUp part mine d d') {op : Operation H α}
    (hshows : ¬ op.ShowsPoint point) :
    KeepsUp part mine (Dialog.step (attach under point source).fileSystem d (.ask op))
      (Dialog.step own d' ((Turn.ask op).onSide point mounted)) := by
  rw [Turn.onSide, Dialog.step, Dialog.answer]
  cases hrefusal : op.refusal point with
  | some e =>
    have hrun := perform_of_refusal under source hshows hrefusal d.state
    have hpass : ¬ ((some e = none) ∧ decide (point.names <+: op.lead.names) = mounted) :=
      fun h => Option.some_ne_none e h.1
    rw [if_neg hpass, hrun]
    exact h.after h.state rfl
  | none =>
    have hrun := perform_of_routed under source hshows hrefusal d.state
    rw [hrun]
    by_cases hroute : decide (point.names <+: op.lead.names) = mounted
    · obtain ⟨hresult, hstate⟩ := hown.agree (op.routed point) d.state d'.state h.state
      rw [if_pos ⟨rfl, hroute⟩, chosen_of_side hside hroute, Dialog.step, Dialog.answer, ← hresult]
      refine h.after hstate ?_
      cases ha : (own.perform (op.routed point) d.state).1 with
      | error e => rfl
      | ok a =>
        have hmine := hown.opened (op.routed point) d.state a
        have hhandle := op.handle_relabelled point a
        simp only [Except.map, Except.toOption, Option.bind_some, Shared, hhandle]
        cases hopened : (op.routed point).opened a with
        | none => rfl
        | some f =>
          rw [Option.map_some, Option.filter_some, if_pos (hmine f ha hopened)]
    · rw [if_neg fun h => hroute h.2, chosen_of_other hside hroute]
      refine h.after ((hother.frame _ _).trans h.state) ?_
      cases ha : (other.perform (op.routed point) d.state).1 with
      | error e => rfl
      | ok a =>
        have hmine := hother.opened (op.routed point) d.state a
        have hhandle := op.handle_relabelled point a
        simp only [Except.map, Except.toOption, Option.bind_some, Shared, hhandle]
        cases hopened : (op.routed point).opened a with
        | none => rfl
        | some f =>
          rw [Option.map_some, Option.filter_some, hmine f ha hopened]
          rfl

/-- What a file does to the state and its handle does not depend on its name. -/
theorem perform_handle [Device.Renames ρ] (op : FileOperation ε α) (f : OpenFile H) (q : Path)
    (s : ρ) : OpenFile.perform op (f, s) =
      ((op.onDevice q (f.handle, s)).1.map (op.relabelled f.name),
        f.withHandle (op.onDevice q (f.handle, s)).2.1, (op.onDevice q (f.handle, s)).2.2) := by
  rw [OpenFile.perform_apply, FileOperation.onDevice_name op f.name q]

theorem keepsUp_use [Device.Renames ρ] (hdevice : Device.Separates part mine)
    (h : KeepsUp part mine d d') (i : Nat) (op : FileOperation ε α) :
    KeepsUp part mine (Dialog.step (attach under point source).fileSystem d (.use i op))
      (Dialog.step own d' ((Turn.use i op).onSide point mounted)) := by
  have hfiles := h.files i
  rw [Turn.onSide, Dialog.step, Dialog.step]
  cases hd : d.files i with
  | none =>
    rw [hd] at hfiles
    rw [shared_none.1 hfiles]
    exact h.after h.state rfl
  | some f =>
    rw [hd] at hfiles
    dsimp only
    rw [perform_handle op f Path.top]
    cases hmine : mine f.handle with
    | false =>
      obtain ⟨hstill, hframe⟩ := hdevice.frame op Path.top f.handle d.state hmine
      have hd' := (shared_of_not_mine hmine).1 hfiles
      rw [hd']
      exact (h.withFileLeft i ((shared_of_not_mine hstill).2 hd')).after (hframe.trans h.state) rfl
    | true =>
      obtain ⟨f', hd', hhandle⟩ := (shared_of_mine hmine).1 hfiles
      obtain ⟨-, hnext, hstill, hstate⟩ :=
        hdevice.agree op Path.top f.handle d.state d'.state hmine h.state
      rw [hd']
      dsimp only
      rw [perform_handle op f' Path.top, hhandle]
      have hshared : Shared mine (some (f.withHandle (op.onDevice top (f.handle, d.state)).2.1))
          (some (f'.withHandle (op.onDevice top (f.handle, d'.state)).2.1)) :=
        (shared_of_mine hstill).2 ⟨_, rfl, hnext.symm⟩
      exact (h.withFile hshared).after hstate rfl

/-- After all calls the mount and the side are in step. -/
theorem keepsUp_run [Device.Renames ρ] (hside : IsSide under source own other mounted)
    (hown : own.ActsOn part mine) (hother : other.Spares part mine)
    (hdevice : Device.Separates part mine) {turns : List (Turn H)}
    (hturns : ∀ t ∈ turns, ¬ t.ShowsPoint point) (h : KeepsUp part mine d d') :
    KeepsUp part mine (Dialog.run (attach under point source).fileSystem d turns)
      (Dialog.run own d' (turns.map (Turn.onSide point mounted))) := by
  apply Dialog.run_related h
  intro t ht d d' h
  cases t with
  | pass => exact h.after h.state rfl
  | ask op => exact keepsUp_ask hside hown hother h (hturns _ ht)
  | use i op => exact keepsUp_use hdevice h i op

/-- A file of the mount that is a file of the side answers as it does there. -/
theorem fileAnswer_of_keepsUp [Device.Renames ρ] (hdevice : Device.Separates part mine)
    (h : KeepsUp part mine d d') {i : Nat} {f : OpenFile H} (hf : d.files i = some f)
    (hmine : mine f.handle = true) :
    ∃ g, d'.files i = some g ∧ g.handle = f.handle ∧
      ∀ {ε α : Type} (op : FileOperation ε α),
        d.fileAnswer i op = (d'.fileAnswer i op).map (Except.map (op.relabelled f.name)) := by
  have hfiles := h.files i
  rw [hf] at hfiles
  obtain ⟨g, hg, hhandle⟩ := (shared_of_mine hmine).1 hfiles
  refine ⟨g, hg, hhandle, ?_⟩
  intro ε α op
  have hresult := (hdevice.agree op g.name f.handle d.state d'.state hmine h.state).1
  rw [Dialog.fileAnswer, Dialog.fileAnswer, hf, hg, Option.map_some, Option.map_some,
    Option.map_some, perform_handle op f g.name, OpenFile.perform_apply, hhandle, hresult]

/-- What the side alone does to the state, it does to its own part. -/
theorem spared_run {fs : FileSystem ρ H} (hfs : fs.Spares part mine)
    (hdevice : Device.Separates part mine) (s : ρ) (turns : List (Turn H)) :
    part.get (Dialog.run fs { state := s } turns).state = part.get s := by
  have hstart : Dialog.Holds (fun s' => part.get s' = part.get s) (fun _ h => mine h = false)
      ({ state := s } : Dialog ρ H) := ⟨rfl, nofun⟩
  refine (Dialog.run_keeps hstart fun t _ d h => h.step t ?_ ?_).state
  · intro α op _ s' hs'
    exact ⟨⟨(hfs.frame op s').trans hs', fun _ hk => hk⟩, hfs.opened op s'⟩
  · intro ε α op name k s' hs' hk
    obtain ⟨hstill, hframe⟩ := hdevice.frame op name k s' hk
    exact ⟨⟨hframe.trans hs', fun _ hk => hk⟩, hstill⟩

end OneSide

section Isolated

variable [Device σ H] [Device τ K] [Device.Renames σ] [Device.Renames τ]

/-- A mount of a filesystem on another one, each with a state of its own. A path leads to
the mounted one, at the path that joined to the mountpoint gives it back, if it is the
mountpoint or below it, and to the other one otherwise. Whatever is asked of the mount,
but for the listing that the mountpoint is shown in, the states are those to which the
calls that are routed to each side lead it alone; an answer is the one that the side
gives, under the name that the caller knows, and so is the answer of a file, which is a
file of one of the two. To move or remove the mountpoint under any of its spellings, or
to move something to the other side, is refused whatever the two filesystems are. -/
theorem run_isolated (U : FileSystem σ H) (V : FileSystem τ K) (point : Path) (s : σ) (t : τ)
    (turns : List (Turn (H ⊕ K))) (hturns : ∀ turn ∈ turns, ¬ turn.ShowsPoint point) :
    let under : FileSystem (σ × τ) (H ⊕ K) := U.within Part.first Sum.inl
    let source : FileSystem (σ × τ) (H ⊕ K) := V.within Part.second Sum.inr
    let m := (attach under point source).fileSystem
    let d := Dialog.run m { state := (s, t) } turns
    let u := Dialog.run under { state := (s, t) } (turns.map (Turn.onSide point false))
    let v := Dialog.run source { state := (s, t) } (turns.map (Turn.onSide point true))
    (∀ p, point.names <+: p.names → ∃ r : Path, route point.fromTop p = .mounted r ∧
      r.isAbsolute = true ∧ r.clean = r ∧ point.fromTop.join r = p.fromTop) ∧
    (∀ p, ¬ point.names <+: p.names → route point.fromTop p = .below p.fromTop) ∧
    d.state = (u.state.1, v.state.2) ∧ u.state.2 = t ∧ v.state.1 = s ∧
    (∀ {α : Type} (op : Operation (H ⊕ K) α), ¬ op.ShowsPoint point → op.refusal point = none →
      d.answer m op = if point.names <+: op.lead.names
        then (v.answer source (op.routed point)).map op.relabelled
        else (u.answer under (op.routed point)).map op.relabelled) ∧
    (∀ i, (d.files i = none ∧ u.files i = none ∧ v.files i = none) ∨
      ∃ f, d.files i = some f ∧
        ((∃ g, u.files i = some g ∧ v.files i = none ∧ g.handle = f.handle ∧
          ∀ {ε α : Type} (op : FileOperation ε α),
            d.fileAnswer i op = (u.fileAnswer i op).map (Except.map (op.relabelled f.name))) ∨
        (∃ g, v.files i = some g ∧ u.files i = none ∧ g.handle = f.handle ∧
          ∀ {ε α : Type} (op : FileOperation ε α),
            d.fileAnswer i op = (v.fileAnswer i op).map (Except.map (op.relabelled f.name))))) ∧
    (∀ {ρ L : Type} (under source : FileSystem ρ L),
      (∀ p, p.fromTop = point.fromTop →
        (attach under point source).fileSystem.remove p = throw .baseDirRemove) ∧
      (∀ a b, a.fromTop = point.fromTop ∨ b.fromTop = point.fromTop →
        (attach under point source).fileSystem.rename a b = throw .baseDirRename) ∧
      ∀ a b, a.fromTop ≠ point.fromTop → b.fromTop ≠ point.fromTop →
        ¬ ((point.names <+: a.names) ↔ (point.names <+: b.names)) →
        (attach under point source).fileSystem.rename a b = throw .crossDevice) := by
  intro under source m d u v
  have hunder : under.ActsOn Part.first Sum.isLeft :=
    FileSystem.actsOn_within (fun _ _ => rfl) fun _ => rfl
  have hsource : source.ActsOn Part.second Sum.isRight :=
    FileSystem.actsOn_within (fun _ _ => rfl) fun _ => rfl
  have hunder' : under.Spares Part.second Sum.isRight :=
    FileSystem.spares_within (fun _ _ => rfl) fun _ => rfl
  have hsource' : source.Spares Part.first Sum.isLeft :=
    FileSystem.spares_within (fun _ _ => rfl) fun _ => rfl
  have hbelow : IsSide under source under source false := ⟨rfl, rfl⟩
  have hmounted : IsSide under source source under true := ⟨rfl, rfl⟩
  have hu : KeepsUp Part.first Sum.isLeft d u :=
    keepsUp_run hbelow hunder hsource' separates_first hturns ⟨rfl, rfl, fun _ => rfl⟩
  have hv : KeepsUp Part.second Sum.isRight d v :=
    keepsUp_run hmounted hsource hunder' separates_second hturns ⟨rfl, rfl, fun _ => rfl⟩
  refine ⟨?_, fun p => route_of_not_starts, Prod.ext hu.state hv.state,
    spared_run hunder' separates_second _ _, spared_run hsource' separates_first _ _, ?_, ?_, ?_⟩
  · intro p hp
    obtain ⟨r, hroute, habsolute, hclean, hjoin, -⟩ := route_mounted hp
    exact ⟨r, hroute, habsolute, hclean, hjoin⟩
  · intro α op hshows hrefusal
    by_cases hp : point.names <+: op.lead.names
    · rw [if_pos hp]
      exact answer_of_keepsUp hmounted hsource hv hshows hrefusal (by simpa using hp)
    · rw [if_neg hp]
      exact answer_of_keepsUp hbelow hunder hu hshows hrefusal (by simpa using hp)
  · intro i
    cases hf : d.files i with
    | none => exact .inl ⟨rfl, file_eq_none hu hf, file_eq_none hv hf⟩
    | some f =>
      refine .inr ⟨f, rfl, ?_⟩
      -- The handle tells which of the two sides has the file.
      cases hhandle : f.handle with
      | inl h =>
        have hfirst : f.handle.isLeft = true := by rw [hhandle]; rfl
        have hsecond : f.handle.isRight = false := by rw [hhandle]; rfl
        obtain ⟨g, hg, hsame, hanswer⟩ := fileAnswer_of_keepsUp separates_first hu hf hfirst
        exact .inl ⟨g, hg, file_of_not_mine hv hf hsecond, hsame.trans hhandle, hanswer⟩
      | inr k =>
        have hfirst : f.handle.isLeft = false := by rw [hhandle]; rfl
        have hsecond : f.handle.isRight = true := by rw [hhandle]; rfl
        obtain ⟨g, hg, hsame, hanswer⟩ := fileAnswer_of_keepsUp separates_second hv hf hsecond
        exact .inr ⟨g, hg, file_of_not_mine hu hf hfirst, hsame.trans hhandle, hanswer⟩
  · intro ρ L under source
    exact ⟨fun _ => remove_point under source, fun _ _ => rename_point under source,
      fun _ _ => rename_across under source⟩

section TwoMemories

private def pointName : Name := ⟨[109], by decide⟩

private def fileName : Name := ⟨[102], by decide⟩

/-- A file is created below the mountpoint and written to, and the mountpoint is listed. -/
private def writing : List (Turn (Memory.Handle ⊕ Memory.Handle)) :=
  [.ask (.openFile (ofNames [pointName, fileName]) .creating), .use 0 (.write [1, 2]),
    .ask (.readDir (ofNames [pointName]))]

private def filePath : Path := ofNames [pointName, fileName]

private def mounted : FileSystem (Memory × Memory) (Memory.Handle ⊕ Memory.Handle) :=
  Memory.fileSystem.within Part.second Sum.inr

/-- What comes to the mounted memory. -/
private def mountedDialog : Dialog (Memory × Memory) (Memory.Handle ⊕ Memory.Handle) :=
  Dialog.run mounted { state := (.fresh, .fresh) }
    (writing.map (Turn.onSide (ofNames [pointName]) true))

/-- What is written below the mountpoint is written to the mounted memory, which tells of it
and holds the file that has been handed out. -/
theorem run_isolated_writing :
    (∀ turn ∈ writing, ¬ turn.ShowsPoint (ofNames [pointName])) ∧
      let under := Memory.fileSystem.within Part.first Sum.inl
      let m := (attach under (ofNames [pointName]) mounted).fileSystem
      let d := Dialog.run m { state := (.fresh, .fresh) } writing
      let u := Dialog.run under { state := (.fresh, .fresh) }
        (writing.map (Turn.onSide (ofNames [pointName]) false))
      d.state = (u.state.1, mountedDialog.state.2) ∧ u.state.2 = .fresh ∧
        mountedDialog.state.1 = .fresh ∧
        mountedDialog.answer mounted (.stat (ofNames [fileName])) =
          .ok ⟨fileName.bytes, .ofFile, 0o666, 2, 0⟩ ∧
        d.answer m (.stat filePath) = .ok ⟨fileName.bytes, .ofFile, 0o666, 2, 0⟩ ∧
        ∃ f g, d.files 0 = some f ∧ mountedDialog.files 0 = some g ∧ g.handle = f.handle ∧
          mountedDialog.fileAnswer 0 (.readAt 2 0) = some (.ok [1, 2]) ∧
          d.fileAnswer 0 (.readAt 2 0) = some (.ok [1, 2]) := by
  have hturns : ∀ turn ∈ writing, ¬ turn.ShowsPoint (ofNames [pointName]) := by
    simp [writing, Turn.ShowsPoint, Operation.ShowsPoint]
  obtain ⟨-, -, hstate, hunder, hsource, hanswers, hfiles, -⟩ := run_isolated Memory.fileSystem
    Memory.fileSystem (ofNames [pointName]) Memory.fresh Memory.fresh writing hturns
  have hstat : mountedDialog.answer mounted (.stat (ofNames [fileName])) =
      .ok ⟨fileName.bytes, .ofFile, 0o666, 2, 0⟩ := eq_ok_of_toOption (by decide +kernel)
  have hfile : (mountedDialog.files 0).isSome = true := by decide +kernel
  obtain ⟨r, hr, hdata⟩ : ∃ r, mountedDialog.fileAnswer 0 (.readAt 2 0) = some r ∧
      r.toOption = some [1, 2] := Option.bind_eq_some_iff.1 (by decide +kernel)
  rw [eq_ok_of_toOption hdata] at hr
  refine ⟨hturns, hstate, hunder, hsource, hstat, ?_, ?_⟩
  · refine (hanswers (.stat filePath) id rfl).trans ((if_pos (by decide)).trans ?_)
    exact congrArg (Except.map fun d => d.named filePath) hstat
  · rcases hfiles 0 with ⟨-, -, hnone⟩ | ⟨f, hf, ⟨g, -, hnone, -⟩ | ⟨g, hg, -, hsame, huses⟩⟩
    · rw [mountedDialog, mounted, hnone] at hfile
      cases hfile
    · rw [mountedDialog, mounted, hnone] at hfile
      cases hfile
    · exact ⟨f, g, hf, hg, hsame, hr, (huses (.readAt 2 0)).trans
        (congrArg (Option.map (Except.map fun data => data)) hr)⟩

end TwoMemories

end Isolated

end Mount

end ConfinedFs
