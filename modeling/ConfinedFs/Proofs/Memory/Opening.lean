import ConfinedFs.Proofs.Memory.Planting
import ConfinedFs.Proofs.Memory.ReadBack

/-!
Opening a file in memory. A path leads to one place if a link at its end is followed and to
another one if it is not: whether a file is new is asked about the second place, and the file is
looked for and created at the first one. Where a request is refused nothing is done. Otherwise the
file is the one that was there, emptied if that is asked for, or a new one, and nothing else
changes.
-/

namespace ConfinedFs.Memory

open ConfinedFs.Action (Triple)

variable {m m' m₁ : Memory} {j k r : Key} {c : CellId} {e : FileError} {p : Path}
  {o : OpenOptions} {n : Node}

section Followed

/-- Not a link: a directory, a file or a free place. -/
def NoLinkAt (m : Memory) (k : Key) : Prop := ∀ c, m.nodeAt k ≠ some ⟨.symlink, c⟩

theorem noLinkAt_of_dir {node : Node} (hnode : m.nodeAt k = some node)
    (hdir : node.isDir = true) : m.NoLinkAt k := by
  intro c hlink
  obtain rfl := Option.some.inj (hnode.symm.trans hlink)
  cases hdir

theorem Enterable.noLinkAt (h : m.Enterable k) : m.NoLinkAt k := by
  intro c hnode
  have hdir := h k _ List.prefix_rfl hnode
  cases hdir

/-- A walk that follows the link at its end does not end at one. -/
theorem noLinkAt_advance (h : m.WellFormed) {jump : List Step → Key → Except FileError Key}
    (hjump : ∀ steps k r, m.Enterable k → jump steps k = .ok r → m.NoLinkAt r)
    {steps : List Step} (hk : m.Enterable k) (hr : m.advance true jump steps k = .ok r) :
    m.NoLinkAt r := by
  induction steps generalizing k with
  | nil =>
    cases hr
    exact hk.noLinkAt
  | cons step rest ih =>
    cases step with
    | up => exact ih hk.parent hr
    | down n =>
      rw [advance_down] at hr
      cases hsight : m.sight (k ++ [n]) with
      | way =>
        rw [hsight] at hr
        refine ih (hk.concat fun node hnode => ?_) hr
        obtain ⟨kind, c⟩ := node
        cases kind <;> simp_all [sight, Node.isDir]
      | file =>
        simp only [hsight] at hr
        split at hr
        · cases hr
          intro c hnode
          simp [sight, hnode] at hsight
        · cases hr
      | link target =>
        simp only [hsight, Bool.true_or, if_true] at hr
        refine hjump _ _ _ ?_ hr
        split
        · exact h.enterable_top
        · exact hk

theorem noLinkAt_resolve (h : m.WellFormed) (hk : m.resolve p true = .ok k) : m.NoLinkAt k := by
  have hwithin : ∀ links steps j r, m.Enterable j →
      m.resolveWithin true links steps j = .ok r → m.NoLinkAt r := by
    intro links
    induction links with
    | zero => exact fun _ _ _ hj => noLinkAt_advance h (fun _ _ _ _ hr => by cases hr) hj
    | succ links ih => exact fun _ _ _ hj => noLinkAt_advance h ih hj
  exact hwithin _ _ _ _ h.enterable_top hk

end Followed

/-- If the file has to be new, there is nothing where the path leads, and a link at its end is
something. -/
def Unclaimed (m : Memory) (p : Path) (o : OpenOptions) : Prop :=
  o.createNew = true → ∃ l, m.resolve p false = .ok l ∧ m.nodeAt l = none

/-- The path leads to a file, or to a free place where one may be created. -/
def Openable (m : Memory) (p : Path) (o : OpenOptions) : Prop :=
  m.Unclaimed p o ∧ ∃ k, m.resolve p true = .ok k ∧
    ((∃ c, m.nodeAt k = some ⟨.file, c⟩) ∨ m.nodeAt k = none ∧ o.creates = true)

/-- Why a file is not opened. -/
inductive Refused (m : Memory) (p : Path) (o : OpenOptions) : FileError → Prop
  | astray {e : FileError} (hnew : o.createNew = true) (hl : m.resolve p false = .error e) :
      Refused m p o e
  | claimed {l : Key} {n : Node} (hnew : o.createNew = true) (hl : m.resolve p false = .ok l)
      (hnode : m.nodeAt l = some n) : Refused m p o .alreadyExists
  | unresolved {e : FileError} (hunclaimed : m.Unclaimed p o) (hk : m.resolve p true = .error e) :
      Refused m p o e
  | directory {k : Key} {c : CellId} (hunclaimed : m.Unclaimed p o)
      (hk : m.resolve p true = .ok k) (hnode : m.nodeAt k = some ⟨.directory, c⟩) :
      Refused m p o .notAFile
  | missing {k : Key} (hunclaimed : m.Unclaimed p o) (hk : m.resolve p true = .ok k)
      (hnode : m.nodeAt k = none) (hcreates : o.creates = false) : Refused m p o .entityNotFound

theorem openable_or_refused (h : m.WellFormed) (p : Path) (o : OpenOptions) :
    m.Openable p o ∨ ∃ e, Refused m p o e := by
  by_cases hunclaimed : m.Unclaimed p o
  · cases hk : m.resolve p true with
    | error e => exact .inr ⟨e, .unresolved hunclaimed hk⟩
    | ok k =>
      cases hnode : m.nodeAt k with
      | none =>
        cases hcreates : o.creates with
        | true => exact .inl ⟨hunclaimed, k, hk, .inr ⟨hnode, hcreates⟩⟩
        | false => exact .inr ⟨_, .missing hunclaimed hk hnode hcreates⟩
      | some n =>
        obtain ⟨kind, c⟩ := n
        cases kind with
        | file => exact .inl ⟨hunclaimed, k, hk, .inl ⟨c, hnode⟩⟩
        | directory => exact .inr ⟨_, .directory hunclaimed hk hnode⟩
        | symlink => exact absurd hnode (noLinkAt_resolve h hk c)
  · obtain ⟨hnew, hclaimed⟩ := Classical.not_imp.1 hunclaimed
    cases hl : m.resolve p false with
    | error e => exact .inr ⟨e, .astray hnew hl⟩
    | ok l =>
      cases hnode : m.nodeAt l with
      | none => exact absurd ⟨l, hl, hnode⟩ hclaimed
      | some n => exact .inr ⟨_, .claimed hnew hl hnode⟩

section Looking

theorem fileAt_of_unclaimed (h : m.WellFormed) (hunclaimed : m.Unclaimed p o) :
    m.fileAt p o = (m.resolve p true).bind m.fileStored := by
  cases hnew : o.createNew with
  | false =>
    rw [fileAt, hnew]
    rfl
  | true =>
    obtain ⟨l, hl, hnode⟩ := hunclaimed hnew
    have hexists : m.exists? l = false := by
      rw [← Bool.not_eq_true, h.exists?_iff, hnode]
      exact nofun
    rw [fileAt, hnew, hl]
    simp only [hexists, bind, Except.bind]
    rfl

theorem fileStored_of_free (h : m.WellFormed) (hk : m.nodeAt k = none) :
    m.fileStored k = .error .entityNotFound := by
  have hbelow : m.hasDescendants k = false := by
    rw [← Bool.not_eq_true]
    intro hbelow
    obtain ⟨n, hn, _⟩ := h.isDir_of_hasDescendants hbelow
    rw [hk] at hn
    cases hn
  rw [fileStored, hk, hbelow]
  rfl

theorem openFile_of_ok (hfile : m.fileAt p o = .ok c) : openFile p o m = handOut p o c m := by
  rw [openFile_eq]
  cases o.creates with
  | false => exact Action.bind_apply_of_ok (Prod.ext hfile rfl)
  | true =>
    have hfor : fileFor p o m = (.ok c, m) := by
      unfold fileFor
      rw [Action.bind_apply_of_ok (Action.look_apply _ m), hfile]
      rfl
    exact Action.bind_apply_of_ok hfor

theorem openFile_of_error (hfile : m.fileAt p o = .error e)
    (hmissing : e = .entityNotFound → o.creates = false) : openFile p o m = (.error e, m) := by
  rw [openFile_eq]
  cases hcreates : o.creates with
  | false => exact Action.bind_apply_of_error (Prod.ext hfile rfl)
  | true =>
    have hfor : fileFor p o m = (.error e, m) := by
      unfold fileFor
      rw [Action.bind_apply_of_ok (Action.look_apply _ m), hfile]
      cases e with
      | entityNotFound => cases (hmissing rfl).symm.trans hcreates
      | _ => rfl
    exact Action.bind_apply_of_error hfor

theorem openFile_of_created (hfile : m.fileAt p o = .error .entityNotFound)
    (hcreates : o.creates = true) (hk : m.resolve p true = .ok k)
    (hrun : createNode k .file ⟨[], o.mode &&& permissionMask⟩ m = (.ok c, m₁)) :
    openFile p o m = handOut p o c m₁ := by
  have hfor : fileFor p o m = (.ok c, m₁) := by
    unfold fileFor
    rw [Action.bind_apply_of_ok (Action.look_apply _ m), hfile]
    have hquery :
        (Action.query (resolve · p true) : Action FileError Memory Key) m = (.ok k, m) := by
      rw [Action.query_apply, hk]
    exact (Action.bind_apply_of_ok hquery).trans hrun
  rw [openFile_eq, hcreates]
  exact Action.bind_apply_of_ok hfor

end Looking

theorem openFile_of_refused (h : m.WellFormed) (hrefused : m.Refused p o e) :
    openFile p o m = (.error e, m) := by
  have harrives := resolve_arrives h p
  cases hrefused with
  | astray hnew hl =>
    have hlast := harrives false
    rw [hl] at hlast
    refine openFile_of_error ?_ fun he => absurd he hlast
    rw [fileAt, hnew, hl]
    rfl
  | claimed hnew hl hnode =>
    refine openFile_of_error ?_ nofun
    rw [fileAt, hnew, hl]
    simp only [h.exists?_iff.2 ⟨_, hnode⟩, bind, Except.bind]
    rfl
  | unresolved hunclaimed hk =>
    have hend := harrives true
    rw [hk] at hend
    refine openFile_of_error ?_ fun he => absurd he hend
    rw [fileAt_of_unclaimed h hunclaimed, hk]
    rfl
  | directory hunclaimed hk hnode =>
    refine openFile_of_error ?_ nofun
    rw [fileAt_of_unclaimed h hunclaimed, hk]
    show m.fileStored _ = _
    rw [fileStored, hnode]
  | missing hunclaimed hk hnode hcreates =>
    refine openFile_of_error ?_ fun _ => hcreates
    rw [fileAt_of_unclaimed h hunclaimed, hk]
    exact fileStored_of_free h hnode

/-- A file that was there has been opened. It has the data it had, unless the request empties
it. -/
structure Reopened (m m' : Memory) (o : OpenOptions) (c : CellId) : Prop where
  same : ∀ k, SameAt m m' k
  here : m'.content c = if o.truncate then { m.content c with data := [] } else m.content c
  other : ∀ c', c' ≠ c → m'.content c' = m.content c'

/-- What there is after a file has been opened: the file where the path leads, which is the one
that was there or an empty one, and a handle at its start, or at its end if it appends. -/
structure Opened (m : Memory) (p : Path) (o : OpenOptions) (f : OpenFile Handle) (m' : Memory)
    (k : Key) : Prop where
  place : m.resolve p true = .ok k
  file : m'.nodeAt k = some ⟨.file, f.handle.cell⟩
  stored : ∀ c, m.nodeAt k = some ⟨.file, c⟩ → f.handle.cell = c ∧ Reopened m m' o c
  created : m.nodeAt k = none → Planted m m' k .file ⟨[], o.mode &&& permissionMask⟩
  cursor : f.handle.cursor =
    if o.append then (m'.content f.handle.cell).data.length else 0

theorem reopened_emptied (hc : c < m.cells.length) (o : OpenOptions) :
    Reopened m (m.emptied c o) o c := by
  unfold emptied
  cases htruncate : o.truncate with
  | false =>
    refine ⟨fun _ => ⟨rfl, rfl⟩, ?_, fun _ _ => rfl⟩
    rw [htruncate]
    rfl
  | true =>
    refine ⟨fun _ => ⟨rfl, rfl⟩, ?_, fun _ hne => content_modifyCell_of_ne hne m _⟩
    rw [htruncate]
    simp [content, modifyCell, List.getD_eq_getElem?_getD, hc]

theorem modifyCell_of_content {f : Content → Content} (hf : f (m.content c) = m.content c) :
    m.modifyCell c f = m := by
  have hcells : m.cells.modify c f = m.cells := by
    apply List.ext_getElem (List.length_modify ..)
    intro i hi hi'
    rw [List.getElem_modify]
    split
    · next heq =>
      subst heq
      simpa [content, List.getD_eq_getElem?_getD, hi'] using hf
    · rfl
  rw [modifyCell, hcells]

/-- A new file is empty, so that nothing is left to be emptied. -/
theorem Planted.emptied {content : Content} (h : Planted m m₁ k .file content)
    (hempty : content.data = []) (hnode : m₁.nodeAt k = some ⟨.file, c⟩) (o : OpenOptions) :
    m₁.emptied c o = m₁ := by
  obtain ⟨c', hnode', -, hcontent⟩ := h.here.nodeAt
  rw [hnode] at hnode'
  cases hnode'
  have hsame : m₁.modifyCell c (fun cell => { cell with data := [] }) = m₁ := by
    apply modifyCell_of_content
    rw [hcontent, ← hempty]
  unfold Memory.emptied
  rw [hsame, ite_self]

theorem openFile_of_openable (h : m.WellFormed) (hopenable : m.Openable p o) :
    ∃ f m' k, openFile p o m = (.ok f, m') ∧ Opened m p o f m' k := by
  obtain ⟨hunclaimed, k, hk, ⟨c, hnode⟩ | ⟨hfree, hcreates⟩⟩ := hopenable
  · have hfile : m.fileAt p o = .ok c := by
      rw [fileAt_of_unclaimed h hunclaimed, hk]
      exact fileStored_eq_ok_iff.2 hnode
    refine ⟨_, _, k, (openFile_of_ok hfile).trans (handOut_apply p o c m), hk,
      (nodeAt_emptied m c o k).trans hnode, ?_, ?_, rfl⟩
    · intro c' hc'
      rw [hnode] at hc'
      cases hc'
      exact ⟨rfl, reopened_emptied (h.cell_lt_of_nodeAt hnode) o⟩
    · intro hfree
      rw [hnode] at hfree
      cases hfree
  · have hfile : m.fileAt p o = .error .entityNotFound := by
      rw [fileAt_of_unclaimed h hunclaimed, hk]
      exact fileStored_of_free h hfree
    obtain ⟨c, m₁, hrun, -, hnode, hplanted⟩ := planted_createNode h (passable_of_resolve h hk)
      hfree .file ⟨[], o.mode &&& permissionMask⟩
    have hsame := hplanted.emptied rfl hnode o
    have hopen := (openFile_of_created hfile hcreates hk hrun).trans (handOut_apply p o c m₁)
    rw [hsame] at hopen
    refine ⟨_, _, k, hopen, hk, hnode, ?_, fun _ => hplanted, rfl⟩
    intro c' hc'
    rw [hfree] at hc'
    cases hc'

/-- After any calls, a file is opened if the request is not one for a new file where there is
something already, and its path leads to a file or to a free place where the request creates one.
Otherwise the error says why. A file that was there keeps its node, and its data unless it is to be
emptied; a new one is empty and has the permissions of the request, and the missing directories
above it are made. Nothing else changes, and the handle is at the start or at the end. -/
theorem run_open (calls : List Call) (p : Path) (o : OpenOptions) :
    let m := (Session.run calls).memory
    ((∃ f m', fileSystem.openFile p o m = (.ok f, m')) ↔ m.Openable p o) ∧
    (∀ e, (∃ m', fileSystem.openFile p o m = (.error e, m')) ↔ m.Refused p o e) ∧
    (∀ e m', fileSystem.openFile p o m = (.error e, m') → m' = m) ∧
    ∀ f m', fileSystem.openFile p o m = (.ok f, m') → ∃ k, Opened m p o f m' k := by
  intro m
  have h : m.WellFormed := Session.wellFormed_run calls
  have hcases := openable_or_refused h p o
  refine ⟨⟨?_, ?_⟩, fun e => ⟨?_, ?_⟩, ?_, ?_⟩
  · rintro ⟨f, m', hrun⟩
    refine hcases.resolve_right ?_
    rintro ⟨e, hrefused⟩
    cases hrun.symm.trans (openFile_of_refused h hrefused)
  · intro hopenable
    obtain ⟨f, m', _, hrun, _⟩ := openFile_of_openable h hopenable
    exact ⟨f, m', hrun⟩
  · rintro ⟨m', hrun⟩
    rcases hcases with hopenable | ⟨e', hrefused⟩
    · obtain ⟨f, m', _, hopened, _⟩ := openFile_of_openable h hopenable
      cases hrun.symm.trans hopened
    · cases hrun.symm.trans (openFile_of_refused h hrefused)
      exact hrefused
  · exact fun hrefused => ⟨m, openFile_of_refused h hrefused⟩
  · exact fun e m' hrun => (atomic_openFile p o).eq_of_error h hrun
  · intro f m' hrun
    rcases hcases with hopenable | ⟨e, hrefused⟩
    · obtain ⟨f', m'', k, hopen, hopened⟩ := openFile_of_openable h hopenable
      cases hrun.symm.trans hopen
      exact ⟨k, hopened⟩
    · cases hrun.symm.trans (openFile_of_refused h hrefused)

/-- Through a dangling link a request creates what the link points to, unless it is one for a new
file: the link itself is in its way. -/
theorem run_open_dangling_link :
    let m := (Session.run [.symlink ⟨[100, 47, 101]⟩ ⟨[108]⟩]).memory
    (∃ f m', fileSystem.openFile ⟨[108]⟩ .creating m = (.ok f, m')) ∧
      ∃ m', fileSystem.openFile ⟨[108]⟩ .temporary m = (.error .alreadyExists, m') := by
  have hopen := run_open [.symlink ⟨[100, 47, 101]⟩ ⟨[108]⟩] ⟨[108]⟩
  refine ⟨(hopen .creating).1.2 ⟨nofun, _, rfl, .inr ⟨rfl, rfl⟩⟩, ?_⟩
  exact ((hopen .temporary).2.1 _).2 (.claimed rfl rfl rfl)

end ConfinedFs.Memory
