import ConfinedFs.Proofs.Rooted.Reopening

/-!
The two lives of a confined host. It keeps its root, or it has the path of its base only and opens
that anew for every request. Both lead to the same answers and to the same trees, whatever is asked
of them, of the hosts that they have been narrowed to and of the files that they have opened, as
long as the directories keep their paths and these are short enough for the system.
-/

namespace ConfinedFs.Confined

open ConfinedFs.Os ConfinedFs.Path

variable {ε α : Type} {t : Tree} {base : Path} {r : Root}

/-- Something that is asked of one of the hosts or of the files, given by its number. -/
inductive Event : Type 1 where
  | ask (i : Nat) {α : Type} (op : Operation FileHandle α)
  | removeAll (i : Nat) (p : Path)
  | narrow (i : Nat) (p : Path)
  | use (i : Nat) {ε α : Type} (op : FileOperation ε α)

/-- The tree with the hosts and the files that there are by now, each in the order they came. -/
structure Session where
  tree : Tree
  hosts : List Confined
  files : List (OpenFile FileHandle) := []

namespace Session

/-- The session after an event. What there is no host or no file for is left out. -/
def step (s : Session) : Event → Session
  | .ask i op =>
    match s.hosts[i]? with
    | none => s
    | some c =>
      let r := c.fileSystem.perform op s.tree
      { s with tree := r.2, files := s.files ++ (r.1.toOption.bind op.opened).toList }
  | .removeAll i p =>
    match s.hosts[i]? with
    | none => s
    | some c => { s with tree := (c.removeAll p s.tree).2 }
  | .narrow i p =>
    match s.hosts[i]? with
    | none => s
    | some c =>
      let r := c.narrow p s.tree
      { s with tree := r.2, hosts := s.hosts ++ r.1.toOption.toList }
  | .use i op =>
    match s.files[i]? with
    | none => s
    | some f =>
      let r := (OpenFile.perform op (f, s.tree)).2
      { s with tree := r.2, files := s.files.set i r.1 }

/-- The session after all of the events, in order. -/
def run (s : Session) (events : List Event) : Session := events.foldl step s

/-- The directories of the roots that are kept have the paths that they were opened under. -/
def PathsKept (s : Session) : Prop :=
  ∀ r, shared r ∈ s.hosts → s.tree.Named r.path.names.reverse r.dir

/-- The paths of the roots that are kept are such as the system takes. -/
def PathsShort (s : Session) : Prop :=
  ∀ r, shared r ∈ s.hosts → (ofNames r.path.names).bytes.length < maxPath

/-- The session with hosts that open their bases anew. -/
def reopening (s : Session) : Session := { s with hosts := s.hosts.map fun c => perCall c.base }

/-- Every host keeps a root that is where its path says. -/
structure Anchored (s : Session) : Prop where
  sound : s.tree.Sound
  roots : ∀ c ∈ s.hosts, ∃ r, c = shared r ∧ r.Anchored s.tree

variable {s : Session}

/-- After a step the roots are where they were if the directories have kept their paths. -/
theorem Anchored.remade (h : s.Anchored) {u : Tree} (hu : Call.Remade s.tree u)
    (files : List (OpenFile FileHandle)) (hkept : PathsKept ⟨u, s.hosts, files⟩) :
    Anchored ⟨u, s.hosts, files⟩ := by
  refine ⟨hu.2, fun c hc => ?_⟩
  obtain ⟨r, rfl, hr⟩ := h.roots c hc
  exact ⟨r, rfl, hr.remakes hu.1 (hkept r hc)⟩

theorem Anchored.narrow (h : s.Anchored) {c : Confined} (hc : c ∈ s.hosts) (p : Path)
    (hkept : PathsKept ⟨(c.narrow p s.tree).2,
      s.hosts ++ (c.narrow p s.tree).1.toOption.toList, s.files⟩) :
    Anchored ⟨(c.narrow p s.tree).2,
      s.hosts ++ (c.narrow p s.tree).1.toOption.toList, s.files⟩ := by
  have hold := h.remade (remade_narrow h.sound c p) s.files fun r hr =>
    hkept r (List.mem_append_left _ hr)
  refine ⟨hold.sound, fun a ha => ?_⟩
  rcases List.mem_append.1 ha with ha | ha
  · exact hold.roots a ha
  · obtain ⟨r, rfl, hr⟩ := h.roots c hc
    have hnarrow := triple_narrow r p s.tree ⟨hr, h.sound⟩
    cases hrun : (shared r).narrow p s.tree with
    | mk x u =>
      rw [hrun] at hnarrow ha
      cases x with
      | error e => cases ha
      | ok b =>
        cases List.mem_singleton.1 ha
        exact hnarrow

/-- What is done with a file is no directory's business. -/
theorem remade_use (ht : t.Sound) (f : OpenFile FileHandle) (op : FileOperation ε α) :
    Call.Remade t (OpenFile.perform op (f, t)).2.2 := by
  have hkeeps := FileHandle.keeps_onDevice (Call.blind_grown t) op f.name
  rw [OpenFile.perform_apply]
  exact (hkeeps.apply (s := (f.handle, t)) (.refl ht)).remade

theorem Anchored.step (h : s.Anchored) (e : Event) (hkept : (s.step e).PathsKept) :
    (s.step e).Anchored := by
  cases e with
  | ask i op =>
    simp only [Session.step] at hkept ⊢
    cases hc : s.hosts[i]? with
    | none => exact h
    | some c =>
      rw [hc] at hkept
      exact h.remade (remade_perform h.sound c op) _ hkept
  | removeAll i p =>
    simp only [Session.step] at hkept ⊢
    cases hc : s.hosts[i]? with
    | none => exact h
    | some c =>
      rw [hc] at hkept
      exact h.remade (remade_removeAll h.sound c p) _ hkept
  | narrow i p =>
    simp only [Session.step] at hkept ⊢
    cases hc : s.hosts[i]? with
    | none => exact h
    | some c =>
      rw [hc] at hkept
      exact h.narrow (List.mem_of_getElem? hc) p hkept
  | use i op =>
    simp only [Session.step] at hkept ⊢
    cases hf : s.files[i]? with
    | none => exact h
    | some f =>
      rw [hf] at hkept
      exact h.remade (remade_use h.sound f op) _ hkept

/-- A host opens its base again as long as nothing but directories is added. -/
theorem Anchored.reopens (h : s.Anchored) (hshort : s.PathsShort) {c : Confined}
    (hc : c ∈ s.hosts) {u : Tree} (hu : Call.Gained s.tree u) : c.Reopens (perCall c.base) u := by
  obtain ⟨r, rfl, hr⟩ := h.roots c hc
  exact reopens_of_anchored (hr.adds hu.1.adds) hu.2 (hshort r hc)

theorem Anchored.reopens_now (h : s.Anchored) (hshort : s.PathsShort) {c : Confined}
    (hc : c ∈ s.hosts) : c.Reopens (perCall c.base) s.tree :=
  h.reopens hshort hc ⟨.refl s.tree, h.sound⟩

theorem Anchored.narrow_reopening (h : s.Anchored) (hshort : s.PathsShort) {c : Confined}
    (hc : c ∈ s.hosts) (p : Path) :
    Action.Coupled Eq (fun a a' => a' = perCall a.base) (c.narrow p) ((perCall c.base).narrow p)
      s.tree s.tree := by
  refine (h.reopens_now hshort hc).coupled_narrow ?_ rfl
  obtain ⟨r, rfl, _⟩ := h.roots c hc
  rfl

/-- What is asked of hosts that open their bases anew comes to the same. -/
theorem Anchored.step_reopening (h : s.Anchored) (hshort : s.PathsShort) (e : Event) :
    s.reopening.step e = (s.step e).reopening := by
  have hhosts : ∀ i, s.reopening.hosts[i]? = s.hosts[i]?.map fun c : Confined => perCall c.base :=
    fun i => List.getElem?_map
  cases e with
  | ask i op =>
    simp only [Session.step, hhosts]
    cases hc : s.hosts[i]? with
    | none => rfl
    | some c =>
      have hperform :
          (perCall c.base).fileSystem.perform op s.tree = c.fileSystem.perform op s.tree :=
        perform_eq h.sound (fun u hu => h.reopens hshort (List.mem_of_getElem? hc) hu) op
      simp only [Option.map_some, reopening, hperform]
  | removeAll i p =>
    simp only [Session.step, hhosts]
    cases hc : s.hosts[i]? with
    | none => rfl
    | some c =>
      have hremove : (perCall c.base).removeAll p s.tree = c.removeAll p s.tree :=
        (h.reopens_now hshort (List.mem_of_getElem? hc)).removeAll_eq p
      simp only [Option.map_some, reopening, hremove]
  | narrow i p =>
    simp only [Session.step, hhosts]
    cases hc : s.hosts[i]? with
    | none => rfl
    | some c =>
      obtain ⟨hstates, houtcomes⟩ := h.narrow_reopening hshort (List.mem_of_getElem? hc) p
      have hnew : ((perCall c.base).narrow p s.tree).1.toOption.toList =
          (c.narrow p s.tree).1.toOption.toList.map fun c => perCall c.base := by
        cases hx : (c.narrow p s.tree).1 <;> cases hy : ((perCall c.base).narrow p s.tree).1 <;>
          rw [hx, hy] at houtcomes
        case error.error => rfl
        case ok.ok a b =>
          cases houtcomes
          rfl
        all_goals exact houtcomes.elim
      simp only [Option.map_some, reopening, hstates, hnew, List.map_append]
  | use i op =>
    simp only [Session.step]
    cases hf : s.files[i]? with
    | none => simp only [reopening, hf]
    | some f => simp only [reopening, hf]

/-- The induction is on the events. The roots are still where their paths say after each of them,
because the directories have kept their paths so far. -/
theorem Anchored.run_reopening {events : List Event} (h : s.Anchored)
    (hkept : ∀ before, before <+: events → (s.run before).PathsKept ∧ (s.run before).PathsShort) :
    (s.run events).Anchored ∧ s.reopening.run events = (s.run events).reopening := by
  induction events generalizing s with
  | nil => exact ⟨h, rfl⟩
  | cons e events ih =>
    have hnow := hkept [] List.nil_prefix
    have hlater : ∀ before, before <+: events →
        ((s.step e).run before).PathsKept ∧ ((s.step e).run before).PathsShort :=
      fun before hbefore => hkept (e :: before) (List.cons_prefix_cons.2 ⟨rfl, hbefore⟩)
    have hnext := h.step e (hlater [] List.nil_prefix).1
    obtain ⟨hanchored, hrun⟩ := ih hnext hlater
    refine ⟨hanchored, ?_⟩
    rw [run, List.foldl_cons, h.step_reopening hnow.2 e]
    exact hrun

/-- A root that has been opened by its canonical path is where this path says. -/
theorem anchored_of_openPath (ht : t.Sound) (hbase : t.canonical base = .ok base)
    (hopen : Root.openPath base t = (.ok r, t)) : r.path = base ∧ r.Anchored t := by
  obtain ⟨hlocated, hcanonical, hfind⟩ := Root.located_of_openPath ht hopen
  have hpath : r.path = base := by
    rw [hbase] at hcanonical
    exact (Except.ok.inj hcanonical).symm
  obtain ⟨above, hnames, hleads⟩ := hlocated.leads
  obtain ⟨_, _, hresolve, _⟩ := Tree.find_eq_ok_iff.1 hfind
  have hcheck := (Tree.resolve_eq_ok_iff.1 hresolve).1
  obtain ⟨_, _, hread⟩ := Tree.find_of_findDir (Root.findDir_of_openPath hopen).2
  have habove : r.path.names = above.reverse := by rw [hnames, names_ofNames]
  refine ⟨hpath, ?_, ?_, ?_, hlocated.isDir, hread, ?_⟩
  · rw [hnames, isAbsolute_ofNames]
  · rw [hnames, components_ofNames]
    simp
  · rw [habove, ← hnames]
    exact (Tree.checkPath_eq_ok_iff.1 hcheck).1
  · rw [habove, List.reverse_reverse]
    exact hleads

/-- Hosts with the same answers, each with what it does to the tree. They and the hosts that they
are narrowed to go by the same names. -/
structure AlikeIn (t : Tree) (c c' : Confined) : Prop where
  base : c.base.same c'.base = true
  perform : ∀ {α : Type} (op : Operation FileHandle α),
    c'.fileSystem.perform op t = c.fileSystem.perform op t
  removeAll : ∀ p, c'.removeAll p t = c.removeAll p t
  narrow : ∀ p, Action.Coupled Eq (fun a a' => a.base.same a'.base = true) (c.narrow p)
    (c'.narrow p) t t

theorem same_base (h : r.Anchored t) : r.path.same (perCall r.path).base = true := by
  have hclean := components_clean_of_isAbsolute h.absolute
  rw [same, decide_eq_true_iff, perCall, hclean, components_eq, if_pos h.absolute,
    inner_eq_names h.noParent]

theorem Anchored.alikeIn (h : s.Anchored) (hshort : s.PathsShort) {c : Confined}
    (hc : c ∈ s.hosts) : AlikeIn s.tree c (perCall c.base) := by
  refine ⟨?_, fun op => perform_eq h.sound (fun u hu => h.reopens hshort hc hu) op,
    fun p => (h.reopens_now hshort hc).removeAll_eq p, fun p => ?_⟩
  · obtain ⟨r, rfl, hr⟩ := h.roots c hc
    exact same_base hr
  · obtain ⟨hstates, houtcomes⟩ := h.narrow_reopening hshort hc p
    obtain ⟨r, rfl, hr⟩ := h.roots c hc
    refine ⟨hstates, houtcomes.mono_of_ok ?_⟩
    rintro a _ ha rfl
    obtain ⟨sub, rfl, hsub⟩ := (triple_narrow r p).of_ok ⟨hr, h.sound⟩ (Prod.ext ha rfl)
    exact same_base hsub

end Session

open ConfinedFs.Confined.Session in
/-- From a sound tree and a canonical base on, a host that keeps its root and one that opens its
base anew for each request go the same way, as do all hosts they are narrowed to. After the same
events, the trees are the same, the files that have been handed out are in the same state, and
whatever is asked next has the same answer and leaves the same tree, provided that the directories
have kept their paths all the time and that none of the paths has got too long. -/
theorem lifecycles_agree (ht : t.Sound) (hbase : t.canonical base = .ok base)
    (hopen : Root.openPath base t = (.ok r, t)) (events : List Event)
    (hkept : ∀ before, before <+: events →
      (run ⟨t, [shared r], []⟩ before).PathsKept ∧ (run ⟨t, [shared r], []⟩ before).PathsShort) :
    let s := run ⟨t, [shared r], []⟩ events
    let s' := run ⟨t, [perCall base], []⟩ events
    s'.tree = s.tree ∧ s'.files = s.files ∧ s'.hosts.length = s.hosts.length ∧
      ∀ (i : Nat) (c c' : Confined), s.hosts[i]? = some c → s'.hosts[i]? = some c' →
        AlikeIn s.tree c c' := by
  obtain ⟨hpath, hanchored⟩ := anchored_of_openPath ht hbase hopen
  have hstart : Anchored ⟨t, [shared r], []⟩ := by
    refine ⟨ht, fun c hc => ?_⟩
    cases List.mem_singleton.1 hc
    exact ⟨r, rfl, hanchored⟩
  obtain ⟨hend, hrun⟩ := hstart.run_reopening hkept
  have hfirst : reopening ⟨t, [shared r], []⟩ = ⟨t, [perCall base], []⟩ := by
    rw [← hpath]
    rfl
  rw [hfirst] at hrun
  rw [hrun]
  refine ⟨rfl, rfl, List.length_map _, ?_⟩
  intro i c c' hc hc'
  have hmap : (reopening (run ⟨t, [shared r], []⟩ events)).hosts[i]? = some (perCall c.base) := by
    rw [reopening, List.getElem?_map, hc]
    rfl
  rw [hmap] at hc'
  cases hc'
  exact hend.alikeIn (hkept events List.prefix_rfl).2 (List.mem_of_getElem? hc)

section Scene

open ConfinedFs.Confined.Session

/-- Are all roots that are kept where the names of their paths lead to? -/
private def whereNamed (s : Session) : Bool :=
  s.hosts.all fun c => c.kept.all fun r => s.tree.descend? Tree.top r.path.names = some r.dir

private theorem pathsKept_of_whereNamed {s : Session} (h : whereNamed s = true) : s.PathsKept := by
  intro r hr
  have hroot : s.tree.descend? Tree.top r.path.names = some r.dir := by
    simpa [shared] using List.all_eq_true.1 h _ hr
  simpa using Tree.named_of_descend? .top hroot

/-- Does the system take the paths of all roots that are kept? -/
private def shortNamed (s : Session) : Bool :=
  s.hosts.all fun c => c.kept.all fun r => (ofNames r.path.names).bytes.length < maxPath

private theorem pathsShort_of_shortNamed {s : Session} (h : shortNamed s = true) :
    s.PathsShort := by
  intro r hr
  simpa [shared] using List.all_eq_true.1 h _ hr

private theorem forall_before_one {s : Session} {e : Event} {Q : Session → Prop} (hstart : Q s)
    (hnext : Q (s.step e)) : ∀ before, before <+: [e] → Q (s.run before) := by
  intro before hbefore
  rw [List.prefix_cons_iff] at hbefore
  obtain rfl | ⟨rest, rfl, hrest⟩ := hbefore
  · exact hstart
  · cases List.prefix_nil.1 hrest
    exact hnext

private def topRoot : Root := ⟨Tree.top, Path.top⟩

private def startTop : Session := ⟨Tree.fresh, [shared topRoot], []⟩

private def digging : Event := .narrow 0 ⟨[100]⟩

theorem lifecycles_agree_narrow :
    Tree.fresh.Sound ∧ Tree.fresh.canonical Path.top = .ok Path.top ∧
    Root.openPath Path.top Tree.fresh = (.ok topRoot, Tree.fresh) ∧
    (∀ before, before <+: [digging] →
      (startTop.run before).PathsKept ∧ (startTop.run before).PathsShort) ∧
    let s := startTop.run [digging]
    let s' := run ⟨Tree.fresh, [perCall Path.top], []⟩ [digging]
    s.hosts.length = 2 ∧ s'.tree = s.tree ∧ s'.files = s.files ∧
      s'.hosts.length = s.hosts.length ∧
      ∀ (i : Nat) (c c' : Confined), s.hosts[i]? = some c → s'.hosts[i]? = some c' →
        AlikeIn s.tree c c' := by
  have hkept : ∀ before, before <+: [digging] →
      (startTop.run before).PathsKept ∧ (startTop.run before).PathsShort := by
    refine forall_before_one (Q := fun s => s.PathsKept ∧ s.PathsShort) ?_ ?_
    · exact ⟨pathsKept_of_whereNamed (by decide), pathsShort_of_shortNamed (by decide)⟩
    · exact ⟨pathsKept_of_whereNamed (by decide), pathsShort_of_shortNamed (by decide)⟩
  exact ⟨Tree.sound_fresh, rfl, rfl, hkept, rfl,
    lifecycles_agree Tree.sound_fresh rfl rfl [digging] hkept⟩

/-- The bottom of a shaft, and the path of it. -/
private def pitTree : Tree := (shaft 15 Tree.top Tree.fresh).2

private def pitRoot : Root :=
  ⟨⟨15, List.replicate 15 0⟩, ofNames (List.replicate 15 longName)⟩

private def pit : Session := ⟨pitTree, [shared pitRoot], []⟩

private def digging' : Event := .narrow 0 ⟨longName.bytes⟩

private theorem openPath_pit : Root.openPath pitRoot.path pitTree = (.ok pitRoot, pitTree) :=
  Root.openPath_eq_of_toOption (by decide +kernel)

/-- The directory at the bottom of a shaft keeps its path, but the system does not take the path
when it is to be opened again. -/
theorem lifecycles_differ :
    pitTree.Sound ∧ pitTree.canonical pitRoot.path = .ok pitRoot.path ∧
    Root.openPath pitRoot.path pitTree = (.ok pitRoot, pitTree) ∧
    (∀ before, before <+: [digging'] → (pit.run before).PathsKept) ∧
    let s := pit.run [digging']
    let s' := run ⟨pitTree, [perCall pitRoot.path], []⟩ [digging']
    (s.hosts[1]?.map fun c => (c.stat here s.tree).1.isOk) = some true ∧
    (s'.hosts[1]?.map fun c => (c.stat here s'.tree).1.isOk) = some false := by
  have hsound : pitTree.Sound := by
    have hkeeps : ∀ levels i, Action.Keeps Tree.Sound (shaft levels i) := by
      intro levels
      induction levels with
      | zero => exact fun _ => .pure _
      | succ levels ih => exact fun i => .bind (Call.keeps_sound_mkdir _ _) fun _ => ih _
    exact (hkeeps 15 Tree.top).apply Tree.sound_fresh
  refine ⟨hsound, (Root.findDir_of_openPath openPath_pit).1, openPath_pit, ?_, ?_⟩
  · refine forall_before_one (pathsKept_of_whereNamed ?_) (pathsKept_of_whereNamed ?_)
    · decide +kernel
    · decide +kernel
  · decide +kernel

end Scene

end ConfinedFs.Confined
