import ConfinedFs.Proofs.Open.Exclusive
import ConfinedFs.Proofs.Os.Descent
import ConfinedFs.Proofs.Os.Subtree
import ConfinedFs.Rooted.FileSystem

/-!
A walk inside of a root and the system's own lookup of the full path. Where the walk comes to
a node the system comes to the same one: it makes the moves that lead to the root first, and
then those of the walk, and where the walk goes back to the root at an absolute link the
system goes back to the top. For this the targets of links have to mean what they say: the
walk settles the `..` of an absolute target without a look at the tree, pays no attention to
a separator after a name, and asks for no right to search a directory that it leaves upwards.
What is neither a directory nor a file nor a link has no type for the host and is a file for
the root.
-/

namespace ConfinedFs

open ConfinedFs.Os ConfinedFs.Path

namespace Os.Tree

/-- Below a directory, itself included, the caller may search every directory, and no
absolute target of a link leads up. -/
structure Clear (t : Tree) (base : NodeId) : Prop where
  searchable : ∀ {i}, t.Under base i → t.isDir i = true → t.demand .search i = .ok ()
  noParent : ∀ {i target}, t.Under base i → t.link? i = some target → target.isAbsolute = true →
    .parent ∉ target.components

variable {t : Tree} {base i : NodeId}

theorem Clear.searched (h : t.Clear base) (hi : t.Under base i) (hdir : t.isDir i = true) :
    ∃ d, t.searched i = .ok d := by
  obtain ⟨d, hd⟩ := isDir_iff.1 hdir
  exact ⟨d, searched_eq_ok_iff.2 ⟨hd, h.searchable hi hdir⟩⟩

theorem Under.of_lookup {n : Name} {j : NodeId} (hi : t.Under base i) (h : t.lookup i n = .ok j) :
    t.Under base j := by
  obtain ⟨d, hd, hmem⟩ := mem_entries_of_lookup h
  exact .entry hi hd hmem

/-- What the root keeps of the system's report is the report, but for the type of what is
neither a directory nor a file nor a link. -/
theorem metadata_of_stat {s : Stat} (h : t.stat i = .ok s) (p : Path) : ∃ report,
    t.report i = .ok report ∧ report.metadata p =
      if t.isSpecial i then { s.metadata p with fileType := {} } else s.metadata p := by
  obtain ⟨node, hnode, rfl⟩ := stat_eq_ok_iff.1 h
  refine ⟨.ofInode node, report_eq_ok_iff.2 ⟨node, hnode, rfl⟩, ?_⟩
  unfold isSpecial
  rw [hnode]
  cases node <;> rfl

theorem find_of_findDir {p : Path} (h : t.findDir p = .ok i) :
    t.find p .follow = .ok i ∧ t.isDir i = true ∧ t.demand .read i = .ok () := by
  obtain ⟨j, hfind, hopen⟩ := exists_of_bind_eq_ok h
  obtain ⟨rfl, hopened⟩ := openDir_eq_ok_iff.1 hopen
  exact ⟨hfind, hopened⟩

end Os.Tree

namespace Root

variable {r : Root} {t : Tree} {j : NodeId} {n : Name} {trail : Trail} {escape : FileError}
  {l : Endpoint}

section Told

variable {dir i : NodeId} {s : Stat}

theorem link?_of_linkIn {target : Path} (h : linkIn t dir n = .ok target)
    (hi : t.lookup dir n = .ok i) : t.link? i = some target := by
  obtain ⟨_, hlink⟩ := Tree.of_placeIn_bind (ok_of_mapError h)
  simp only [Except.bind, Tree.readlinkAt, Tree.existing_of_lookup hi, bind] at hlink
  cases htarget : t.link? i with
  | none =>
    rw [htarget] at hlink
    cases hlink
  | some target' =>
    rw [htarget] at hlink
    exact congrArg some (Except.ok.inj hlink)

theorem isDir_of_dirIn (h : dirIn t dir n = .ok i) :
    t.lookup dir n = .ok i ∧ t.isDir i = true := by
  obtain ⟨_, hopen⟩ := Tree.of_placeIn_bind (ok_of_mapError h)
  obtain ⟨hexisting, hdir⟩ := Tree.existing_of_openDirAt hopen
  exact ⟨Tree.lookup_of_existing hexisting, hdir⟩

/-- What is at the place of a name is what the name stands for. -/
theorem lookup_of_place (h : (r.endpoint trail (some n)).place.bind t.existing = .ok i) :
    Tree.placeIn (r.current trail) n = .ok (.entry (r.current trail) n) ∧
      t.lookup (r.current trail) n = .ok i := by
  obtain ⟨hplace, hexisting⟩ := Tree.of_placeIn_bind h
  exact ⟨hplace, Tree.lookup_of_existing hexisting⟩

theorem checkPath_of_placeIn (h : Tree.placeIn dir n = .ok (.entry dir n)) :
    Tree.checkPath n.bytes = .ok () := by
  obtain ⟨_, hcheck, _⟩ := exists_of_bind_eq_ok h
  exact hcheck

/-- A link is said to be one. -/
theorem statIn_of_link {target : Path} (hplace : Tree.placeIn dir n = .ok (.entry dir n))
    (hi : t.lookup dir n = .ok i) (hlink : t.link? i = some target) :
    ∃ s, statIn t dir n = .ok (some s) ∧ s.isSymlink = true := by
  obtain ⟨standing, hnode⟩ : ∃ standing, t.node? i = some (.symlink standing target) := by
    unfold Tree.link? at hlink
    split at hlink
    · next hnode =>
      cases hlink
      exact ⟨_, hnode⟩
    · cases hlink
  refine ⟨.ofReport (.ofInode (.symlink standing target)), ?_, rfl⟩
  simp only [statIn, hplace, Except.bind, Tree.statAt, Tree.existing_of_lookup hi, bind,
    Tree.stat_eq_ok_iff.2 ⟨_, hnode, rfl⟩]

theorem statIn_of_isDir (hplace : Tree.placeIn dir n = .ok (.entry dir n))
    (hi : t.lookup dir n = .ok i) (hdir : t.isDir i = true) :
    ∃ s, statIn t dir n = .ok (some s) ∧ s.isSymlink = false ∧ s.isDir = true := by
  obtain ⟨d, hd⟩ := Tree.isDir_iff.1 hdir
  refine ⟨.ofReport (.ofInode (.directory d)), ?_, rfl, rfl⟩
  simp only [statIn, hplace, Except.bind, Tree.statAt, Tree.existing_of_lookup hi, bind,
    Tree.stat_eq_ok_iff.2 ⟨_, Tree.dir?_eq_some_iff.1 hd, rfl⟩]

end Told

/-- A trail of directories, each found in the one before. -/
def Passed (r : Root) (t : Tree) : Trail → Prop
  | [] => True
  | (n, i) :: above => t.lookup (r.current above) n = .ok i ∧ t.isDir i = true ∧ r.Passed t above

theorem Passed.under (h : r.Passed t trail) : t.Under r.dir (r.current trail) := by
  induction trail with
  | nil => exact .base
  | cons e above ih => exact (ih h.2.2).of_lookup h.1

theorem Passed.isDir (h : r.Passed t trail) (hr : t.isDir r.dir = true) :
    t.isDir (r.current trail) = true := by
  cases trail with
  | nil => exact hr
  | cons e above => exact h.2.1

/-- The way up leads back along the trail. -/
theorem Passed.parent {e : Name × NodeId} {above : Trail} {d : Directory}
    (h : r.Passed t (e :: above)) (ht : t.Sound) (hd : t.searched e.2 = .ok d) :
    d.parent = r.current above := by
  obtain ⟨d', hd', hentry⟩ := Tree.mem_entries_of_lookup h.1
  exact (ht.entry_parent hd' hentry (Tree.searched_eq_ok_iff.1 hd).1).2

/-- The path of the root is one that leads straight down to its directory. -/
structure Located (r : Root) (t : Tree) : Prop where
  isDir : t.isDir r.dir = true
  leads : ∃ above, r.path = ofNames above.reverse ∧ t.Leads Tree.top above r.dir

/-- Wherever the walk comes to a node the lookup comes to it too, and the names on the way are
such as the system takes. -/
def Mimics (r : Root) (t : Tree) (j : NodeId)
    (f : List Step → Trail → Except FileError Endpoint)
    (g : List Move → NodeId → Bool → Except Errno (Place × Bool)) : Prop :=
  ∀ ms trail strict l, r.Passed t trail → f (stepsOf ms) trail = .ok l →
    l.place.bind t.existing = .ok j → t.isDir j = true ∨ Exact ms strict →
    t.Comes j (g ms (r.current trail) strict) ∧
      ∀ n, .down n ∈ stepsOf ms → Tree.checkPath n.bytes = .ok ()

theorem checked_down {ms : List Move} (hn : Tree.checkPath n.bytes = .ok ())
    (hms : ∀ m, .down m ∈ stepsOf ms → Tree.checkPath m.bytes = .ok ()) :
    ∀ m, .down m ∈ stepsOf (.down n :: ms) → Tree.checkPath m.bytes = .ok () := by
  intro m hm
  rcases List.mem_cons.1 hm with heq | hm
  · cases heq
    exact hn
  · exact hms m hm

section Mimicking

variable (ht : t.Sound) (hr : r.Located t) (hclear : t.Clear r.dir)
  (hends : t.isDir j = true ∨
    ∀ i target, t.Under r.dir i → t.link? i = some target → target.EndsInName)

include hclear

/-- Where the walk ends at a name, so does the lookup. -/
theorem down_mimics_last {jump' : List Move → NodeId → Bool → Except Errno (Place × Bool)}
    {ms : List Move} {strict : Bool} (htrail : r.Passed t trail) (hlast : stepsOf ms = [])
    (hnolink : ∀ s, statIn t (r.current trail) n = .ok (some s) → (s.isSymlink && true) = false)
    (hl : (r.endpoint trail (some n)).place.bind t.existing = .ok j)
    (hexact : t.isDir j = true ∨ Exact (.down n :: ms) strict) :
    t.Comes j (t.advance .follow jump' (.down n :: ms) (r.current trail) strict) ∧
      ∀ m, .down m ∈ stepsOf (.down n :: ms) → Tree.checkPath m.bytes = .ok () := by
  obtain ⟨hplace, hfound⟩ := lookup_of_place hl
  have hlink : t.link? j = none := by
    cases hlink : t.link? j with
    | none => rfl
    | some target =>
      obtain ⟨s, hstat, hsymlink⟩ := statIn_of_link hplace hfound hlink
      have hnot := hnolink s hstat
      rw [hsymlink] at hnot
      cases hnot
  refine ⟨Tree.comes_down hfound hlink ?_, checked_down (checkPath_of_placeIn hplace) ?_⟩
  · rcases hexact with hdir | hexact
    · obtain ⟨d, hd⟩ := hclear.searched (htrail.under.of_lookup hfound) hdir
      exact Tree.comes_of_stepsOf_eq_nil hlast hd
    · obtain ⟨rfl, rfl⟩ := hexact.eq_nil hlast
      exact Tree.comes_here nofun
  · intro m hm
    rw [hlast] at hm
    cases hm

include hr

/-- At a link the system goes on as the walk does: from the same directory, or from the top
down to the root and on from there. -/
theorem handOver_mimics {f : List Step → Trail → Except FileError Endpoint} {links : Nat}
    (hf : r.Mimics t j f (t.resolveWithin .follow links)) {target : Path} {i : NodeId}
    (hi : t.Under r.dir i) (hlink : t.link? i = some target) {ms : List Move} {strict : Bool}
    (htrail : r.Passed t trail) (hover : r.handOver escape (stepsOf ms) trail target f = .ok l)
    (hl : l.place.bind t.existing = .ok j)
    (hexact : t.isDir j = true ∨ Exact (moves target ++ ms) strict) :
    t.Comes j (t.resolveWithin .follow links (moves target ++ ms)
      (if target.isAbsolute then Tree.top else r.current trail) strict) ∧
      ∀ n, .down n ∈ stepsOf ms → Tree.checkPath n.bytes = .ok () := by
  have hsteps : stepsOf (moves target ++ ms) = target.steps ++ stepsOf ms := by
    rw [stepsOf_append, stepsOf_moves]
  unfold handOver at hover
  cases habsolute : target.isAbsolute with
  | false =>
    rw [habsolute, if_neg Bool.false_ne_true, ← hsteps] at hover
    obtain ⟨hcomes, hchecks⟩ := hf _ trail strict l htrail hover hl hexact
    exact ⟨hcomes, fun n hn => hchecks n (by simp [hn])⟩
  | true =>
    rw [habsolute, if_pos rfl] at hover
    obtain ⟨above, hpath, hleads⟩ := hr.leads
    rw [remainder?_eq (by rw [hpath]; exact isAbsolute_ofNames _) habsolute, hpath,
      names_ofNames] at hover
    by_cases hprefix : above.reverse <+: target.names
    · rw [if_pos hprefix] at hover
      obtain ⟨rest, hrest⟩ := hprefix
      have hdrop : target.names.drop above.reverse.length = rest := by
        rw [← hrest, List.drop_left]
      simp only [hdrop, steps_below] at hover
      have hnames : stepsOf (moves target ++ ms) =
          above.reverse.map .down ++ (rest.map .down ++ stepsOf ms) := by
        rw [hsteps, steps_eq_names (hclear.noParent hi hlink habsolute), ← hrest, List.map_append,
          List.append_assoc]
      have hback : ∃ ms', ms' <:+ moves target ++ ms ∧
          stepsOf ms' = rest.map .down ++ stepsOf ms ∧
          ∀ k, t.Comes k (t.resolveWithin .follow links ms' r.dir strict) →
            t.Comes k (t.resolveWithin .follow links (moves target ++ ms) Tree.top strict) := by
        cases links with
        | zero => exact hleads.comes hnames
        | succ links => exact hleads.comes hnames
      obtain ⟨ms', hsuffix, hsteps', hcomes'⟩ := hback
      rw [← hsteps'] at hover
      obtain ⟨hcomes, hchecks⟩ := hf ms' [] strict l trivial hover hl
        (hexact.imp id fun h => h.suffix hsuffix)
      exact ⟨hcomes' j hcomes, fun n hn => hchecks n (by simp [hsteps', hn])⟩
    · rw [if_neg hprefix] at hover
      cases hover

include hends

/-- Where the walk is handed over at a link, the lookup goes on with its target. -/
theorem down_mimics_link {f : List Step → Trail → Except FileError Endpoint} {links : Nat}
    (hf : r.Mimics t j f (t.resolveWithin .follow links)) {target : Path} {i : NodeId}
    {ms : List Move} {strict : Bool} (htrail : r.Passed t trail)
    (hfound : t.lookup (r.current trail) n = .ok i) (hlink : t.link? i = some target)
    (hover : r.handOver escape (stepsOf ms) trail target f = .ok l)
    (hl : l.place.bind t.existing = .ok j)
    (hexact : t.isDir j = true ∨ Exact (.down n :: ms) strict) :
    t.Comes j (t.advance .follow (t.resolveWithin .follow links) (.down n :: ms)
      (r.current trail) strict) ∧
      ∀ m, .down m ∈ stepsOf ms → Tree.checkPath m.bytes = .ok () := by
  have hunder := htrail.under.of_lookup hfound
  have hexact' : t.isDir j = true ∨
      Exact (moves target ++ ms) (strict || (ms.isEmpty && endsInSlash target)) := by
    rcases hends with hdir | hends
    · exact .inl hdir
    · exact hexact.imp id fun h => h.jump (hends i target hunder hlink)
  obtain ⟨hcomes, hchecks⟩ := handOver_mimics hr hclear hf hunder hlink htrail hover hl hexact'
  refine ⟨?_, hchecks⟩
  rw [Tree.advance, hfound]
  simp only [hlink]
  rw [if_pos (show (LastLink.follow.follows strict || !ms.isEmpty) = true from rfl)]
  exact hcomes

include ht

/-- The induction is on the moves. -/
theorem advance_mimics {jump : Option (List Step → Trail → Except FileError Endpoint)}
    {jump' : List Move → NodeId → Bool → Except Errno (Place × Bool)}
    (hjump : ∀ f, jump = some f → ∃ links, jump' = t.resolveWithin .follow links ∧
      r.Mimics t j f (t.resolveWithin .follow links)) :
    r.Mimics t j (r.advance t escape true jump) (t.advance .follow jump') := by
  intro ms
  induction ms with
  | nil =>
    intro trail strict l htrail hwalk hl _
    cases hwalk
    cases hl
    exact ⟨Tree.comes_here fun _ => htrail.isDir hr.isDir, fun _ hn => absurd hn List.not_mem_nil⟩
  | cons m ms ih =>
    intro trail strict l htrail hwalk hl hexact
    have hrest : t.isDir j = true ∨ Exact ms strict :=
      hexact.imp id fun h => h.suffix (List.suffix_cons ..)
    obtain ⟨d, hd⟩ := hclear.searched htrail.under (htrail.isDir hr.isDir)
    cases m with
    | stay =>
      obtain ⟨hcomes, hchecks⟩ := ih trail strict l htrail hwalk hl hrest
      exact ⟨Tree.comes_stay hd hcomes, hchecks⟩
    | up =>
      cases trail with
      | nil => cases hwalk
      | cons e above =>
        have hparent : d.parent = r.current above := htrail.parent ht hd
        obtain ⟨hcomes, hchecks⟩ := ih above strict l htrail.2.2 hwalk hl hrest
        refine ⟨Tree.comes_up hd (hparent ▸ hcomes), ?_⟩
        intro n hn
        exact hchecks n (by simpa [stepsOf, Move.step?] using hn)
    | down n =>
      have hwalk' : r.advance t escape true jump (.down n :: stepsOf ms) trail = .ok l := hwalk
      obtain ⟨hlast, rfl, hnolink⟩ | ⟨s, f, target, hstat, _, hf, htarget, hover⟩ |
        ⟨s, i, hstat, _, _, _, hopen, hgo⟩ := advance_down_cases hwalk'
      · exact down_mimics_last hclear htrail hlast hnolink hl hexact
      · obtain ⟨hplace, i, hfound⟩ := lookup_of_statIn hstat
        obtain ⟨links, rfl, hmimics⟩ := hjump f hf
        obtain ⟨hcomes, hchecks⟩ := down_mimics_link hr hclear hends hmimics htrail hfound
          (link?_of_linkIn htarget hfound) hover hl hexact
        exact ⟨hcomes, checked_down (checkPath_of_placeIn hplace) hchecks⟩
      · obtain ⟨hplace, _⟩ := lookup_of_statIn hstat
        obtain ⟨hfound, hdir⟩ := isDir_of_dirIn hopen
        obtain ⟨hcomes, hchecks⟩ :=
          ih ((n, i) :: trail) strict l ⟨hfound, hdir, htrail⟩ hgo hl hrest
        exact ⟨Tree.comes_down hfound (Tree.link?_eq_none_of_isDir hdir) hcomes,
          checked_down (checkPath_of_placeIn hplace) hchecks⟩

theorem walkWithin_mimics (links : Nat) :
    r.Mimics t j (r.walkWithin t escape true links) (t.resolveWithin .follow links) := by
  induction links with
  | zero => exact advance_mimics ht hr hclear hends nofun
  | succ links ih =>
    refine advance_mimics ht hr hclear hends ?_
    intro f hf
    cases hf
    exact ⟨links, rfl, ih⟩

end Mimicking

/-- Opening a root changes nothing, so that it is enough to look at the root. -/
theorem openPath_eq_of_toOption {p : Path} (h : (openPath p t).1.toOption = some r) :
    openPath p t = (.ok r, t) := by
  have htree : (openPath p t).2 = t := (keeps_openPath (P := (· = t)) p).apply rfl
  cases hrun : openPath p t with
  | mk x u =>
    rw [hrun] at h htree
    cases x with
    | error e => cases h
    | ok q =>
      cases h
      cases htree
      rfl

theorem findDir_of_openPath {p : Path} (h : openPath p t = (.ok r, t)) :
    t.canonical p = .ok r.path ∧ t.findDir r.path = .ok r.dir := by
  obtain ⟨path, u, hpath, hrest⟩ := Action.exists_of_bind h
  obtain ⟨hcanonical, hu⟩ := ask_eq_ok hpath
  rw [hu] at hrest
  obtain ⟨dir, v, hdir, hdone⟩ := Action.exists_of_bind hrest
  obtain ⟨hopen, hv⟩ := ask_eq_ok hdir
  cases hdone
  exact ⟨hcanonical, hopen⟩

/-- A root that has been opened by a path is where its own path says. -/
theorem located_of_openPath {p : Path} (ht : t.Sound) (h : openPath p t = (.ok r, t)) :
    r.Located t ∧ t.canonical p = .ok r.path ∧ t.find r.path .follow = .ok r.dir := by
  obtain ⟨hcanonical, hopen⟩ := findDir_of_openPath h
  obtain ⟨above, i, hpath, hleads⟩ := ht.leads_of_canonical hcanonical
  obtain ⟨hfind, hisDir, _⟩ := Tree.find_of_findDir hopen
  obtain ⟨_, _, hresolve, _⟩ := Tree.find_eq_ok_iff.1 hfind
  have hcheck := (Tree.resolve_eq_ok_iff.1 hresolve).1
  rw [hpath] at hcheck
  have hsame := ht.find_of_leads hleads hcheck
  rw [← hpath, hfind] at hsame
  cases hsame
  exact ⟨⟨hisDir, above, hpath, hleads⟩, hcanonical, hfind⟩

/-- What the system says about a location it says about the node there. -/
theorem statEndpoint_eq_ok {s : Stat} {u : Tree} (h : statEndpoint l t = (.ok s, u)) :
    u = t ∧ ∃ i, l.place.bind t.existing = .ok i ∧ t.stat i = .ok s := by
  rw [statEndpoint_eq] at h
  obtain ⟨hfound, rfl⟩ := Prod.mk.inj h
  obtain ⟨place, hplace, hstat⟩ := exists_of_bind_eq_ok (ok_of_mapError hfound)
  rw [hplace]
  exact ⟨rfl, Tree.statAt_eq_ok hstat⟩

/-- A walk that comes to a node by names of a path that goes down finds what the system finds
by all of the names, those that lead to the root included. -/
theorem find_of_walk {full : Path} {i : NodeId} (ht : t.Sound) (hr : r.Located t)
    (hclear : t.Clear r.dir) (hfind : t.find r.path .follow = .ok r.dir)
    (hends : t.isDir i = true ∨
      ∀ k target, t.Under r.dir k → t.link? k = some target → target.EndsInName)
    {names : List Name} (hfull : full = ofNames (r.path.names ++ names))
    (hlength : full.bytes.length < maxPath)
    (hwalk : r.walkWithin t escape true linkLimit (names.map .down) [] = .ok l)
    (hl : l.place.bind t.existing = .ok i) : t.find full .follow = .ok i := by
  obtain ⟨above, hpath, hleads⟩ := hr.leads
  rw [hpath, names_ofNames] at hfull
  subst hfull
  have hsteps : stepsOf (moves (ofNames (above.reverse ++ names))) =
      above.reverse.map .down ++ names.map .down := by
    rw [stepsOf_moves, steps_ofNames, List.map_append]
  obtain ⟨ms, hsuffix, hms, hcomes⟩ := hleads.comes hsteps
  rw [← hms] at hwalk
  have hexact := (exact_moves (endsInName_ofNames (above.reverse ++ names))).suffix hsuffix
  obtain ⟨hcome, hchecks⟩ := walkWithin_mimics ht hr hclear hends linkLimit ms []
    (endsInSlash (ofNames (above.reverse ++ names))) l trivial hwalk hl (.inr hexact)
  have hzero : 0 ∉ (ofNames (above.reverse ++ names)).bytes := by
    rw [mem_ofNames_iff _ (by decide)]
    rintro ⟨n, hn, hmem⟩
    rcases List.mem_append.1 hn with hn | hn
    · obtain ⟨_, _, hresolve, _⟩ := Tree.find_eq_ok_iff.1 hfind
      have hcheck := (Tree.resolve_eq_ok_iff.1 hresolve).1
      rw [hpath] at hcheck
      exact (Tree.checkPath_eq_ok_iff.1 hcheck).1 ((mem_ofNames_iff _ (by decide)).2 ⟨n, hn, hmem⟩)
    · have hcheck := hchecks n (by simpa [hms] using hn)
      exact (Tree.checkPath_eq_ok_iff.1 hcheck).1 hmem
  refine Tree.find_of_comes (Tree.checkPath_eq_ok_iff.2 ⟨hzero, hlength⟩) ?_ (hcomes i hcome)
  rw [← clean_ofNames, isEmpty_clean]

/-- The host below the directory of a canonical path. -/
theorem withRoot_apply {S : Path} {i : NodeId} (hS : t.canonical S = .ok S)
    (hfind : t.find S .follow = .ok i) (hdir : t.isDir i = true) :
    Host.withRoot S t = (.ok ⟨S⟩, t) := by
  have hcanonical : Host.ask (Tree.canonical · S) t = (.ok S, t) := by
    rw [Host.ask_apply, hS]
    rfl
  have hisDir : Host.isDir t S = true := by
    rw [Host.isDir, hfind]
    exact hdir
  unfold Host.withRoot
  rw [Action.bind_apply_of_ok hcanonical, Action.bind_apply_of_ok (Action.look_apply _ t), hisDir]
  rfl

/-- What the host tells of a node that is found. -/
theorem host_stat_apply {h : Host} {p : Path} {i : NodeId} {s : Report}
    (hfind : t.find (h.place p) .follow = .ok i) (hs : t.report i = .ok s) :
    h.stat p t = (.ok (s.metadata p), t) := by
  have hask : Host.ask (fun t => do t.report (← t.find (h.place p) .follow)) t = (.ok s, t) := by
    simp only [Host.ask_apply, hfind, hs, bind, Except.bind]
    rfl
  unfold Host.stat
  rw [Action.bind_apply_of_ok hask]
  rfl

end Root

namespace Confined

open ConfinedFs.Root

variable {t u : Tree} {S p : Path} {r : Root} {c : Confined} {m : Metadata}

/-- Whether it is kept open or opened anew, the root is the same. -/
theorem root_apply (hS : S.clean = S) (hr : openPath S t = (.ok r, t))
    (hc : c = .perCall S ∨ c = .shared r) : c.root t = (.ok r, t) := by
  rcases hc with rfl | rfl
  · rw [perCall, hS]
    exact hr
  · rfl

theorem relative_of_descends (hp : p.Descends) : ∃ rel, c.relative p = .ok rel ∧
    rel.isAbsolute = false ∧ rel.steps = p.names.map .down := by
  unfold relative
  rw [hp.relative, if_neg Bool.false_ne_true]
  have hdown := steps_eq_names hp.noParent
  by_cases hempty : p.isEmpty = true
  · rw [if_pos hempty]
    refine ⟨_, rfl, rfl, ?_⟩
    rw [← hdown, steps_eq_inner p, inner_eq_nil hempty]
    rfl
  · rw [if_neg hempty]
    exact ⟨p, rfl, hp.relative, hdown⟩

/-- What a confined host tells it tells of a node that its root has walked to. -/
theorem stat_eq_ok (hp : p.Descends) (hroot : c.root t = (.ok r, t))
    (hstat : c.stat p t = (.ok m, u)) : ∃ escape l i s,
      r.walkWithin t escape true linkLimit (p.names.map .down) [] = .ok l ∧
      l.place.bind t.existing = .ok i ∧ t.stat i = .ok s ∧ m = s.metadata p := by
  obtain ⟨rel, hrel, habsolute, hsteps⟩ := relative_of_descends (c := c) hp
  rw [stat_apply hrel hroot] at hstat
  obtain ⟨s, _, hs, hm⟩ := Action.exists_of_bind hstat
  obtain ⟨l, v, hquery, hend⟩ := Action.exists_of_bind hs
  obtain ⟨hwalk, hv⟩ := query_eq_ok hquery
  rw [hv] at hend
  obtain ⟨_, i, hi, hsi⟩ := statEndpoint_eq_ok hend
  rw [Root.walk, habsolute, if_neg Bool.false_ne_true, hsteps] at hwalk
  exact ⟨_, l, i, s, hwalk, hi, hsi, (Except.ok.inj (Prod.mk.inj hm).1).symm⟩

section Scene

private def yardName : Name := ⟨[115], rfl⟩

private def shedName : Name := ⟨[100], rfl⟩

private def toolName : Name := ⟨[98], rfl⟩

private def signName : Name := ⟨[105], rfl⟩

private def yard : NodeId := Tree.top.child 0

private def yardRoot : Root := ⟨yard, ofNames [yardName]⟩

private def signPath : Path := ⟨[105]⟩

/-- A directory with a link, and another directory in it with a file. -/
private def grounds (mode : UInt32) (target : Path) : Call Descriptor := do
  Call.mkdir (.entry Tree.top yardName) 0o755
  Call.mkdir (.entry yard shedName) mode
  Call.symlink target (.entry yard signName)
  Call.openAt (Host.openFlags .touching) (.entry (yard.child 0) toolName) false

private def yardTree (mode : UInt32) (target : Path) : Tree := (grounds mode target .fresh).2

private theorem sound_yardTree (mode : UInt32) (target : Path) : (yardTree mode target).Sound := by
  have hkeeps : Action.Keeps Tree.Sound (grounds mode target) :=
    .bind (Call.keeps_sound_mkdir _ _) fun _ => .bind (Call.keeps_sound_mkdir _ _) fun _ =>
      .bind (Call.keeps_sound_symlink _ _) fun _ => Call.keeps_sound_openAt _ _ _
  exact hkeeps.apply Tree.sound_fresh

/-- The file by an absolute path. -/
private def toTool : Path := ⟨[47, 115, 47, 100, 47, 98]⟩

def longName : Name := ⟨List.replicate 255 97, by decide⟩

/-- So many directories, each in the one before, all under the same long name. -/
def shaft : Nat → NodeId → Call Unit
  | 0, _ => pure ()
  | levels + 1, i => do
    Call.mkdir (.entry i longName) 0o755
    shaft levels (i.child 0)

private def shaftTree : Tree :=
  (shaft 16 yard (Call.mkdir (.entry Tree.top yardName) 0o755 .fresh).2).2

private def shaftPath : Path := below (List.replicate 16 longName)

/-- The inner directory belongs to someone else, who lets others read it and no more. -/
private def lentTree : Tree :=
  (yardTree 0o755 ⟨[100, 47, 46, 46]⟩).modifyDir (yard.child 0) ({ · with perm := ⟨0o754, .stranger⟩ })

/-- A pipe in the place of the link. -/
private def pipeTree : Tree :=
  (Call.addEntry yard signName (.special 0o644)
    (Call.mkdir (.entry Tree.top yardName) 0o755 .fresh).2).2

end Scene

end Confined

end ConfinedFs
