import ConfinedFs.Proofs.Coupling
import ConfinedFs.Proofs.Rooted.Agreement
import ConfinedFs.Proofs.Rooted.Confinement
import ConfinedFs.Proofs.Rooted.HostPaths

/-!
Opening the base of a confined host again. What a root does depends on its directory and on what
its path is when cleaned. As long as the path leads to the directory, opening the path gives such
a root again, so it makes no difference whether the root is kept or opened anew.
-/

namespace ConfinedFs

open ConfinedFs.Os ConfinedFs.Path
open ConfinedFs.Action (Coupled Keeps Spares Triple)

variable {α β : Type}

namespace Root

variable {r r' : Root} {t u : Tree}

/-- Roots on one directory, under paths that are the same when cleaned. -/
structure Same (r r' : Root) : Prop where
  dir : r'.dir = r.dir
  path : r'.path.clean = r.path.clean

section Same

variable (h : r.Same r')

include h

theorem Same.current_eq (trail : Trail) : r'.current trail = r.current trail := by
  cases trail with
  | nil => exact h.dir
  | cons e above => rfl

theorem Same.endpoint_eq (trail : Trail) (name : Option Name) :
    r'.endpoint trail name = r.endpoint trail name := by
  rw [endpoint, endpoint, h.current_eq]

theorem Same.remainder?_eq (p : Path) : r'.path.remainder? p = r.path.remainder? p := by
  simp only [remainder?, h.path]

theorem Same.advance_eq (t : Tree) (escape : FileError) (followLast : Bool)
    (jump : Option (List Step → Trail → Except FileError Endpoint)) (steps : List Step)
    (trail : Trail) :
    r'.advance t escape followLast jump steps trail =
      r.advance t escape followLast jump steps trail := by
  induction steps generalizing trail with
  | nil => exact congrArg Except.ok (h.endpoint_eq trail none)
  | cons step steps ih =>
    cases step with
    | up =>
      cases trail with
      | nil => rfl
      | cons e above => exact ih above
    | down n => simp only [advance, h.current_eq, h.endpoint_eq, h.remainder?_eq, ih]

theorem Same.walk_eq : r'.walk = r.walk := by
  have hwithin : ∀ t escape followLast links,
      r'.walkWithin t escape followLast links = r.walkWithin t escape followLast links := by
    intro t escape followLast links
    induction links with
    | zero => exact funext fun steps => funext (h.advance_eq t escape followLast none steps)
    | succ links ih =>
      rw [walkWithin, walkWithin, ih]
      exact funext fun steps => funext (h.advance_eq t escape followLast _ steps)
  funext t p followLast
  rw [walk, walk, hwithin]

theorem Same.stat_eq (p : Path) : r'.stat p = r.stat p := by rw [stat, stat, h.walk_eq]

theorem Same.ensureDirs_eq (p : Path) (mode : UInt32) :
    r'.ensureDirs p mode = r.ensureDirs p mode := by
  have hmkdir : ∀ p, r'.mkdir p mode = r.mkdir p mode := by
    intro p
    rw [mkdir, mkdir, h.walk_eq]
  unfold ensureDirs
  induction stages p with
  | nil => rfl
  | cons p rest ih => simp only [ensureEach, h.stat_eq, hmkdir, ih]

end Same

section Walked

variable {p : Path} {l : Endpoint} {escape : FileError} {followLast : Bool} {trail : Trail}

/-- A walk ends where a trail has led to. Whatever is known of trails from the way they grow and
are cut back is known of this one. The induction is on the steps. -/
theorem trail_of_advance {I : Trail → Prop} (hroot : I [])
    (hup : ∀ e above, I (e :: above) → I above)
    (hdown : ∀ trail n i, I trail → dirIn t (r.current trail) n = .ok i → I ((n, i) :: trail))
    {jump : Option (List Step → Trail → Except FileError Endpoint)}
    (hjump : ∀ f, jump = some f → ∀ steps trail l, I trail → f steps trail = .ok l →
      ∃ trail', I trail' ∧ l = r.endpoint trail' l.name)
    {steps : List Step} (htrail : I trail)
    (hl : r.advance t escape followLast jump steps trail = .ok l) :
    ∃ trail', I trail' ∧ l = r.endpoint trail' l.name := by
  induction steps generalizing trail with
  | nil =>
    cases hl
    exact ⟨trail, htrail, rfl⟩
  | cons step steps ih =>
    cases step with
    | up =>
      cases trail with
      | nil => cases hl
      | cons e above => exact ih (hup e above htrail) hl
    | down n =>
      obtain ⟨_, rfl, _⟩ | ⟨s, f, target, _, _, hf, _, hover⟩ | ⟨s, i, _, _, _, _, hopen, hgo⟩ :=
        advance_down_cases hl
      · exact ⟨trail, htrail, rfl⟩
      · unfold handOver at hover
        split at hover
        · split at hover
          · cases hover
          · exact hjump f hf _ _ l hroot hover
        · exact hjump f hf _ _ l htrail hover
      · exact ih (hdown trail n i htrail hopen) hgo

theorem trail_of_walk {I : Trail → Prop} (hroot : I [])
    (hup : ∀ e above, I (e :: above) → I above)
    (hdown : ∀ trail n i, I trail → dirIn t (r.current trail) n = .ok i → I ((n, i) :: trail))
    (hl : r.walk t p followLast = .ok l) : ∃ trail, I trail ∧ l = r.endpoint trail l.name := by
  have hwithin : ∀ links steps trail l, I trail →
      r.walkWithin t (.pathEscapesParent p) followLast links steps trail = .ok l →
      ∃ trail', I trail' ∧ l = r.endpoint trail' l.name := by
    intro links
    induction links with
    | zero => exact fun _ _ _ => trail_of_advance hroot hup hdown fun _ hf => by cases hf
    | succ links ih =>
      refine fun _ _ _ => trail_of_advance hroot hup hdown ?_
      rintro _ ⟨⟩
      exact ih
  unfold walk at hl
  split at hl
  · cases hl
  · exact hwithin _ _ _ _ hroot hl

theorem Passed.leads (h : r.Passed t trail) :
    t.Leads r.dir (trail.map Prod.fst) (r.current trail) := by
  induction trail with
  | nil => exact .here
  | cons e above ih => exact .down (ih h.2.2) h.1 (Tree.link?_eq_none_of_isDir h.2.1)

theorem checkPath_of_dirIn {dir i : NodeId} {n : Name} (h : dirIn t dir n = .ok i) :
    Tree.checkPath n.bytes = .ok () := by
  exact checkPath_of_placeIn (Tree.of_placeIn_bind (ok_of_mapError h)).1

/-- What has been walked to can be gone down to by the names of the location. -/
theorem leads_of_walk (hl : r.walk t p followLast = .ok l) :
    t.Leads r.dir l.names.reverse l.dir ∧ ∀ n ∈ l.names, Tree.checkPath n.bytes = .ok () := by
  obtain ⟨trail, ⟨hpassed, hchecks⟩, hend⟩ := trail_of_walk
    (I := fun trail => r.Passed t trail ∧ ∀ e ∈ trail, Tree.checkPath e.1.bytes = .ok ())
    ⟨trivial, nofun⟩ (fun e above h => ⟨h.1.2.2, fun e' he' => h.2 e' (List.mem_cons_of_mem _ he')⟩)
    (fun trail n i h hopen => by
      obtain ⟨hfound, hdir⟩ := isDir_of_dirIn hopen
      refine ⟨⟨hfound, hdir, h.1⟩, fun e he => ?_⟩
      rcases List.mem_cons.1 he with rfl | he
      · exact checkPath_of_dirIn hopen
      · exact h.2 e he) hl
  rw [hend]
  refine ⟨?_, ?_⟩
  · rw [endpoint, List.reverse_reverse]
    exact hpassed.leads
  · intro n hn
    obtain ⟨e, he, rfl⟩ := List.mem_map.1 (List.mem_reverse.1 hn)
    exact hchecks e he

/-- What is opened at a location is what the names of the location lead to. -/
theorem openDir_eq_ok {i : NodeId} (h : openDir l t = (.ok i, u))
    (hleads : t.Leads r.dir l.names.reverse l.dir)
    (hchecks : ∀ n ∈ l.names, Tree.checkPath n.bytes = .ok ()) :
    u = t ∧ t.isDir i = true ∧ t.demand .read i = .ok () ∧
      t.Leads r.dir (l.names ++ l.name.toList).reverse i ∧
      ∀ n ∈ l.names ++ l.name.toList, Tree.checkPath n.bytes = .ok () := by
  obtain ⟨place, v, hplace, hrest⟩ := Action.exists_of_bind h
  rw [placeOf_eq, Action.ofExcept_apply] at hplace
  obtain ⟨hfound, hv⟩ := Prod.mk.inj hplace
  rw [← hv] at hrest
  obtain ⟨hopen, hu⟩ := ask_eq_ok hrest
  have hexisting := Tree.existing_of_openDirAt hopen
  have hplaced := ok_of_mapError hfound
  have hread : t.demand .read i = .ok () := by
    unfold Tree.openDirAt at hopen
    rw [hexisting.1] at hopen
    exact (Tree.openDir_eq_ok_iff.1 hopen).2.2
  unfold Endpoint.place at hplaced
  cases hname : l.name with
  | none =>
    rw [hname] at hplaced
    cases hplaced
    cases hexisting.1
    exact ⟨hu, hexisting.2, hread, by simpa using hleads, by simpa using hchecks⟩
  | some n =>
    rw [hname] at hplaced
    have hentry := Tree.eq_entry_of_placeIn hplaced
    rw [hentry] at hexisting hplaced
    have hlookup := Tree.lookup_of_existing hexisting.1
    refine ⟨hu, hexisting.2, hread, ?_, ?_⟩
    · simpa using hleads.down hlookup (Tree.link?_eq_none_of_isDir hexisting.2)
    · intro m hm
      rcases List.mem_append.1 hm with hm | hm
      · exact hchecks m hm
      · cases List.mem_singleton.1 hm
        exact checkPath_of_placeIn hplaced

/-- A root that is opened inside of another one is where the names of a location lead, and these
names are put after the path of the other root. -/
theorem openRoot_eq_ok {sub : Root} (h : r.openRoot p t = (.ok sub, u)) :
    ∃ l, r.walk t p true = .ok l ∧ u = t ∧ sub.path = r.path.push l.path ∧
      t.isDir sub.dir = true ∧ t.demand .read sub.dir = .ok () ∧
      t.Leads r.dir (l.names ++ l.name.toList).reverse sub.dir ∧
      ∀ n ∈ l.names ++ l.name.toList, Tree.checkPath n.bytes = .ok () := by
  obtain ⟨l, v, hquery, hrest⟩ := Action.exists_of_bind h
  obtain ⟨hwalk, rfl⟩ := query_eq_ok hquery
  obtain ⟨i, w, hdir, hdone⟩ := Action.exists_of_bind hrest
  obtain ⟨hleads, hchecks⟩ := leads_of_walk hwalk
  obtain ⟨rfl, hopened⟩ := openDir_eq_ok hdir hleads hchecks
  cases hdone
  exact ⟨l, hwalk, rfl, rfl, hopened⟩

end Walked

/-- The path of a root leads straight down to its directory, which may be read. -/
structure Anchored (r : Root) (t : Tree) : Prop where
  absolute : r.path.isAbsolute = true
  noParent : .parent ∉ r.path.components
  noZero : 0 ∉ (ofNames r.path.names).bytes
  isDir : t.isDir r.dir = true
  readable : t.demand .read r.dir = .ok ()
  leads : t.Leads Tree.top r.path.names.reverse r.dir

theorem Anchored.adds (h : r.Anchored t) (hu : t.Adds u) : r.Anchored u := by
  have hremakes := hu.remakes (Tree.Drops.refl u).remakes
  exact ⟨h.absolute, h.noParent, h.noZero, hremakes.isDir h.isDir,
    hremakes.demand h.isDir h.readable, hu.leads h.leads h.isDir⟩

/-- All that can happen to the path is that it is lost. -/
theorem Anchored.remakes (h : r.Anchored t) (hu : t.Remakes u)
    (hnamed : u.Named r.path.names.reverse r.dir) : r.Anchored u :=
  ⟨h.absolute, h.noParent, h.noZero, hu.isDir h.isDir, hu.demand h.isDir h.readable,
    hu.leads h.leads h.isDir hnamed⟩

/-- A path that is short enough is opened again. -/
theorem Anchored.openPath_eq (h : r.Anchored t) (ht : t.Sound)
    (hlength : (ofNames r.path.names).bytes.length < maxPath) :
    openPath (ofNames r.path.names) t = (.ok ⟨r.dir, ofNames r.path.names⟩, t) := by
  have hcheck : Tree.checkPath (ofNames r.path.names.reverse.reverse).bytes = .ok () := by
    rw [List.reverse_reverse]
    exact Tree.checkPath_eq_ok_iff.2 ⟨h.noZero, hlength⟩
  have hcanonical := h.leads.canonical_eq hcheck
  have hfind := ht.find_of_leads h.leads hcheck
  rw [List.reverse_reverse] at hcanonical hfind
  have hopen : t.findDir (ofNames r.path.names) = .ok r.dir := by
    rw [Tree.findDir, hfind]
    exact Tree.openDir_eq_ok_iff.2 ⟨rfl, h.isDir, h.readable⟩
  have hpath : Host.ask (Tree.canonical · (ofNames r.path.names)) t =
      (.ok (ofNames r.path.names), t) := by
    rw [Host.ask_apply, hcanonical]
    rfl
  have hdir : Host.ask (Tree.findDir · (ofNames r.path.names)) t = (.ok r.dir, t) := by
    rw [Host.ask_apply, hopen]
    rfl
  rw [openPath, Action.bind_apply_of_ok hpath, Action.bind_apply_of_ok hdir]
  rfl

/-- The path of a root that has been opened inside of another one leads to its directory. -/
theorem Anchored.openRoot {p : Path} {sub : Root} (h : r.Anchored t)
    (hopen : r.openRoot p t = (.ok sub, u)) : u = t ∧ sub.Anchored t := by
  obtain ⟨l, _, rfl, hpath, hisDir, hread, hbelow, hchecked⟩ := openRoot_eq_ok hopen
  have hnames := names_push h.noParent (l.names ++ l.name.toList)
  have hcomponents := components_push h.absolute h.noParent (l.names ++ l.name.toList)
  have hrelative : l.path.isAbsolute = false :=
    isAbsolute_ofComponents fun _ hc => isInner_of_mem_names _ hc
  refine ⟨rfl, ?_, ?_, ?_, hisDir, hread, ?_⟩
  · rw [hpath]
    exact (isAbsolute_push _ hrelative).trans h.absolute
  · rw [hpath, Endpoint.path, hcomponents]
    simp
  · rw [hpath, Endpoint.path, hnames, mem_ofNames_iff _ (by decide)]
    rintro ⟨n, hn, hmem⟩
    rcases List.mem_append.1 hn with hn | hn
    · exact h.noZero ((mem_ofNames_iff _ (by decide)).2 ⟨n, hn, hmem⟩)
    · exact (Tree.checkPath_eq_ok_iff.1 (hchecked n hn)).1 hmem
  · rw [hpath, Endpoint.path, hnames, List.reverse_append]
    exact h.leads.trans hbelow

end Root

namespace Confined

variable {c c' : Confined} {r r' : Root} {t : Tree}

/-- The first host has the first root, and the second one gets the second root in a tree, which
does the same. -/
structure Reopens (c c' : Confined) (t : Tree) : Prop where
  base : c'.base.clean = c.base.clean
  roots : ∃ r r', c.root t = (.ok r, t) ∧ c'.root t = (.ok r', t) ∧ r.Same r'

section Reopens

variable (h : c.Reopens c' t)

include h

theorem Reopens.relative_eq (p : Path) : c'.relative p = c.relative p := by
  simp only [relative, remainder?, h.base]

theorem Reopens.root_bind {f f' : Root → Root.Work α}
    (hf : ∀ r r', r.Same r' → f' r' t = f r t) : (c'.root >>= f') t = (c.root >>= f) t := by
  obtain ⟨r, r', hr, hr', hsame⟩ := h.roots
  rw [Action.bind_apply_of_ok hr, Action.bind_apply_of_ok hr']
  exact hf r r' hsame

/-- The path is taken for the same one below both bases. -/
theorem Reopens.relative_bind {f f' : Path → Root.Work α} (p : Path)
    (hf : ∀ rel, f' rel t = f rel t) :
    (Action.ofExcept (c'.relative p) >>= f') t = (Action.ofExcept (c.relative p) >>= f) t := by
  rw [h.relative_eq p]
  refine Action.bind_congr fun rel s hrun => ?_
  rw [Action.ofExcept_apply] at hrun
  obtain ⟨_, rfl⟩ := Prod.mk.inj hrun
  exact hf rel

/-- What is asked of the roots about the same path. -/
theorem Reopens.ask {f : Path → Root → Root.Work α} (p : Path)
    (hf : ∀ rel r r', r.Same r' → f rel r' = f rel r) :
    (Action.ofExcept (c'.relative p) >>= fun rel => c'.root >>= f rel) t =
      (Action.ofExcept (c.relative p) >>= fun rel => c.root >>= f rel) t :=
  h.relative_bind p fun rel => h.root_bind fun r r' hsame => congrFun (hf rel r r' hsame) t

theorem Reopens.openFile_eq (p : Path) (o : OpenOptions) :
    c'.openFile p o t = c.openFile p o t := by
  refine h.ask p fun rel r r' hsame => ?_
  simp only [ensureAbove, hsame.ensureDirs_eq, Root.openFile, hsame.walk_eq]

theorem Reopens.rename_eq (source target : Path) :
    c'.rename source target t = c.rename source target t := by
  refine h.relative_bind source fun source => h.relative_bind target fun target => ?_
  split
  · rfl
  · refine h.root_bind fun r r' hsame => ?_
    simp only [ensureAbove, hsame.ensureDirs_eq, Root.rename, hsame.walk_eq]

theorem Reopens.remove_eq (p : Path) : c'.remove p t = c.remove p t := by
  refine h.relative_bind p fun rel => ?_
  split
  · rfl
  · refine h.root_bind fun r r' hsame => ?_
    simp only [Root.remove, hsame.walk_eq]

theorem Reopens.removeAll_eq (p : Path) : c'.removeAll p t = c.removeAll p t := by
  refine h.relative_bind p fun rel => ?_
  split
  · rfl
  · refine h.root_bind fun r r' hsame => ?_
    simp only [Root.removeAll, hsame.walk_eq]

end Reopens

/-- What is created is below a directory that has been made or was there, and the base has been
opened again for each attempt. -/
theorem openUnused_eq (h : ∀ u, Call.Gained t u → c.Reopens c' u) (candidate : Nat → Path)
    (attempts : List Nat) {u : Tree} (hu : Call.Gained t u) :
    c'.bareFileSystem.openUnused candidate attempts u =
      c.bareFileSystem.openUnused candidate attempts u := by
  induction attempts generalizing u with
  | nil => rfl
  | cons i attempts ih =>
    unfold BareFileSystem.openUnused
    have hopen : ((c'.openFile (candidate i) .temporary).outcome : Root.Work _) u =
        (c.openFile (candidate i) .temporary).outcome u := by
      rw [Action.outcome, Action.outcome, (h u hu).openFile_eq (candidate i) .temporary]
    have hspares : Spares (Call.Gained t) (c.openFile (candidate i) .temporary) :=
      c.spares_openFile (candidate i) fun _ => Call.keeps_gained_mkdir t
    refine (Action.bind_congr_left hopen).trans (Action.bind_congr fun opened v hrun => ?_)
    cases opened with
    | ok f => rfl
    | error e =>
      cases e with
      | alreadyExists => exact ih (hspares.of_error hu (Action.run_of_outcome hrun))
      | _ => rfl

/-- A host whose base is opened anew for each request answers it as one that keeps its root, and
does the same. -/
theorem perform_eq (ht : t.Sound) (h : ∀ u, Call.Gained t u → c.Reopens c' u)
    (op : Operation Os.FileHandle α) : c'.fileSystem.perform op t = c.fileSystem.perform op t := by
  have hnow := h t ⟨.refl t, ht⟩
  cases op with
  | openFile p o => exact hnow.openFile_eq p o
  | rename source target => exact hnow.rename_eq source target
  | remove p => exact hnow.remove_eq p
  | stat p =>
    refine hnow.ask p fun rel r r' hsame => ?_
    simp only [Root.stat, hsame.walk_eq]
  | lstat p =>
    refine hnow.ask p fun rel r r' hsame => ?_
    simp only [Root.lstat, hsame.walk_eq]
  | readDir p =>
    refine hnow.ask p fun rel r r' hsame => ?_
    simp only [Root.readDir, hsame.walk_eq]
  | createDirAll p mode => exact hnow.ask p fun rel r r' hsame => hsame.ensureDirs_eq rel mode
  | symlink target link =>
    refine hnow.ask link fun rel r r' hsame => ?_
    simp only [ensureAbove, hsame.ensureDirs_eq, Root.symlink, hsame.walk_eq]
  | readlink p =>
    refine hnow.ask p fun rel r r' hsame => ?_
    simp only [Root.readlink, hsame.walk_eq]
  | tempFile draws dir stem =>
    simp only [FileSystem.perform, fileSystem, BareFileSystem.unusedFile]
    generalize List.range BareFileSystem.temporaryAttempts = attempts
    refine hnow.relative_bind dir fun rel => hnow.root_bind fun r r' hsame => ?_
    rw [hsame.ensureDirs_eq]
    refine Action.bind_congr fun _ u hrun => openUnused_eq h _ attempts ?_
    have hgained := (Root.keeps_ensureDirs (Call.keeps_gained_mkdir t) r rel
      FileSystem.defaultDirMode).apply (s := t) ⟨.refl t, ht⟩
    rwa [hrun] at hgained

section Narrowing

variable {p : Path}

/-- What is left of narrowing a host once the directory is there. -/
theorem coupled_narrowTo {k k' : Root → Confined} (hsame : r.Same r') (rel : Path)
    (hk : ∀ q q', q.Same q' → k' q' = perCall (k q).base) :
    Coupled Eq (fun a a' => a' = perCall a.base)
      (do
        if !(← r.stat rel).isDir then throw .baseNotDirectory
        let sub ← r.openRoot rel
        return k sub : Root.Work Confined)
      (do
        if !(← r'.stat rel).isDir then throw .baseNotDirectory
        let sub ← r'.openRoot rel
        return k' sub) t t := by
  have hopen : ∀ u, Coupled Eq Root.Same (r.openRoot rel) (r'.openRoot rel) u u := by
    intro u
    rw [Root.openRoot, Root.openRoot, hsame.walk_eq]
    refine (Coupled.refl _ u).bind ?_
    rintro l _ v _ - - rfl rfl
    refine (Coupled.refl _ v).bind ?_
    rintro i _ w _ - - rfl rfl
    have hrelative : l.path.isAbsolute = false :=
      isAbsolute_ofComponents fun _ hc => isInner_of_mem_names _ hc
    exact .pure rfl ⟨rfl, clean_push_congr hsame.path hrelative⟩
  rw [hsame.stat_eq]
  refine (Coupled.refl _ t).bind ?_
  rintro s _ u _ - - rfl rfl
  refine .guarded rfl Iff.rfl fun _ _ => (hopen u).bind ?_
  rintro q q' v _ - - hq rfl
  exact .pure rfl (hk q q' hq)

/-- The narrower host is the one that opens the base of the other one anew. -/
theorem Reopens.coupled_narrow (h : c.Reopens c' t) (hkept : c.kept.isSome = true)
    (hkept' : c'.kept.isSome = false) :
    Coupled Eq (fun a a' => a' = perCall a.base) (c.narrow p) (c'.narrow p) t t := by
  unfold narrow
  rw [h.relative_eq p, hkept, hkept']
  refine (Coupled.refl _ t).bind ?_
  rintro rel _ u _ hrun - rfl rfl
  rw [Action.ofExcept_apply] at hrun
  obtain ⟨_, rfl⟩ := Prod.mk.inj hrun
  obtain ⟨r, r', hr, hr', hsame⟩ := h.roots
  refine Coupled.congr ?_ (Action.bind_apply_of_ok hr) (Action.bind_apply_of_ok hr')
  rw [hsame.ensureDirs_eq]
  refine (Coupled.refl _ t).bind ?_
  rintro made _ u _ - - rfl rfl
  have hk : ∀ q q' : Root, q.Same q' → perCall q'.path = perCall (shared q).base := by
    intro q q' hq
    rw [perCall, hq.path]
    rfl
  cases made with
  | ok => exact coupled_narrowTo hsame rel hk
  | error e =>
    cases e with
    | alreadyExists => exact ⟨rfl, rfl⟩
    | _ => exact ⟨rfl, rfl⟩

/-- A root that is kept is opened again at the place where it was. -/
theorem reopens_of_anchored (h : r.Anchored t) (ht : t.Sound)
    (hlength : (ofNames r.path.names).bytes.length < maxPath) :
    (shared r).Reopens (perCall r.path) t := by
  have hclean : r.path.clean = ofNames r.path.names := clean_eq_ofNames h.absolute
  refine ⟨clean_clean r.path, r, ⟨r.dir, ofNames r.path.names⟩, rfl, ?_, ⟨rfl, ?_⟩⟩
  · rw [perCall, root, hclean]
    exact h.openPath_eq ht hlength
  · rw [clean_ofNames, hclean]

/-- Making directories keeps a root where it is. -/
theorem keeps_anchored_mkdir (r : Root) (place : Place) (mode : UInt32) :
    Keeps (fun u => r.Anchored u ∧ u.Sound) (Call.mkdir place mode) := by
  apply Keeps.of_fixed
  rintro u ⟨hanchored, hu⟩
  have hgained := Call.keeps_gained_mkdir u place mode
  refine hgained.weaken ?_ (fun _ v hv => ⟨hanchored.adds hv.1.adds, hv.2⟩)
    fun _ v hv => ⟨hanchored.adds hv.1.adds, hv.2⟩
  rintro _ rfl
  exact ⟨.refl _, hu⟩

/-- A host that is narrower keeps a root that is where its path says. -/
theorem triple_narrow (r : Root) (p : Path) :
    Triple (fun u => r.Anchored u ∧ u.Sound) ((shared r).narrow p)
      (fun a u => ∃ sub, a = shared sub ∧ sub.Anchored u) fun _ _ => True := by
  have hnone : ∀ (_ : FileError) u, r.Anchored u ∧ u.Sound → True := fun _ _ _ => trivial
  have hopen : ∀ rel, Triple (fun u => r.Anchored u ∧ u.Sound) (r.openRoot rel)
      (fun sub u => sub.Anchored u) fun _ _ => True := by
    intro rel u hu
    cases hrun : r.openRoot rel u with
    | mk x v =>
      cases x with
      | error e => trivial
      | ok sub =>
        obtain ⟨rfl, hsub⟩ := hu.1.openRoot hrun
        exact hsub
  have hlast : ∀ rel, Triple (fun u => r.Anchored u ∧ u.Sound)
      (do
        if !(← r.stat rel).isDir then throw .baseNotDirectory
        let sub ← r.openRoot rel
        return shared sub : Root.Work Confined)
      (fun a u => ∃ sub, a = shared sub ∧ sub.Anchored u) fun _ _ => True := by
    intro rel
    refine (Root.keeps_stat r rel).andThen hnone fun s => ?_
    refine Triple.guarded (fun _ _ _ => trivial) fun _ => ?_
    exact Triple.bind (hopen rel) fun sub => Triple.pure fun u hu => ⟨sub, rfl, hu⟩
  have hroot : (shared r).root = pure r := rfl
  unfold narrow
  refine Keeps.andThen (.ofExcept _) hnone fun rel => ?_
  rw [hroot, pure_bind]
  have hdirs := Root.keeps_ensureDirs (keeps_anchored_mkdir r) r rel FileSystem.defaultDirMode
  refine (Keeps.outcome hdirs).andThen hnone fun made => ?_
  cases made with
  | ok => exact hlast rel
  | error e =>
    cases e with
    | alreadyExists => exact Triple.throw_bind fun _ _ => trivial
    | _ => exact Triple.throw_bind fun _ _ => trivial

end Narrowing

end Confined

end ConfinedFs
