import ConfinedFs.Proofs.Path.Retracing
import ConfinedFs.Proofs.Rooted.Reopening

/-!
Where a walk ends. The names of a location and the directory that is held open go together: each
name has been looked up in the directory before it, and no link is among them. So the path that a
root opened inside of another one goes by is the one that leads to its directory, and whether a
walk has ended on the root can be told from the names.
-/

namespace ConfinedFs

open ConfinedFs.Os ConfinedFs.Path
open ConfinedFs.Action (Triple)

namespace Os.Tree

variable {t : Tree} {i : NodeId} {p q : Path}

/-- A node has a path if it has the names of the path, by entries alone and from the top. Paths
are compared by their components. -/
def HasPath (t : Tree) (i : NodeId) (p : Path) : Prop :=
  ∃ above, t.Named above i ∧ p.same (ofNames above.reverse) = true

/-- A directory has one path. -/
theorem HasPath.same (hp : t.HasPath i p) (hq : t.HasPath i q) (ht : t.Sound)
    (hi : t.isDir i = true) : p.same q = true := by
  obtain ⟨above, habove, hsame⟩ := hp
  obtain ⟨above', habove', hsame'⟩ := hq
  rw [ht.named_unique habove habove' hi] at hsame
  exact decide_eq_true ((of_decide_eq_true hsame).trans (of_decide_eq_true hsame').symm)

end Os.Tree

namespace Root

variable {α : Type} {r sub : Root} {t u : Tree} {p : Path} {l : Endpoint} {n : Name} {dir : NodeId}
  {trail : Trail} {escape : FileError} {followLast : Bool}

section Walk

/-- Nothing is said about a name if there is no entry. -/
theorem lookup_of_statIn_none (h : statIn t dir n = .ok none) :
    t.lookup dir n = .error .noEntry := by
  unfold statIn at h
  cases hplace : Tree.placeIn dir n with
  | error e =>
    rw [hplace] at h
    simp only [Except.bind] at h
    split at h
    · next he => exact absurd (he ▸ hplace) Tree.placeIn_ne_noEntry
    · cases h
  | ok place =>
    rw [hplace, Tree.eq_entry_of_placeIn hplace] at h
    simp only [Except.bind, Tree.statAt, Tree.existing, Tree.occupant] at h
    cases hlookup : t.lookup dir n with
    | ok i =>
      simp only [hlookup, bind, Except.bind, pure, Except.pure] at h
      cases hstat : t.stat i with
      | ok s =>
        rw [hstat] at h
        cases h
      | error e =>
        have he : e ≠ .noEntry := Tree.stat_eq_error hstat ▸ (by decide)
        rw [hstat] at h
        simp only [if_neg he] at h
        cases h
    | error e =>
      by_cases he : e = .noEntry
      · rw [he]
      · simp [hlookup, he, bind, Except.bind] at h

/-- If the location has a name, the system has been asked about it, and it is not that of a link
to be followed. -/
def Answered (t : Tree) (followLast : Bool) (l : Endpoint) : Prop :=
  ∀ n, l.name = some n → ∃ found, statIn t l.dir n = .ok found ∧
    ∀ s, found = some s → (s.isSymlink && followLast) = false

/-- The induction is on the steps. -/
theorem answered_of_advance {jump : Option (List Step → Trail → Except FileError Endpoint)}
    (hjump : ∀ f, jump = some f → ∀ steps trail l, f steps trail = .ok l → Answered t followLast l)
    {steps : List Step} (hl : r.advance t escape followLast jump steps trail = .ok l) :
    Answered t followLast l := by
  induction steps generalizing trail with
  | nil =>
    cases hl
    exact nofun
  | cons step steps ih =>
    cases step with
    | up =>
      cases trail with
      | nil => cases hl
      | cons e above => exact ih hl
    | down n =>
      obtain ⟨found, hfound, _⟩ := exists_of_bind_eq_ok hl
      obtain ⟨_, rfl, hnolink⟩ | ⟨s, f, target, _, _, hf, _, hover⟩ | ⟨s, i, _, _, _, _, _, hgo⟩ :=
        advance_down_cases hl
      · rintro _ ⟨⟩
        refine ⟨found, hfound, fun s hs => hnolink s ?_⟩
        rw [hfound, hs]
      · unfold handOver at hover
        split at hover
        · split at hover
          · cases hover
          · exact hjump f hf _ _ l hover
        · exact hjump f hf _ _ l hover
      · exact ih hgo

theorem answered_of_walk (hl : r.walk t p followLast = .ok l) : Answered t followLast l := by
  have hwithin : ∀ links steps trail l,
      r.walkWithin t (.pathEscapesParent p) followLast links steps trail = .ok l →
      Answered t followLast l := by
    intro links
    induction links with
    | zero => exact fun _ _ _ => answered_of_advance fun _ hf => by cases hf
    | succ links ih =>
      refine fun _ _ _ => answered_of_advance ?_
      rintro _ ⟨⟩
      exact ih
  unfold walk at hl
  split at hl
  · cases hl
  · exact hwithin _ _ _ _ hl

/-- A location as it is in the tree. The directories that lead to it from the root are real ones,
each an entry of the one before, the name is a single component, and what the name stands for is
not a link if links in the last place are followed. -/
structure Physical (r : Root) (t : Tree) (followLast : Bool) (l : Endpoint) : Prop where
  way : ∃ trail, r.Passed t trail ∧ l = r.endpoint trail l.name
  isDir : t.isDir l.dir = true
  name : ∀ n, l.name = some n → (⟨n.bytes⟩ : Path).components = [.name n]
  found : ∀ n, l.name = some n → t.lookup l.dir n = .error .noEntry ∨
    ∃ i, t.lookup l.dir n = .ok i ∧ (followLast = true → t.link? i = none)

theorem Physical.of_walk (hr : t.isDir r.dir = true) (hl : r.walk t p followLast = .ok l) :
    r.Physical t followLast l := by
  obtain ⟨trail, hpassed, hend⟩ := trail_of_walk (I := r.Passed t) trivial (fun _ _ h => h.2.2)
    (fun trail n i h hopen => ⟨(isDir_of_dirIn hopen).1, (isDir_of_dirIn hopen).2, h⟩) hl
  have hdir : l.dir = r.current trail := congrArg Endpoint.dir hend
  refine ⟨⟨trail, hpassed, hend⟩, hdir ▸ hpassed.isDir hr, fun n _ => ?_, fun n hname => ?_⟩
  · have hinner : ∀ c ∈ [Component.name n], c.IsInner := fun c hc => isInner_of_mem_names [n] hc
    exact components_ofComponents hinner
  · obtain ⟨found, hfound, hnolink⟩ := answered_of_walk hl n hname
    cases found with
    | none => exact .inl (lookup_of_statIn_none hfound)
    | some s =>
      obtain ⟨hplace, i, hi⟩ := lookup_of_statIn hfound
      refine .inr ⟨i, hi, fun hfollow => ?_⟩
      cases hlink : t.link? i with
      | none => rfl
      | some target =>
        obtain ⟨s', hs', hsymlink⟩ := statIn_of_link hplace hi hlink
        rw [hfound] at hs'
        cases hs'
        have hnot := hnolink s rfl
        rw [hsymlink, hfollow] at hnot
        cases hnot

/-- Further down there is always another directory. -/
theorem Passed.current_ne {e : Name × NodeId} {above : Trail} (h : r.Passed t (e :: above))
    (ht : t.Sound) : r.current (e :: above) ≠ r.dir := by
  intro heq
  obtain ⟨d, hd, hmem⟩ := Tree.mem_entries_of_lookup h.1
  have hbase : t.isDir r.dir = true := heq ▸ h.2.1
  rw [show e.2 = r.dir from heq] at hmem
  exact ht.not_mem_entries_of_under hbase h.2.2.under hd e.1 hmem

theorem Physical.isRoot_iff (h : r.Physical t followLast l) (ht : t.Sound) :
    l.isRoot = true ↔ l.name = none ∧ l.dir = r.dir := by
  obtain ⟨trail, hpassed, hend⟩ := h.way
  have hnames : l.names.isEmpty = true ↔ l.dir = r.dir := by
    rw [hend]
    cases trail with
    | nil => exact ⟨fun _ => rfl, fun _ => rfl⟩
    | cons e above =>
      refine iff_of_false ?_ (hpassed.current_ne ht)
      simp [endpoint]
  rw [Endpoint.isRoot, Bool.and_eq_true, hnames, Option.isNone_iff_eq_none]

end Walk

/-- The system opens a root on the path of its directory. -/
theorem hasPath_openPath (ht : t.Sound) (hopen : openPath p t = (.ok r, t)) :
    t.HasPath r.dir r.path := by
  obtain ⟨above, hpath, hleads⟩ := (located_of_openPath ht hopen).1.leads
  refine ⟨above, List.append_nil above ▸ Tree.Named.top.leads hleads, ?_⟩
  rw [hpath]
  exact decide_eq_true rfl

/-- The path of a root that is opened inside of another one is that of its directory. -/
theorem hasPath_openRoot (hr : t.HasPath r.dir r.path) (hopen : r.openRoot p t = (.ok sub, u)) :
    t.HasPath sub.dir sub.path := by
  obtain ⟨l, _, _, hpath, _, _, hbelow, _⟩ := openRoot_eq_ok hopen
  obtain ⟨above, habove, hsame⟩ := hr
  obtain ⟨habsolute, hnoParent, hnames⟩ := of_same_ofNames hsame
  refine ⟨_, habove.leads hbelow, decide_eq_true ?_⟩
  rw [hpath, Endpoint.path, components_push habsolute hnoParent, components_ofNames, hnames,
    List.reverse_append, List.reverse_reverse]

section Failing

variable {β : Type} {x : Except FileError α}

/-- The answer is not a failure, or it is one at the boundary or of the system. -/
def Expected (escape : FileError) (x : Except FileError α) : Prop :=
  ∀ e, x = .error e → e = escape ∨ ∃ errno, e = .ofErrno errno

theorem expected_ok (a : α) : Expected escape (.ok a) := nofun

theorem expected_escape : Expected escape (.error escape : Except FileError α) := by
  rintro _ ⟨⟩
  exact .inl rfl

theorem expected_ofErrno (errno : Errno) :
    Expected escape (.error (.ofErrno errno) : Except FileError α) := by
  rintro _ ⟨⟩
  exact .inr ⟨errno, rfl⟩

theorem expected_mapError (x : Except Errno α) : Expected escape (x.mapError FileError.ofErrno) := by
  cases x with
  | error errno => exact expected_ofErrno errno
  | ok a => exact expected_ok a

theorem expected_statIn (t : Tree) (dir : NodeId) (n : Name) :
    Expected escape (statIn t dir n) := by
  unfold statIn
  split
  · exact expected_ok _
  · split
    · exact expected_ok _
    · exact expected_ofErrno _

theorem Expected.bind {f : α → Except FileError β} (hx : Expected escape x)
    (hf : ∀ a, Expected escape (f a)) : Expected escape (x >>= f) := by
  cases x with
  | error e =>
    rintro _ ⟨⟩
    exact hx e rfl
  | ok a => exact hf a

/-- The induction is on the steps. -/
theorem expected_advance {jump : Option (List Step → Trail → Except FileError Endpoint)}
    (hjump : ∀ f, jump = some f → ∀ steps trail, Expected escape (f steps trail))
    (steps : List Step) (trail : Trail) :
    Expected escape (r.advance t escape followLast jump steps trail) := by
  induction steps generalizing trail with
  | nil => exact expected_ok _
  | cons step rest ih =>
    cases step with
    | up =>
      cases trail with
      | nil => exact expected_escape
      | cons e above => exact ih above
    | down n =>
      simp only [advance]
      refine (expected_statIn t _ n).bind fun found => ?_
      cases found with
      | none =>
        dsimp only
        split
        · exact expected_ok _
        · exact expected_ofErrno .noEntry
      | some s =>
        dsimp only
        split
        · cases hf : jump with
          | none => exact expected_ofErrno .loop
          | some f =>
            refine (expected_mapError _).bind fun target => ?_
            split
            · split
              · exact expected_escape
              · exact hjump f hf _ _
            · exact hjump f hf _ _
        · split
          · exact expected_ok _
          · split
            · exact expected_ofErrno .notDirectory
            · exact (expected_mapError _).bind fun i => ih _

/-- A walk fails at the boundary, or as the system would. -/
theorem expected_walk (r : Root) (t : Tree) (p : Path) (followLast : Bool) :
    Expected (.pathEscapesParent p) (r.walk t p followLast) := by
  have hwithin : ∀ links steps trail, Expected (.pathEscapesParent p)
      (r.walkWithin t (.pathEscapesParent p) followLast links steps trail) := by
    intro links
    induction links with
    | zero => exact expected_advance fun _ hf => by cases hf
    | succ links ih =>
      refine expected_advance ?_
      rintro _ ⟨⟩
      exact ih
  unfold walk
  split
  · exact expected_escape
  · exact hwithin _ _ _

end Failing

section BaseDir

/-- The system does not know which directory is the base. -/
theorem ofErrno_ne_baseDirRemove (e : Errno) : FileError.ofErrno e ≠ .baseDirRemove := by
  refine FileError.ofErrno_ne (fun i => ?_) (fun k => ?_) (fun _ _ _ => ?_) e
  · unfold FileError.ofNumber?
    split <;> simp
  · cases k <;> simp [FileError.ofKind?]
  · simp

/-- The path leads to the directory of the root, without a name. -/
def EndsOnRoot (r : Root) (t : Tree) (p : Path) : Prop :=
  ∃ l, r.walk t p false = .ok l ∧ l.name = none ∧ l.dir = r.dir

/-- Whatever comes of it, it is not that the base is to be removed. -/
def NeverBase (x : Work α) : Prop :=
  Triple (fun _ => True) x (fun _ _ => True) fun e _ => e ≠ .baseDirRemove

theorem neverBase_call (x : Call α) : NeverBase (Host.call x) :=
  Triple.mapError (Triple.always (fun _ _ => trivial) fun e _ => ofErrno_ne_baseDirRemove e)

theorem neverBase_placeOf (l : Endpoint) : NeverBase (placeOf l) :=
  Triple.mapError (Triple.always (fun _ _ => trivial) fun e _ => ofErrno_ne_baseDirRemove e)

theorem neverBase_clearDir (levels : Nat) (dir : NodeId) : NeverBase (clearDir levels dir) := by
  induction levels generalizing dir with
  | zero => exact Triple.throw fun _ _ => nofun
  | succ levels ih =>
    refine Triple.bind (neverBase_call _) fun names => Triple.forM fun n _ => ?_
    refine Triple.bind (neverBase_call _) fun s => Triple.ite (fun _ => ?_) fun _ => neverBase_call _
    exact Triple.bind (neverBase_call _) fun child =>
      Triple.bind (ih child) fun _ => neverBase_call _

/-- There is an entry to act on, or none and an error that tells of the root. -/
theorem Physical.entry_cases (h : r.Physical t followLast l) (ht : t.Sound) (onRoot : FileError) :
    (∃ n, l.name = some n ∧ l.entry onRoot = .ok (l.dir, n)) ∨
      l.name = none ∧ (l.dir = r.dir ∧ l.entry onRoot = .error onRoot ∨
        l.dir ≠ r.dir ∧ l.entry onRoot = .error .invalidInput) := by
  unfold Endpoint.entry
  cases hname : l.name with
  | some n => exact .inl ⟨n, rfl, rfl⟩
  | none =>
    refine .inr ⟨rfl, ?_⟩
    have hroot := h.isRoot_iff ht
    by_cases hdir : l.dir = r.dir
    · exact .inl ⟨hdir, congrArg Except.error (if_pos (hroot.2 ⟨hname, hdir⟩))⟩
    · exact .inr ⟨hdir, congrArg Except.error (if_neg fun heq => hdir (hroot.1 heq).2)⟩

theorem endsOnRoot_iff (hl : r.walk t p false = .ok l) :
    r.EndsOnRoot t p ↔ l.name = none ∧ l.dir = r.dir := by
  constructor
  · rintro ⟨l', hl', hends⟩
    cases hl.symm.trans hl'
    exact hends
  · exact fun hends => ⟨l, hl, hends⟩

/-- A removal is refused for the sake of the base if the path leads there, and only then. -/
theorem baseDirRemove_iff (ht : t.Sound) (hr : t.isDir r.dir = true) (p : Path)
    {f : Endpoint → NodeId × Name → Work Unit} (hf : ∀ l entry, NeverBase (f l entry)) :
    let run := (Action.query (r.walk · p false) >>= fun l =>
      Action.ofExcept (l.entry .baseDirRemove) >>= f l) t
    (run.1 = .error .baseDirRemove ↔ r.EndsOnRoot t p) ∧
      (r.EndsOnRoot t p → run = (.error .baseDirRemove, t)) := by
  intro run
  have hquery : Action.query (r.walk · p false) t = (r.walk t p false, t) := rfl
  cases hl : r.walk t p false with
  | error e =>
    rw [hl] at hquery
    have hrun : run = (.error e, t) := Action.bind_apply_of_error hquery
    have hends : ¬ r.EndsOnRoot t p := by
      rintro ⟨l, hl', _⟩
      cases hl.symm.trans hl'
    refine ⟨iff_of_false ?_ hends, fun h => absurd h hends⟩
    rw [hrun]
    rintro ⟨⟩
    obtain heq | ⟨errno, heq⟩ := expected_walk r t p false _ hl
    · cases heq
    · exact ofErrno_ne_baseDirRemove errno heq.symm
  | ok l =>
    rw [hl] at hquery
    have hrun : run = (Action.ofExcept (l.entry .baseDirRemove) >>= f l) t :=
      Action.bind_apply_of_ok hquery
    rw [endsOnRoot_iff hl, hrun]
    obtain ⟨n, hname, hentry⟩ | ⟨hname, ⟨hdir, hentry⟩ | ⟨hdir, hentry⟩⟩ :=
      (Physical.of_walk hr hl).entry_cases ht .baseDirRemove
    · have hends : ¬ (l.name = none ∧ l.dir = r.dir) := by
        rw [hname]
        exact fun h => nomatch h.1
      refine ⟨iff_of_false ?_ hends, fun h => absurd h hends⟩
      have hnever := hf l (l.dir, n) t trivial
      rw [hentry]
      show (f l (l.dir, n) t).1 ≠ _
      cases hrest : f l (l.dir, n) t with
      | mk result u =>
        rw [hrest] at hnever
        rintro rfl
        exact hnever rfl
    · rw [hentry]
      exact ⟨iff_of_true rfl ⟨hname, hdir⟩, fun _ => rfl⟩
    · rw [hentry]
      exact ⟨iff_of_false nofun fun h => hdir h.2, fun h => absurd h.2 hdir⟩

theorem remove_baseDirRemove (ht : t.Sound) (hr : t.isDir r.dir = true) (p : Path) :
    ((r.remove p t).1 = .error .baseDirRemove ↔ r.EndsOnRoot t p) ∧
      (r.EndsOnRoot t p → r.remove p t = (.error .baseDirRemove, t)) := by
  refine baseDirRemove_iff ht hr p fun l entry => ?_
  refine Triple.bind (neverBase_placeOf l) fun place => ?_
  exact Triple.bind (neverBase_call _) fun s => neverBase_call _

theorem removeAll_baseDirRemove (ht : t.Sound) (hr : t.isDir r.dir = true) (p : Path) :
    ((r.removeAll p t).1 = .error .baseDirRemove ↔ r.EndsOnRoot t p) ∧
      (r.EndsOnRoot t p → r.removeAll p t = (.error .baseDirRemove, t)) := by
  refine baseDirRemove_iff ht hr p fun l entry => ?_
  have hstat : NeverBase (Action.query (statIn · entry.1 entry.2)) := by
    refine Triple.query (fun _ _ _ _ => trivial) fun u e _ he => ?_
    have hexpected : Expected .invalidInput (statIn u entry.1 entry.2) := expected_statIn u _ _
    obtain rfl | ⟨errno, rfl⟩ := hexpected e he
    · nofun
    · exact ofErrno_ne_baseDirRemove errno
  refine Triple.bind hstat fun found => ?_
  cases found with
  | none => exact Triple.pure fun _ _ => trivial
  | some s =>
    refine Triple.bind (neverBase_placeOf l) fun place => Triple.ite (fun _ => ?_) fun _ =>
      neverBase_call _
    refine Triple.bind (Q := fun _ _ => True) (Triple.look fun _ _ => trivial) fun levels => ?_
    refine Triple.bind (neverBase_call _) fun dir => ?_
    exact Triple.bind (neverBase_clearDir levels dir) fun _ => neverBase_call _

end BaseDir

/-- A move of which one of the walks fails is not made. -/
theorem rename_of_lost (r : Root) (source target : Path) (t : Tree) :
    (∀ e, r.walk t source false = .error e → r.rename source target t = (.error e, t)) ∧
      ∀ l e, r.walk t source false = .ok l → r.walk t target false = .error e →
        r.rename source target t = (.error e, t) := by
  have hquery : ∀ p, Action.query (r.walk · p false) t = (r.walk t p false, t) := fun _ => rfl
  refine ⟨fun e he => ?_, fun l e hl he => ?_⟩
  · exact Action.bind_apply_of_error ((hquery source).trans (by rw [he]))
  · have hfirst := (hquery source).trans (by rw [hl])
    rw [rename, Action.bind_apply_of_ok hfirst]
    exact Action.bind_apply_of_error ((hquery target).trans (by rw [he]))

/-- A walk that succeeds ends at a location as it is in the tree. So a root on the path of its
directory opens others on the paths of theirs, a removal is refused for the sake of the base if its
walk ends on the root, and only then, and a move is not made if one of its walks fails. -/
theorem locations_physical (ht : t.Sound) (hr : t.isDir r.dir = true) :
    (∀ p followLast l, r.walk t p followLast = .ok l → r.Physical t followLast l) ∧
    (∀ p sub u, r.openRoot p t = (.ok sub, u) → u = t ∧ t.isDir sub.dir = true ∧
      (t.HasPath r.dir r.path → t.HasPath sub.dir sub.path ∧
        ∀ q, t.HasPath sub.dir q → sub.path.same q = true)) ∧
    (∀ p, ((r.remove p t).1 = .error .baseDirRemove ↔ r.EndsOnRoot t p) ∧
      ((r.removeAll p t).1 = .error .baseDirRemove ↔ r.EndsOnRoot t p) ∧
      (r.EndsOnRoot t p → r.remove p t = (.error .baseDirRemove, t) ∧
        r.removeAll p t = (.error .baseDirRemove, t))) ∧
    ∀ source target,
      (∀ e, r.walk t source false = .error e → r.rename source target t = (.error e, t)) ∧
      ∀ l e, r.walk t source false = .ok l → r.walk t target false = .error e →
        r.rename source target t = (.error e, t) := by
  refine ⟨fun p followLast l => .of_walk hr, fun p sub u hopen => ?_, fun p => ?_, ?_⟩
  · obtain ⟨l, _, hu, _, hisDir, _⟩ := openRoot_eq_ok hopen
    refine ⟨hu, hisDir, fun hpath => ?_⟩
    have hsub := hasPath_openRoot hpath hopen
    exact ⟨hsub, fun q hq => hsub.same hq ht hisDir⟩
  · obtain ⟨hremove, hbase⟩ := remove_baseDirRemove ht hr p
    obtain ⟨hremoveAll, hbase'⟩ := removeAll_baseDirRemove ht hr p
    exact ⟨hremove, hremoveAll, fun hends => ⟨hbase hends, hbase' hends⟩⟩
  · exact fun source target => rename_of_lost r source target t

section Scene

private def barnName : Name := ⟨[98, 97], rfl⟩

private def stallName : Name := ⟨[115, 116], rfl⟩

private def hatchName : Name := ⟨[104, 97], rfl⟩

private def barn : NodeId := Tree.top.child 0

/-- A directory with another one in it, and with a link to that one. -/
private def barnTree : Tree :=
  ((do
    Call.mkdir (.entry Tree.top barnName) 0o755
    Call.mkdir (.entry barn stallName) 0o755
    Call.symlink ⟨stallName.bytes⟩ (.entry barn hatchName) : Call Unit) .fresh).2

/-- By the link the directory is opened under its own path, and from it the way up leads to the
base. -/
theorem locations_physical_by_link :
    barnTree.Sound ∧ barnTree.isDir barn = true ∧
    let r : Root := ⟨barn, ofNames [barnName]⟩
    barnTree.HasPath r.dir r.path ∧
    (∃ sub, r.openRoot ⟨[104, 97]⟩ barnTree = (.ok sub, barnTree) ∧ sub.dir = barn.child 0 ∧
      barnTree.HasPath sub.dir sub.path ∧ sub.path.same (ofNames [barnName, stallName]) = true) ∧
    r.remove ⟨[104, 97, 47, 46, 46]⟩ barnTree = (.error .baseDirRemove, barnTree) := by
  have ht : barnTree.Sound := by
    have hkeeps : Action.Keeps Tree.Sound (do
        Call.mkdir (.entry Tree.top barnName) 0o755
        Call.mkdir (.entry barn stallName) 0o755
        Call.symlink ⟨stallName.bytes⟩ (.entry barn hatchName) : Call Unit) :=
      .bind (Call.keeps_sound_mkdir _ _) fun _ => .bind (Call.keeps_sound_mkdir _ _) fun _ =>
        Call.keeps_sound_symlink _ _
    exact hkeeps.apply Tree.sound_fresh
  have hr : barnTree.isDir barn = true := rfl
  let r : Root := ⟨barn, ofNames [barnName]⟩
  have hstall : barnTree.Named [stallName, barnName] (barn.child 0) :=
    .entry (.entry .top rfl rfl) rfl rfl
  have hbarn : openPath (ofNames [barnName]) barnTree = (.ok r, barnTree) := rfl
  have hpath : barnTree.HasPath r.dir r.path := hasPath_openPath ht hbarn
  obtain ⟨-, hopens, hbase, -⟩ := locations_physical (r := r) ht hr
  have hopen : r.openRoot ⟨[104, 97]⟩ barnTree =
      (.ok ⟨barn.child 0, r.path.push ⟨stallName.bytes⟩⟩, barnTree) := rfl
  obtain ⟨-, -, hplaced⟩ := hopens _ _ _ hopen
  obtain ⟨hsub, hsame⟩ := hplaced hpath
  have hends : r.EndsOnRoot barnTree ⟨[104, 97, 47, 46, 46]⟩ := ⟨_, rfl, rfl, rfl⟩
  exact ⟨ht, hr, hpath, ⟨_, hopen, rfl, hsub, hsame _ ⟨_, hstall, by decide⟩⟩,
    ((hbase _).2.2 hends).1⟩

end Scene

end Root

end ConfinedFs
