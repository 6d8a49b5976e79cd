import ConfinedFs.Proofs.Os.Absence
import ConfinedFs.Proofs.Rooted.ClearDir
import ConfinedFs.Proofs.Rooted.Creation

/-!
What a walk does not find. As for the system's own lookups, a walk that ends nowhere in a
tree that has gained directories ended nowhere before. A walk that does not follow a link
in the last place ends where one that follows it does, or at that link: this is all that
can be said of the place of a link whose target is missing.
-/

namespace ConfinedFs.Root

open ConfinedFs.Os ConfinedFs.Path
open ConfinedFs.Action (Keeps Triple)

variable {r : Root} {t u : Tree} {p : Path} {l : Endpoint} {n : Name} {dir : NodeId}
  {trail : Trail} {escape : FileError} {followLast : Bool}

section Names

/-- In a directory that was there, a name is that of what it was, or of something new. -/
theorem statIn_cases (h : t.Gains u) (ht : t.Sound) (hdir : (t.node? dir).isSome) (n : Name) :
    statIn u dir n = statIn t dir n ∨ statIn t dir n = .ok none := by
  unfold statIn
  cases hplace : Tree.placeIn dir n with
  | error e => exact .inl rfl
  | ok place =>
    rw [Tree.eq_entry_of_placeIn hplace]
    simp only [Except.bind, Tree.statAt, Tree.existing, Tree.occupant]
    rcases h.lookup_cases hdir n with hsame | hnone
    · rw [hsame]
      refine .inl ?_
      cases hi : t.lookup dir n with
      | error e =>
        by_cases he : e = .noEntry
        · simp only [he, if_true, bind, Except.bind]
          rfl
        · simp only [he, if_false, bind, Except.bind]
      | ok i =>
        simp only [bind, Except.bind, pure, Except.pure, h.stat_eq (ht.node?_of_lookup hi)]
    · rw [hnone]
      exact .inr rfl

theorem statIn_eq_none (hplace : Tree.placeIn dir n = .ok (.entry dir n))
    (hlookup : t.lookup dir n = .error .noEntry) : statIn t dir n = .ok none := by
  simp only [statIn, hplace, Except.bind, Tree.statAt, Tree.existing, Tree.occupant, hlookup, bind]
  rfl

/-- Whoever has been told of an entry has found a node. -/
theorem lookup_of_statIn {s : Stat} (hs : statIn t dir n = .ok (some s)) :
    Tree.placeIn dir n = .ok (.entry dir n) ∧ ∃ i, t.lookup dir n = .ok i := by
  obtain ⟨hplace, hstat⟩ := Tree.of_placeIn_bind (statAt_of_statIn hs)
  obtain ⟨i, hi, _⟩ := Tree.statAt_eq_ok hstat
  exact ⟨hplace, i, Tree.lookup_of_existing hi⟩

variable (h : t.Gains u) (ht : t.Sound)

include h ht

theorem linkIn_eq_of_statIn {s : Stat} (hs : statIn t dir n = .ok (some s)) :
    linkIn u dir n = linkIn t dir n := by
  obtain ⟨hplace, i, hi⟩ := lookup_of_statIn hs
  simp only [linkIn, hplace, Except.bind, Tree.readlinkAt, Tree.existing, Tree.occupant, hi,
    h.lookup hi, bind, pure, Except.pure, h.link?_eq (ht.node?_of_lookup hi)]

theorem dirIn_eq_of_statIn {s : Stat} (hs : statIn t dir n = .ok (some s)) :
    dirIn u dir n = dirIn t dir n := by
  obtain ⟨hplace, i, hi⟩ := lookup_of_statIn hs
  simp only [dirIn, hplace, Except.bind, Tree.openDirAt, Tree.existing, Tree.occupant, hi,
    h.lookup hi, bind, pure, Except.pure, Tree.openDir, h.isDir_eq (ht.node?_of_lookup hi),
    h.demand_eq (ht.node?_of_lookup hi)]

end Names

theorem node?_of_dirIn {i : NodeId} (hi : dirIn t dir n = .ok i) : (t.node? i).isSome := by
  obtain ⟨_, hopen⟩ := Tree.of_placeIn_bind (ok_of_mapError hi)
  obtain ⟨d, hd⟩ := Tree.isDir_iff.1 (Tree.existing_of_openDirAt hopen).2
  exact Tree.node?_isSome_of_dir? hd

section Nowhere

/-- A walk that came to a name which is not there, be it on the way or at the end. -/
def EndsNowhere (t : Tree) (x : Except FileError Endpoint) : Prop :=
  x = .error .entityNotFound ∨
    ∃ l n, x = .ok l ∧ l.name = some n ∧ statIn t l.dir n = .ok none

theorem EndsNowhere.of_error {e : FileError} (h : EndsNowhere u (.error e)) :
    EndsNowhere t (.error e) :=
  h.imp id fun ⟨_, _, heq, _⟩ => nomatch heq

theorem EndsNowhere.statIn_eq (h : EndsNowhere t (.ok l)) (hname : l.name = some n) :
    statIn t l.dir n = .ok none := by
  obtain heq | ⟨_, _, heq, hname', hfree⟩ := h
  · cases heq
  · cases heq
    rw [hname] at hname'
    cases hname'
    exact hfree

/-- A name that is not there is the end of a walk. -/
theorem endsNowhere_of_missing {rest : List Step}
    {jump : Option (List Step → Trail → Except FileError Endpoint)}
    (h : statIn t (r.current trail) n = .ok none) :
    EndsNowhere t (r.advance t escape followLast jump (.down n :: rest) trail) := by
  simp only [advance, h, bind, Except.bind]
  split
  · exact .inr ⟨_, n, rfl, rfl, h⟩
  · exact .inl rfl

/-- After the same answer only what follows counts. -/
theorem EndsNowhere.bind {α : Type} {x : Except FileError α} {f f' : α → Except FileError Endpoint}
    (hf : ∀ a, x = .ok a → EndsNowhere u (f' a) → EndsNowhere t (f a))
    (h : EndsNowhere u (x >>= f')) : EndsNowhere t (x >>= f) := by
  cases x with
  | error e => exact of_error h
  | ok a => exact hf a rfl h

/-- Every directory of the trail is one of the tree. -/
def Known (t : Tree) (trail : Trail) : Prop := ∀ e ∈ trail, (t.node? e.2).isSome

theorem Known.current (htrail : Known t trail) (hr : (t.node? r.dir).isSome) :
    (t.node? (r.current trail)).isSome := by
  cases trail with
  | nil => exact hr
  | cons e trail => exact htrail e (List.mem_cons_self ..)

/-- A walk of the first tree that ends nowhere if the one of the second tree does. -/
def NowhereBefore (t u : Tree) (f f' : List Step → Trail → Except FileError Endpoint) : Prop :=
  ∀ steps trail, Known t trail → EndsNowhere u (f' steps trail) → EndsNowhere t (f steps trail)

theorem handOver_nowhereBefore {f f' : List Step → Trail → Except FileError Endpoint}
    (hbefore : NowhereBefore t u f f') (htrail : Known t trail) {rest : List Step} {target : Path}
    (hu : EndsNowhere u (r.handOver escape rest trail target f')) :
    EndsNowhere t (r.handOver escape rest trail target f) := by
  unfold handOver at hu ⊢
  split
  · next habsolute =>
    rw [if_pos habsolute] at hu
    cases hrel : r.path.remainder? target with
    | none =>
      rw [hrel] at hu
      exact hu.of_error
    | some rel =>
      rw [hrel] at hu
      exact hbefore _ _ (fun _ he => nomatch he) hu
  · next hrelative =>
    rw [if_neg hrelative] at hu
    exact hbefore _ _ htrail hu

/-- The induction is on the steps. As long as both trees say the same about a name, the
walks go the same way; where they do not, the first one has come to its end. -/
theorem advance_nowhereBefore (h : t.Gains u) (ht : t.Sound) (hr : (t.node? r.dir).isSome)
    {jump jump' : Option (List Step → Trail → Except FileError Endpoint)}
    (hnone : jump = none → jump' = none)
    (hsome : ∀ f, jump = some f → ∃ f', jump' = some f' ∧ NowhereBefore t u f f') :
    NowhereBefore t u (r.advance t escape followLast jump) (r.advance u escape followLast jump') := by
  intro steps
  induction steps with
  | nil =>
    rintro trail _ (hu | ⟨l, n, hu, hname, _⟩)
    · cases hu
    · cases hu
      cases hname
  | cons step rest ih =>
    intro trail htrail hu
    cases step with
    | up =>
      cases trail with
      | nil => exact hu.of_error
      | cons e above => exact ih above (fun e' he' => htrail e' (List.mem_cons_of_mem _ he')) hu
    | down n =>
      by_cases hmissing : statIn t (r.current trail) n = .ok none
      · exact endsNowhere_of_missing hmissing
      have hsame := (statIn_cases h ht (htrail.current hr) n).resolve_right hmissing
      simp only [advance, hsame] at hu ⊢
      refine hu.bind fun found hstat hu => ?_
      cases found with
      | none => exact absurd hstat hmissing
      | some s =>
        rw [linkIn_eq_of_statIn h ht hstat, dirIn_eq_of_statIn h ht hstat] at hu
        dsimp only at hu ⊢
        split at hu
        · next hfollow =>
          rw [if_pos hfollow]
          cases hf : jump with
          | none =>
            rw [hnone hf] at hu
            exact hu.of_error
          | some f =>
            obtain ⟨f', hf', hbefore⟩ := hsome f hf
            rw [hf'] at hu
            exact hu.bind fun target _ hu => handOver_nowhereBefore hbefore htrail hu
        · next hkeep =>
          rw [if_neg hkeep]
          split at hu
          · have hfree : statIn u (r.current trail) n = .ok none := hu.statIn_eq rfl
            rw [hsame, hstat] at hfree
            cases hfree
          · next hmore =>
            rw [if_neg hmore]
            split at hu
            · next hfile =>
              rw [if_pos hfile]
              exact hu.of_error
            · next hdir =>
              rw [if_neg hdir]
              refine hu.bind fun i hopen hu => ih ((n, i) :: trail) ?_ hu
              intro e he
              rcases List.mem_cons.1 he with rfl | he
              · exact node?_of_dirIn hopen
              · exact htrail e he

theorem walkWithin_nowhereBefore (h : t.Gains u) (ht : t.Sound) (hr : (t.node? r.dir).isSome)
    (links : Nat) : NowhereBefore t u (r.walkWithin t escape followLast links)
      (r.walkWithin u escape followLast links) := by
  induction links with
  | zero => exact advance_nowhereBefore h ht hr (fun _ => rfl) fun f hf => nomatch hf
  | succ links ih =>
    refine advance_nowhereBefore h ht hr (fun hf => nomatch hf) ?_
    intro f hf
    cases hf
    exact ⟨_, rfl, ih⟩

/-- A walk that ends nowhere in the larger tree ended nowhere in the smaller one. -/
theorem walk_endsNowhere (h : t.Gains u) (ht : t.Sound) (hr : (t.node? r.dir).isSome)
    (hu : EndsNowhere u (r.walk u p followLast)) : EndsNowhere t (r.walk t p followLast) := by
  unfold walk at hu ⊢
  split at hu
  · next habsolute =>
    rw [if_pos habsolute]
    exact hu.of_error
  · next hrelative =>
    rw [if_neg hrelative]
    exact walkWithin_nowhereBefore h ht hr linkLimit _ [] (fun _ he => nomatch he) hu

end Nowhere

section Keeping

/-- Does the walk end at a link? -/
def EndsAtLink (t : Tree) (x : Except FileError Endpoint) : Prop :=
  ∃ l n s, x = .ok l ∧ l.name = some n ∧ statIn t l.dir n = .ok (some s) ∧ s.isSymlink = true

/-- The first walk ends at a link, or as the second one does. -/
def KeptOr (t : Tree) (f f' : List Step → Trail → Except FileError Endpoint) : Prop :=
  ∀ steps trail, f steps trail = f' steps trail ∨ EndsAtLink t (f steps trail)

theorem handOver_keptOr {f f' : List Step → Trail → Except FileError Endpoint}
    (hkept : KeptOr t f f') (rest : List Step) (target : Path) :
    r.handOver escape rest trail target f = r.handOver escape rest trail target f' ∨
      EndsAtLink t (r.handOver escape rest trail target f) := by
  unfold handOver
  split
  · cases r.path.remainder? target with
    | none => exact .inl rfl
    | some rel => exact hkept _ []
  · exact hkept _ trail

/-- The walks only differ at a link that is in the last place. -/
theorem advance_keptOr {jump jump' : Option (List Step → Trail → Except FileError Endpoint)}
    (hnone : jump = none → jump' = none)
    (hsome : ∀ f, jump = some f → ∃ f', jump' = some f' ∧ KeptOr t f f') :
    KeptOr t (r.advance t escape false jump) (r.advance t escape true jump') := by
  intro steps
  induction steps with
  | nil => exact fun _ => .inl rfl
  | cons step rest ih =>
    intro trail
    cases step with
    | up =>
      cases trail with
      | nil => exact .inl rfl
      | cons e above => exact ih above
    | down n =>
      simp only [advance]
      cases hstat : statIn t (r.current trail) n with
      | error e => exact .inl rfl
      | ok found =>
        simp only [bind, Except.bind]
        cases found with
        | none => exact .inl rfl
        | some s =>
          cases hlink : s.isSymlink with
          | false =>
            simp only [hlink, Bool.false_and, Bool.false_eq_true, if_false]
            split
            · exact .inl rfl
            · split
              · exact .inl rfl
              · cases dirIn t (r.current trail) n with
                | error e => exact .inl rfl
                | ok i => exact ih ((n, i) :: trail)
          | true =>
            cases rest with
            | nil =>
              refine .inr ⟨r.endpoint trail (some n), n, s, ?_, rfl, hstat, hlink⟩
              simp
            | cons next rest =>
              simp only [hlink, List.isEmpty_cons, Bool.not_false, Bool.or_true, Bool.and_true,
                if_true]
              cases hf : jump with
              | none =>
                rw [hnone hf]
                exact .inl rfl
              | some f =>
                obtain ⟨f', hf', hkept⟩ := hsome f hf
                rw [hf']
                cases linkIn t (r.current trail) n with
                | error e => exact .inl rfl
                | ok target => exact handOver_keptOr hkept (next :: rest) target

theorem walkWithin_keptOr (links : Nat) :
    KeptOr t (r.walkWithin t escape false links) (r.walkWithin t escape true links) := by
  induction links with
  | zero => exact advance_keptOr (fun _ => rfl) fun f hf => nomatch hf
  | succ links ih =>
    refine advance_keptOr (fun hf => nomatch hf) ?_
    intro f hf
    cases hf
    exact ⟨_, rfl, ih⟩

theorem walk_keptOr (r : Root) (t : Tree) (p : Path) :
    r.walk t p false = r.walk t p true ∨ EndsAtLink t (r.walk t p false) := by
  unfold walk
  split
  · exact .inl rfl
  · exact walkWithin_keptOr linkLimit _ _

end Keeping

section Unknown

/-- Nobody is told anything about the names in a directory that the tree does not have. -/
theorem statIn_of_unknown (hdir : t.node? dir = none) (n : Name) :
    ∃ e, statIn t dir n = .error e := by
  have hlookup : t.lookup dir n = .error .notDirectory := by
    have hnone : t.dir? dir = none := by simp [Tree.dir?, hdir]
    simp only [Tree.lookup, Tree.searched, hnone]
    rfl
  unfold statIn
  cases hplace : Tree.placeIn dir n with
  | error e =>
    have hname : e ≠ .noEntry := fun he => Tree.placeIn_ne_noEntry (he ▸ hplace)
    exact ⟨_, if_neg hname⟩
  | ok place =>
    rw [Tree.eq_entry_of_placeIn hplace]
    simp only [Except.bind, Tree.statAt, Tree.existing, Tree.occupant, hlookup]
    exact ⟨_, rfl⟩

/-- From there no path leads to a name. -/
theorem name_of_walk (hr : t.node? r.dir = none) (hl : r.walk t p followLast = .ok l) :
    l.name = none := by
  have hadvance : ∀ {escape jump steps}, r.advance t escape followLast jump steps [] = .ok l →
      l.name = none := by
    intro escape jump steps hl
    cases steps with
    | nil =>
      cases hl
      rfl
    | cons step rest =>
      cases step with
      | up => cases hl
      | down n =>
        obtain ⟨e, he⟩ := statIn_of_unknown hr n
        simp only [advance, current, he] at hl
        cases hl
  unfold walk at hl
  split at hl
  · cases hl
  · unfold linkLimit walkWithin at hl
    exact hadvance hl

theorem keeps_mkdir_of_unknown (hr : t.node? r.dir = none) (p : Path) (mode : UInt32) :
    Keeps (· = t) (r.mkdir p mode) := by
  refine Triple.query_bind (fun l hl => ?_) fun _ _ => rfl
  refine Triple.guarded_fixed fun hsome => ?_
  rw [name_of_walk hr hl] at hsome
  exact absurd rfl hsome

end Unknown

section Told

/-- What is said about a location is said about its place. -/
theorem statEndpoint_eq (l : Endpoint) (t : Tree) : statEndpoint l t =
    ((l.place.bind t.statAt).mapError FileError.ofErrno, t) := by
  have hplace : placeOf l t = (l.place.mapError FileError.ofErrno, t) := by
    unfold placeOf
    cases l.place <;> rfl
  unfold statEndpoint
  cases hfound : l.place with
  | error e =>
    rw [hfound] at hplace
    rw [Action.bind_apply_of_error hplace]
    rfl
  | ok place =>
    rw [hfound] at hplace
    rw [Action.bind_apply_of_ok hplace, Host.ask_apply]
    rfl

/-- What is said about a name in a directory. -/
theorem statEndpoint_apply (hname : l.name = some n) (t : Tree) : statEndpoint l t =
    (((Tree.placeIn l.dir n).bind t.statAt).mapError FileError.ofErrno, t) := by
  rw [statEndpoint_eq, Endpoint.place, hname]

theorem statEndpoint_eq_ok_iff {s : Stat} : statEndpoint l t = (.ok s, t) ↔
    ∃ place, l.place = .ok place ∧ t.statAt place = .ok s := by
  rw [statEndpoint_eq]
  constructor
  · intro h
    exact exists_of_bind_eq_ok (ok_of_mapError (Prod.mk.inj h).1)
  · rintro ⟨place, hplace, hstat⟩
    rw [hplace, Except.bind, hstat]
    rfl

theorem stat_eq_ok {s : Stat} (h : r.stat p t = (.ok s, t)) :
    ∃ l, r.walk t p true = .ok l ∧ statEndpoint l t = (.ok s, t) := by
  obtain ⟨l, u, hquery, hstat⟩ := Action.exists_of_bind h
  rw [Action.query_apply] at hquery
  obtain ⟨hl, rfl⟩ := Prod.mk.inj hquery
  exact ⟨l, hl, hstat⟩

theorem stat_of_walk {s : Stat} (hl : r.walk t p true = .ok l)
    (hstat : statEndpoint l t = (.ok s, t)) : r.stat p t = (.ok s, t) := by
  have hquery : (Action.query (r.walk · p true) : Work _) t = (.ok l, t) := by
    rw [Action.query_apply, hl]
  rw [Root.stat, Action.bind_apply_of_ok hquery, hstat]

/-- Nothing is said about a place to which no path leads. -/
theorem stat_of_endsNowhere (h : EndsNowhere t (r.walk t p followLast)) :
    (Action.query (r.walk · p followLast) >>= statEndpoint : Work Stat) t =
      (.error .entityNotFound, t) := by
  obtain hwalk | ⟨l, n, hwalk, hname, hfree⟩ := h
  · exact Action.bind_apply_of_error (by rw [Action.query_apply, hwalk])
  · have hmissing : (Tree.placeIn l.dir n).bind t.statAt = .error .noEntry := by
      unfold statIn at hfree
      split at hfree
      · cases hfree
      · next e he =>
        split at hfree
        · next heq => rw [he, heq]
        · cases hfree
    rw [Action.bind_apply_of_ok (by rw [Action.query_apply, hwalk]), statEndpoint_apply hname,
      hmissing]
    rfl

theorem lstat_of_endsAtLink (h : EndsAtLink t (r.walk t p false)) :
    ∃ s, r.lstat p t = (.ok s, t) ∧ s.isSymlink = true := by
  obtain ⟨l, n, s, hwalk, hname, hstat, hlink⟩ := h
  refine ⟨s, ?_, hlink⟩
  unfold lstat
  rw [Action.bind_apply_of_ok (by rw [Action.query_apply, hwalk]), statEndpoint_apply hname,
    statAt_of_statIn hstat]
  rfl

end Told

section Opening

/-- A root creates a file that has to be new only where its walk ends nowhere. -/
theorem triple_openFile_exclusive {o : OpenOptions} (hnew : o.createNew = true) (r : Root)
    (p : Path) : Triple (· = t) (r.openFile p o)
      (fun _ _ => EndsNowhere t (r.walk t p true)) fun _ _ => True := by
  have hcreate : (openFlags o).create = true := by simp [openFlags, OpenOptions.creates, hnew]
  unfold openFile
  refine Triple.query_bind (fun l hl => ?_) fun _ _ => trivial
  have hopen : Triple (· = t) (do
      let place ← placeOf l
      return ⟨some (← Host.call (Call.openAt (openFlags o) place false))⟩ : Work FileHandle)
      (fun _ _ => EndsNowhere t (r.walk t p true)) fun _ _ => True := by
    unfold placeOf
    cases hplace : l.place with
    | error e => exact Triple.bind (Q := fun _ _ => False) (fun _ _ => trivial) fun _ _ hs => hs.elim
    | ok place =>
      refine Triple.bind_of_run (a := place) rfl ?_
      refine Triple.bind (Triple.mapError ?_) fun _ => Triple.pure fun _ hs => hs
      refine (Call.triple_openAt_exclusive hcreate hnew place false).weaken (fun _ hs => hs) ?_
        fun _ _ hs => hs
      rintro _ _ ⟨dir, n, rfl, hlookup⟩
      cases hname : l.name with
      | none =>
        simp only [Endpoint.place, hname] at hplace
        cases hplace
      | some m =>
        simp only [Endpoint.place, hname] at hplace
        cases Tree.eq_entry_of_placeIn hplace
        exact .inr ⟨l, n, hl, hname, statIn_eq_none hplace hlookup⟩
  refine Keeps.whenThen ?_ (fun _ _ _ => trivial) hopen
  exact .mapError (Call.keeps_demand .search l.dir)

end Opening

end ConfinedFs.Root
