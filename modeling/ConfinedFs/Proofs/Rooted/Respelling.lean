import ConfinedFs.Proofs.Coupling
import ConfinedFs.Proofs.Rooted.ClearDir
import ConfinedFs.Proofs.Rooted.Retracing
import Mathlib.Data.List.Forall2

/-!
What a root does for a path and for the cleaned path. If every `..` of the path takes back a
directory, both walks end alike, so the root gives the same answers and does the same. Only the path
that is named in a refusal at the boundary is the one that was asked about.
-/

namespace ConfinedFs

open ConfinedFs.Os ConfinedFs.Path
open ConfinedFs.Action (Keeps)

variable {α β α' β' : Type}

namespace FileError

/-- The error without the path that was refused at the boundary. -/
def withoutPath : FileError → FileError
  | pathEscapesParent _ => pathEscapesParent here
  | e => e

theorem exists_or_withoutPath_eq (e : FileError) :
    (∃ q, e = .pathEscapesParent q) ∨ e.withoutPath = e := by
  cases e with
  | pathEscapesParent q => exact .inl ⟨q, rfl⟩
  | _ => exact .inr rfl

/-- Errors that are the same without their paths are the same or refusals both. -/
theorem eq_or_of_withoutPath {e e' : FileError} (h : e.withoutPath = e'.withoutPath) :
    e = e' ∨ ∃ q q', e = .pathEscapesParent q ∧ e' = .pathEscapesParent q' := by
  obtain ⟨q, rfl⟩ | he := e.exists_or_withoutPath_eq
  · obtain ⟨q', rfl⟩ | he' := e'.exists_or_withoutPath_eq
    · exact .inr ⟨q, q', rfl, rfl⟩
    · exact .inr ⟨q, here, rfl, he'.symm.trans h.symm⟩
  · obtain ⟨q', rfl⟩ | he' := e'.exists_or_withoutPath_eq
    · exact .inr ⟨here, q', he.symm.trans h, rfl⟩
    · exact .inl (he.symm.trans (h.trans he'))

end FileError

namespace Root

variable {r : Root} {t u : Tree} {p q : Path} {l : Endpoint} {trail : Trail} {followLast : Bool}
  {use : LastUse}

/-- Do both operations leave the same tree, and have they the same outcome, with related results?
The path of a refusal at the boundary does not count. -/
structure Matches (Q : α → β → Prop) (x : Work α) (y : Work β) (t : Tree) : Prop where
  trees : (x t).2 = (y t).2
  outcomes : Outcomes Q ((x t).1.mapError FileError.withoutPath)
    ((y t).1.mapError FileError.withoutPath)

namespace Matches

variable {Q : α → β → Prop} {Q' : α' → β' → Prop} {x : Work α} {y : Work β} {f : α → Work α'}
  {g : β → Work β'}

theorem refl (x : Work α) (t : Tree) : Matches Eq x x t := ⟨rfl, Outcomes.refl (fun _ => rfl) _⟩

theorem pure {a : α} {b : β} (h : Q a b) : Matches Q (Pure.pure a) (Pure.pure b) t := ⟨rfl, h⟩

theorem trans {x y z : Work α} (h : Matches Eq x y t) (h' : Matches Eq y z t) :
    Matches Eq x z t := by
  refine ⟨h.trees.trans h'.trees, ?_⟩
  rw [h.outcomes.eq]
  exact h'.outcomes

theorem of_eq {x y : Work α} (h : x t = y t) : Matches Eq x y t := by
  refine ⟨by rw [h], ?_⟩
  rw [h]
  exact Outcomes.refl (fun _ => rfl) _

/-- Only what is done from the tree matters. -/
theorem congr {x' : Work α} {y' : Work β} (h : Matches Q x' y' t) (hx : x t = x' t)
    (hy : y t = y' t) : Matches Q x y t := by
  refine ⟨?_, ?_⟩
  · rw [hx, hy]
    exact h.trees
  · rw [hx, hy]
    exact h.outcomes

/-- After a success both go on from the tree they have left. -/
theorem bind (h : Matches Q x y t)
    (hf : ∀ a b u, x t = (.ok a, u) → y t = (.ok b, u) → Q a b → Matches Q' (f a) (g b) u) :
    Matches Q' (x >>= f) (y >>= g) t := by
  obtain ⟨htrees, houtcomes⟩ := h
  cases hx : x t with
  | mk a u =>
    cases hy : y t with
    | mk b v =>
      rw [hx, hy] at htrees houtcomes
      cases htrees
      cases a <;> cases b
      case error.error e e' =>
        refine ⟨?_, ?_⟩
        · rw [Action.bind_apply_of_error hx, Action.bind_apply_of_error hy]
        · rw [Action.bind_apply_of_error hx, Action.bind_apply_of_error hy]
          exact houtcomes
      case ok.ok a b =>
        have hnext := hf a b u hx hy houtcomes
        refine ⟨?_, ?_⟩
        · rw [Action.bind_apply_of_ok hx, Action.bind_apply_of_ok hy]
          exact hnext.trees
        · rw [Action.bind_apply_of_ok hx, Action.bind_apply_of_ok hy]
          exact hnext.outcomes
      all_goals exact houtcomes.elim

/-- What follows is told of a failure. It is told the same on both sides, but for the path of a
refusal. -/
theorem outcome_bind {f : Except FileError α → Work α'} {g : Except FileError β → Work β'}
    (h : Matches Q x y t)
    (hok : ∀ a b u, x t = (.ok a, u) → Q a b → Matches Q' (f (.ok a)) (g (.ok b)) u)
    (hsame : ∀ e u, x t = (.error e, u) → Matches Q' (f (.error e)) (g (.error e)) u)
    (hrefused : ∀ q q' u, Matches Q' (f (.error (.pathEscapesParent q)))
      (g (.error (.pathEscapesParent q'))) u) :
    Matches Q' (x.outcome >>= f) (y.outcome >>= g) t := by
  obtain ⟨htrees, houtcomes⟩ := h
  cases hx : x t with
  | mk a u =>
    cases hy : y t with
    | mk b v =>
      rw [hx, hy] at htrees houtcomes
      cases htrees
      have hf : (x.outcome >>= f) t = f a u := by
        show f (x t).1 (x t).2 = f a u
        rw [hx]
      have hg : (y.outcome >>= g) t = g b u := by
        show g (y t).1 (y t).2 = g b u
        rw [hy]
      have hnext : Matches Q' (f a) (g b) u := by
        cases a <;> cases b
        case error.error e e' =>
          obtain rfl | ⟨q, q', rfl, rfl⟩ := FileError.eq_or_of_withoutPath houtcomes
          · exact hsame e u hx
          · exact hrefused q q' u
        case ok.ok a b => exact hok a b u hx houtcomes
        all_goals exact houtcomes.elim
      refine ⟨?_, ?_⟩
      · rw [hf, hg]
        exact hnext.trees
      · rw [hf, hg]
        exact hnext.outcomes

end Matches

section Walking

theorem passes_linkIn (t : Tree) (dir : NodeId) (n : Name) : Passes (linkIn t dir n) := by
  unfold linkIn
  cases (Tree.placeIn dir n).bind t.readlinkAt with
  | error e => exact passes_ofErrno e
  | ok target => exact passes_ok target

/-- What passes is left as it is. -/
theorem Passes.bind_withoutPath {x : Except FileError α} (h : Passes x)
    {f f' : α → Except FileError β} (hf : ∀ a, (f a).mapError FileError.withoutPath = f' a) :
    (x >>= f).mapError FileError.withoutPath = x >>= f' := by
  cases x with
  | ok a => exact hf a
  | error e =>
    cases e with
    | pathEscapesParent q => exact absurd rfl (h q)
    | _ => rfl

/-- Only the boundary is named in another way. -/
def NamedAlike (f f' : List Step → Trail → Except FileError Endpoint) : Prop :=
  ∀ steps trail, (f steps trail).mapError FileError.withoutPath = f' steps trail

theorem advance_withoutPath (t : Tree) (q : Path) (followLast : Bool)
    {jump jump' : Option (List Step → Trail → Except FileError Endpoint)}
    (hnone : jump = none → jump' = none)
    (hsome : ∀ f, jump = some f → ∃ f', jump' = some f' ∧ NamedAlike f f') :
    NamedAlike (r.advance t (.pathEscapesParent q) followLast jump)
      (r.advance t (.pathEscapesParent here) followLast jump') := by
  intro steps
  induction steps with
  | nil => exact fun _ => rfl
  | cons step rest ih =>
    intro trail
    cases step with
    | up =>
      cases trail with
      | nil => rfl
      | cons e above => exact ih above
    | down n =>
      simp only [advance]
      refine (passes_statIn t _ n).bind_withoutPath fun found => ?_
      cases found with
      | none =>
        dsimp only
        split <;> rfl
      | some s =>
        dsimp only
        split
        · cases hf : jump with
          | none =>
            rw [hnone hf]
            rfl
          | some f =>
            obtain ⟨f', hf', halike⟩ := hsome f hf
            rw [hf']
            refine (passes_linkIn t _ n).bind_withoutPath fun target => ?_
            split
            · cases r.path.remainder? target with
              | none => rfl
              | some rel => exact halike _ _
            · exact halike _ _
        · split
          · rfl
          · split
            · rfl
            · exact (passes_dirIn t _ n).bind_withoutPath fun i => ih _

theorem walkWithin_withoutPath (r : Root) (t : Tree) (q : Path) (followLast : Bool) (links : Nat) :
    NamedAlike (r.walkWithin t (.pathEscapesParent q) followLast links)
      (r.walkWithin t (.pathEscapesParent here) followLast links) := by
  induction links with
  | zero => exact advance_withoutPath t q followLast (fun _ => rfl) nofun
  | succ links ih =>
    refine advance_withoutPath t q followLast nofun ?_
    rintro _ ⟨⟩
    exact ⟨_, rfl, ih⟩

/-- A walk is the walk of the steps. -/
theorem walk_withoutPath (h : p.isAbsolute = false) (t : Tree) (followLast : Bool) :
    (r.walk t p followLast).mapError FileError.withoutPath =
      r.walkWithin t (.pathEscapesParent here) followLast linkLimit p.steps [] := by
  rw [walk, if_neg (Bool.eq_false_iff.1 h)]
  exact walkWithin_withoutPath r t p followLast linkLimit p.steps []

end Walking

section Arriving

theorem Arrives.path_eq (h : r.Arrives t l trail) : l.path = (r.endpoint trail none).path := by
  obtain rfl | ⟨m, i, above, rfl, rfl, _⟩ := h
  · rfl
  · simp [Endpoint.path, endpoint]

/-- At the place of a directory the system finds the directory, be it by its name or without one. -/
theorem Arrives.placeOf_bind (h : r.Arrives t l trail) {f : Place → Work α}
    (hf : ∀ place, t.occupant place = .ok (some (r.current trail)) →
      f place t = f (.directory (r.current trail)) t) :
    (placeOf l >>= f) t = (placeOf (r.endpoint trail none) >>= f) t := by
  obtain rfl | ⟨m, i, above, rfl, rfl, hopen⟩ := h
  · rfl
  · obtain ⟨hplace, hopened⟩ := Tree.of_placeIn_bind (ok_of_mapError hopen)
    have hoccupant := Tree.occupant_of_existing (Tree.existing_of_openDirAt hopened).1
    have hnamed : placeOf (r.endpoint above (some m)) t =
        (.ok (.entry (r.current above) m), t) := by
      rw [placeOf_eq, Action.ofExcept_apply, Endpoint.place]
      simp only [endpoint, hplace]
      rfl
    rw [Action.bind_apply_of_ok hnamed]
    exact hf _ hoccupant

theorem Arrives.statEndpoint_eq (h : r.Arrives t l trail) :
    statEndpoint l t = statEndpoint (r.endpoint trail none) t := by
  refine h.placeOf_bind fun place hplace => ?_
  rw [Host.ask_apply, Host.ask_apply]
  simp only [Tree.statAt, Tree.existing, hplace]
  rfl

theorem Arrives.openDir_eq (h : r.Arrives t l trail) :
    openDir l t = openDir (r.endpoint trail none) t := by
  refine h.placeOf_bind fun place hplace => ?_
  rw [Host.ask_apply, Host.ask_apply]
  simp only [Tree.openDirAt, Tree.existing, hplace]
  rfl

/-- Opens what is at a location. -/
def openEndpoint (f : OpenFlags) (l : Endpoint) : Work FileHandle := do
  if l.name.isNone then Host.call (Call.demand .search l.dir)
  let place ← placeOf l
  return ⟨some (← Host.call (Call.openAt f place false))⟩

theorem openAt_eq_of_occupant (f : OpenFlags) {place place' : Place} {i : NodeId}
    (h : t.occupant place = .ok (some i)) (h' : t.occupant place' = .ok (some i)) :
    Call.openAt f place false t = Call.openAt f place' false t := by
  have hopen : ∀ place, t.occupant place = .ok (some i) →
      Call.openAt f place false t = Call.openNode f i t := by
    intro place hplace
    have hquery : (Action.query (Tree.occupant · place) : Call _) t = (.ok (some i), t) := by
      rw [Action.query_apply, hplace]
    exact Action.bind_apply_of_ok hquery
  rw [hopen place h, hopen place' h']

/-- A directory is opened by its name as by the name `.` in itself. -/
theorem Arrives.openEndpoint_eq (h : r.Arrives t l trail) {d : Directory}
    (hd : t.searched (r.current trail) = .ok d) (f : OpenFlags) :
    openEndpoint f l t = openEndpoint f (r.endpoint trail none) t := by
  have hsearch : Host.call (Call.demand .search (r.current trail)) t = (.ok (), t) := by
    rw [Host.call, Action.mapError_apply, Call.demand, Action.query_apply,
      (Tree.searched_eq_ok_iff.1 hd).2]
    rfl
  have hhere : openEndpoint f (r.endpoint trail none) t = (do
      let place ← placeOf (r.endpoint trail none)
      return ⟨some (← Host.call (Call.openAt f place false))⟩ : Work FileHandle) t :=
    Action.bind_apply_of_ok hsearch
  rw [hhere]
  obtain hend | ⟨m, i, above, htrail, hend, hopen⟩ := id h
  · rw [hend]
    exact hhere
  · have hnamed : openEndpoint f l = (do
        let place ← placeOf l
        return ⟨some (← Host.call (Call.openAt f place false))⟩ : Work FileHandle) := by
      rw [hend]
      rfl
    rw [hnamed]
    refine h.placeOf_bind fun place hplace => Action.bind_congr_left ?_
    have hdirectory : t.occupant (.directory (r.current trail)) = .ok (some (r.current trail)) :=
      rfl
    rw [Host.call, Host.call, Action.mapError_apply, Action.mapError_apply,
      openAt_eq_of_occupant f hplace hdirectory]

/-- Does something at a location that has a name. -/
def atName (e : FileError) (f : Place → Work α) (l : Endpoint) : Work α := do
  if l.name.isNone then throw e
  let place ← placeOf l
  f place

/-- What fails at the name of a directory, fails alike where there is none. -/
theorem Arrives.atName_eq (h : r.Arrives t l trail) {e : FileError} {f : Place → Work α}
    (hf : ∀ place, t.occupant place = .ok (some (r.current trail)) → f place t = (.error e, t)) :
    atName e f l t = atName e f (r.endpoint trail none) t := by
  obtain hend | ⟨m, i, above, _, hend, _⟩ := id h
  · rw [hend]
  · have hnamed : atName e f l = (placeOf l >>= f) := by
      rw [hend]
      rfl
    rw [hnamed, h.placeOf_bind fun place hplace => (hf place hplace).trans (hf _ rfl).symm]
    exact hf (.directory (r.current trail)) rfl

end Arriving

/-- After walks with the same end everything is the same. -/
theorem matches_of_walk_eq (h : (r.walk t p followLast).mapError FileError.withoutPath =
    (r.walk t q followLast).mapError FileError.withoutPath) (f : Endpoint → Work α) :
    Matches Eq (Action.query (r.walk · p followLast) >>= f)
      (Action.query (r.walk · q followLast) >>= f) t := by
  have hquery : Matches Eq (Action.query (r.walk · p followLast))
      (Action.query (r.walk · q followLast)) t := ⟨rfl, h ▸ Outcomes.refl (fun _ => rfl) _⟩
  refine hquery.bind ?_
  rintro l _ u - - rfl
  exact .refl _ u

/-- A relative path that stays inside and whose every `..` takes back a directory. -/
structure Retraceable (r : Root) (t : Tree) (use : LastUse) (p : Path) : Prop where
  relative : p.isAbsolute = false
  stays : p.climbsOut = false
  retraces : r.Retraces t use [] p.steps

section Cleaning

variable (h : r.Retraceable t use p)

include h

theorem Retraceable.gains (hgains : t.Gains u) : r.Retraceable u use p :=
  ⟨h.relative, h.stays, h.retraces.gains hgains⟩

/-- What comes after the walk is the same, if it makes no difference between a directory and its
name. -/
theorem Retraceable.matches_walk {f : Endpoint → Work α}
    (hf : ∀ trail l d, use ≠ .changed → r.Arrives t l trail →
      t.searched (r.current trail) = .ok d → f l t = f (r.endpoint trail none) t) :
    Matches Eq (Action.query (r.walk · p use.follows) >>= f)
      (Action.query (r.walk · p.clean use.follows) >>= f) t := by
  have hclean : p.clean.isAbsolute = false := (isAbsolute_clean p).trans h.relative
  have hwalk := walk_withoutPath (r := r) h.relative t use.follows
  have hwalk' := walk_withoutPath (r := r) hclean t use.follows
  have hends := endAlike_of_retraces h.retraces (.pathEscapesParent here)
  rw [List.map_nil, List.nil_append, ← names_eq_namesAfter, ← steps_below,
    ← clean_eq_below h.relative h.stays, ← hwalk, ← hwalk'] at hends
  obtain hsame | ⟨huse, trail, l, d, hp, hq, harrives, hd⟩ := hends
  · exact matches_of_walk_eq hsame f
  · have hfound : (Action.query (r.walk · p use.follows) : Work _) t =
        (.ok (r.endpoint trail none), t) := by rw [Action.query_apply, ok_of_mapError hp]
    have hfound' : (Action.query (r.walk · p.clean use.follows) : Work _) t = (.ok l, t) := by
      rw [Action.query_apply, ok_of_mapError hq]
    apply Matches.of_eq
    rw [Action.bind_apply_of_ok hfound, Action.bind_apply_of_ok hfound', hf trail l d huse harrives
      hd]

end Cleaning

section Following

variable (h : r.Retraceable t .followed p)

include h

theorem Retraceable.stat : Matches Eq (r.stat p) (r.stat p.clean) t :=
  h.matches_walk fun _ _ _ _ harrives _ => harrives.statEndpoint_eq

theorem Retraceable.openFile (o : OpenOptions) :
    Matches Eq (r.openFile p o) (r.openFile p.clean o) t :=
  h.matches_walk (f := openEndpoint (openFlags o)) fun _ _ _ _ harrives hd =>
    harrives.openEndpoint_eq hd (openFlags o)

theorem Retraceable.readDir : Matches Eq (r.readDir p) (r.readDir p.clean) t :=
  h.matches_walk fun _ _ _ _ harrives _ => Action.bind_congr_left harrives.openDir_eq

theorem Retraceable.openRoot : Matches Eq (r.openRoot p) (r.openRoot p.clean) t := by
  refine h.matches_walk fun _ _ _ _ harrives _ => ?_
  rw [harrives.path_eq]
  exact Action.bind_congr_left harrives.openDir_eq

end Following

section Describing

variable (h : r.Retraceable t .described p)

include h

theorem Retraceable.lstat : Matches Eq (r.lstat p) (r.lstat p.clean) t :=
  h.matches_walk fun _ _ _ _ harrives _ => harrives.statEndpoint_eq

/-- A directory is no link, be it asked about by its name or without one. -/
theorem Retraceable.readlink : Matches Eq (r.readlink p) (r.readlink p.clean) t := by
  refine h.matches_walk (f := atName .invalidInput fun place => Host.ask (Tree.readlinkAt · place))
    fun trail l d _ harrives hd => harrives.atName_eq fun place hplace => ?_
  have hlink : t.link? (r.current trail) = none := by
    rw [Tree.link?, Tree.dir?_eq_some_iff.1 (Tree.searched_eq_ok_iff.1 hd).1]
  rw [Host.ask_apply]
  simp only [Tree.readlinkAt, Tree.existing, hplace, bind, Except.bind, pure, Except.pure, hlink]
  rfl

end Describing

section Changing

variable (h : r.Retraceable t .changed p)

include h

/-- Where an entry is to be changed, both walks end at the same place. -/
theorem Retraceable.matches_place (f : Endpoint → Work α) :
    Matches Eq (Action.query (r.walk · p false) >>= f)
      (Action.query (r.walk · p.clean false) >>= f) t :=
  h.matches_walk fun _ _ _ huse => absurd rfl huse

theorem Retraceable.remove : Matches Eq (r.remove p) (r.remove p.clean) t := h.matches_place _

theorem Retraceable.removeAll : Matches Eq (r.removeAll p) (r.removeAll p.clean) t :=
  h.matches_place _

theorem Retraceable.rename_source (target : Path) :
    Matches Eq (r.rename p target) (r.rename p.clean target) t := h.matches_place _

theorem Retraceable.rename_target (source : Path) :
    Matches Eq (r.rename source p) (r.rename source p.clean) t := by
  refine (Matches.refl _ t).bind ?_
  rintro a _ u hrun - rfl
  obtain ⟨_, rfl⟩ := Prod.mk.inj hrun
  exact h.matches_place _

end Changing

section Linking

/-- Does the system take a path for the target of a link? -/
def takesTarget (target : Path) : Bool := (Tree.checkPath target.bytes).isOk && !target.isEmpty

/-- What becomes of the entry where a link is to be made. If there is one, it is left alone. A
target that the system does not take is refused first. -/
def LastUse.ofTarget (target : Path) : LastUse :=
  if takesTarget target then .described else .changed

theorem symlink_of_occupant {target : Path} (htakes : takesTarget target = true) {place : Place}
    {i : NodeId} (h : t.occupant place = .ok (some i)) :
    Host.call (Call.symlink target place) t = (.error .alreadyExists, t) := by
  obtain ⟨hpath, hnonempty⟩ := Bool.and_eq_true_iff.1 htakes
  have hempty : target.isEmpty = false := by simpa using hnonempty
  have hchecked : Call.checkTarget target t = (.ok (), t) := by
    cases hcheck : Tree.checkPath target.bytes with
    | error e =>
      rw [hcheck] at hpath
      cases hpath
    | ok =>
      have hpassed : (Action.ofExcept (Tree.checkPath target.bytes) : Call _) t = (.ok (), t) := by
        rw [hcheck]
        rfl
      rw [Call.checkTarget, Action.bind_apply_of_ok hpassed, hempty]
      rfl
  have hvacancy : Call.vacancy place t = (.error .alreadyExists, t) := by
    cases place with
    | directory j => rfl
    | entry dir n =>
      have hquery : (Action.query (Tree.occupant · (.entry dir n)) : Call _) t =
          (.ok (some i), t) := by rw [Action.query_apply, h]
      exact Action.bind_apply_of_ok hquery
  have hcall : Call.symlink target place t = (.error .alreadyExists, t) := by
    rw [Call.symlink, Action.bind_apply_of_ok hchecked, Action.bind_apply_of_error hvacancy]
  rw [Host.call, Action.mapError_apply, hcall]
  rfl

theorem Retraceable.symlink {target : Path} (h : r.Retraceable t (.ofTarget target) p) :
    Matches Eq (r.symlink target p) (r.symlink target p.clean) t := by
  unfold LastUse.ofTarget at h
  split at h
  · next htakes =>
    exact h.matches_walk
      (f := atName .alreadyExists fun place => Host.call (Call.symlink target place))
      fun _ _ _ _ harrives _ => harrives.atName_eq fun _ => symlink_of_occupant htakes
  · exact h.matches_place _

end Linking

section Stops

/-- The paths that lead on from some steps, each with one more of the steps that come next. -/
def stops (before : List Step) : List Step → List Path
  | [] => []
  | step :: rest => ofSteps (before ++ [step]) :: stops (before ++ [step]) rest

theorem stops_eq_map (before steps : List Step) : stops before steps =
    (List.range steps.length).map fun i => ofSteps (before ++ steps.take (i + 1)) := by
  induction steps generalizing before with
  | nil => rfl
  | cons step rest ih =>
    rw [stops, ih, List.length_cons, List.range_succ_eq_map, List.map_cons, List.map_map]
    simp

/-- The stages of a relative path are where its steps lead to. -/
theorem stages_eq_stops (h : p.isAbsolute = false) : stages p = stops [] p.steps := by
  simp only [stages, components_eq_steps h, stops_eq_map, List.length_map, List.nil_append, ofSteps,
    List.map_take]

theorem stops_append (before steps rest : List Step) :
    stops before (steps ++ rest) = stops before steps ++ stops (before ++ steps) rest := by
  induction steps generalizing before with
  | nil => rw [List.nil_append, stops, List.nil_append, List.append_nil]
  | cons step steps ih => rw [List.cons_append, stops, stops, ih, List.cons_append]; simp

theorem exists_of_mem_stops {before steps : List Step} (h : q ∈ stops before steps) :
    ∃ first, first <+: steps ∧ q = ofSteps (before ++ first) := by
  rw [stops_eq_map] at h
  obtain ⟨i, _, rfl⟩ := List.mem_map.1 h
  exact ⟨_, List.take_prefix _ _, rfl⟩

end Stops

section Ensuring

variable {mode : UInt32}

/-- The system knows a directory in which it has been asked about a name. -/
theorem isDir_of_statIn {dir : NodeId} {n : Name} {found : Option Stat}
    (h : statIn t dir n = .ok found) : t.isDir dir = true := by
  cases hd : t.isDir dir with
  | true => rfl
  | false =>
    have hnone : t.dir? dir = none := by simpa [Tree.isDir] using hd
    have hlookup : t.lookup dir n = .error .notDirectory := by
      simp only [Tree.lookup, Tree.searched, hnone]
      rfl
    unfold statIn at h
    cases hplace : Tree.placeIn dir n with
    | error e =>
      have hname : e ≠ .noEntry := fun he => Tree.placeIn_ne_noEntry (he ▸ hplace)
      rw [hplace] at h
      simp [Except.bind, hname] at h
    | ok place =>
      rw [hplace, Tree.eq_entry_of_placeIn hplace] at h
      simp only [Except.bind, Tree.statAt, Tree.existing, Tree.occupant, hlookup] at h
      cases h

/-- Is there a directory at the path, perhaps by a link? -/
def HoldsDir (r : Root) (t : Tree) (q : Path) : Prop :=
  ∃ s, r.stat q t = (.ok s, t) ∧ s.isDir = true

/-- Directories that are there need not be made. -/
theorem ensureEach_append {first : List Path} (h : ∀ q ∈ first, r.HoldsDir t q)
    (paths : List Path) : r.ensureEach mode (first ++ paths) t = r.ensureEach mode paths t := by
  induction first with
  | nil => rfl
  | cons q first ih =>
    obtain ⟨s, hstat, hdir⟩ := h q (List.mem_cons_self ..)
    have houtcome : ((r.stat q).outcome : Work _) t = (.ok (.ok s), t) := by
      rw [Action.outcome, hstat]
    rw [List.cons_append, ensureEach, Action.bind_apply_of_ok houtcome]
    simp only [hdir, if_true]
    exact ih fun q' hq' => h q' (List.mem_cons_of_mem _ hq')

theorem Reaches.holdsDir {steps : List Step} {links : Nat}
    (h : r.Reaches t linkLimit steps [] links trail) (hdir : t.isDir (r.current trail) = true) :
    r.HoldsDir t (ofSteps steps) := by
  obtain ⟨l, hl, harrives⟩ := h.ends (.pathEscapesParent (ofSteps steps))
  obtain ⟨d, hd⟩ := Tree.isDir_iff.1 hdir
  have hwalk : r.walk t (ofSteps steps) true = .ok l := by
    rw [walk, if_neg (Bool.eq_false_iff.1 (isAbsolute_ofSteps steps)), steps_ofSteps, hl]
  have hstat : t.statAt (.directory (r.current trail)) =
      .ok (.ofReport (.ofInode (.directory d))) :=
    Tree.stat_eq_ok_iff.2 ⟨_, Tree.dir?_eq_some_iff.1 hd, rfl⟩
  have hfound : statEndpoint (r.endpoint trail none) t =
      (.ok (.ofReport (.ofInode (.directory d))), t) := statEndpoint_eq_ok_iff.2 ⟨_, rfl, hstat⟩
  exact ⟨_, stat_of_walk hwalk (harrives.statEndpoint_eq.trans hfound), rfl⟩

/-- On the way to a directory there are directories. -/
theorem EndsAtDir.holdsDir {names rest : List Name} {n : Name}
    (h : r.EndsAtDir t (names ++ n :: rest)) : r.HoldsDir t (ofSteps (names.map .down)) := by
  obtain ⟨l, _, _, hl, _⟩ := h
  have hmore : Step.down n :: rest.map .down ≠ [] := nofun
  rw [walk, if_neg (Bool.eq_false_iff.1 (isAbsolute_below _)), steps_below, List.map_append,
    List.map_cons] at hl
  obtain ⟨links, trail, hreaches⟩ := reaches_of_walkWithin hmore hl
  rw [hreaches.goesOn _ _ _ hmore] at hl
  obtain ⟨found, hstat⟩ := statIn_of_walkWithin hl
  exact hreaches.holdsDir (isDir_of_statIn hstat)

variable {before : List Name} {n : Name}

/-- On the way into a directory and out of it again there are directories only. -/
theorem EndsAtDir.holdsDir_stops (h : r.EndsAtDir t (before ++ [n])) :
    ∀ q ∈ stops [] (before.map .down ++ [.down n, .up]), r.HoldsDir t q := by
  obtain ⟨links, trail, i, hreaches, hopen⟩ := h.reaches
  obtain ⟨_, hstat, _⟩ := statIn_of_dirIn hopen
  intro q hq
  rw [stops_append, List.nil_append, List.mem_append] at hq
  rcases hq with hq | hq
  · obtain ⟨first, ⟨rest, hrest⟩, rfl⟩ := exists_of_mem_stops hq
    obtain ⟨names, more, rfl, rfl, rfl⟩ := List.map_eq_append_iff.1 hrest.symm
    rw [List.append_assoc] at h
    cases more with
    | nil => exact h.holdsDir
    | cons m more => exact h.holdsDir
  · simp only [stops, List.mem_cons, List.not_mem_nil, or_false] at hq
    rcases hq with rfl | rfl
    · exact (hreaches.into hopen).holdsDir (isDir_of_dirIn hopen).2
    · rw [List.append_assoc]
      exact (hreaches.back hopen).holdsDir (isDir_of_statIn hstat)

/-- Two paths to which all walks end alike, as long as the given holds. -/
def Interchangeable (r : Root) (P : Tree → Prop) (q q' : Path) : Prop := ∀ u, P u → ∀ followLast,
  (r.walk u q followLast).mapError FileError.withoutPath =
    (r.walk u q' followLast).mapError FileError.withoutPath

theorem Interchangeable.stat {P : Tree → Prop} {q q' : Path} (h : r.Interchangeable P q q')
    (ht : P t) : Matches Eq (r.stat q) (r.stat q') t :=
  matches_of_walk_eq (h t ht true) statEndpoint

theorem Interchangeable.mkdir {P : Tree → Prop} {q q' : Path} (h : r.Interchangeable P q q')
    (ht : P t) : Matches Eq (r.mkdir q mode) (r.mkdir q' mode) t :=
  matches_of_walk_eq (h t ht false) _

/-- The induction is on the paths. Both operations get the same answer for the first one, or are
both refused. -/
theorem matches_ensureEach {P : Tree → Prop}
    (hmkdir : ∀ place mode, Keeps P (Call.mkdir place mode)) {paths paths' : List Path} (h : List.Forall₂ (r.Interchangeable P) paths paths') (ht : P t) :
    Matches Eq (r.ensureEach mode paths) (r.ensureEach mode paths') t := by
  induction h generalizing t with
  | nil => exact .refl _ t
  | @cons q q' rest rest' hq hrest ih =>
    have hempty : rest.isEmpty = rest'.isEmpty := by cases hrest <;> rfl
    have hstat : Keeps P (r.stat q) := keeps_stat r q
    unfold ensureEach
    refine (hq.stat ht).outcome_bind ?_ (fun e u hfound => ?_) fun _ _ _ => ⟨rfl, rfl⟩
    · rintro s _ u hfound rfl
      dsimp only
      rw [hempty]
      split
      · exact ih (hstat.of_run ht hfound)
      · exact .refl _ u
    · have hu := hstat.of_run ht hfound
      cases e with
      | entityNotFound =>
        have hmade := keeps_mkdir hmkdir r q mode
        refine (hq.mkdir hu).outcome_bind ?_ (fun e v hrun => ?_) fun _ _ _ => ⟨rfl, rfl⟩
        · rintro _ _ v hrun -
          exact ih (hmade.of_run hu hrun)
        · have hv := hmade.of_run hu hrun
          cases e with
          | alreadyExists =>
            refine (hq.stat hv).bind ?_
            rintro s _ w hrun - rfl
            split
            · exact ih (hstat.of_run hv hrun)
            · exact .refl _ w
          | _ => exact .refl _ v
      | _ => exact .refl _ u

/-- What comes after a directory and the step back is where it is without them. -/
theorem EndsAtDir.interchangeable (h : r.EndsAtDir t (before ++ [n])) (rest : List Step) :
    List.Forall₂ (r.Interchangeable (Call.Gained t))
      (stops (before.map .down ++ [.down n, .up]) rest) (stops (before.map .down) rest) := by
  rw [stops_eq_map, stops_eq_map, List.forall₂_map_left_iff, List.forall₂_map_right_iff,
    List.forall₂_same]
  intro i hi u hu followLast
  have hne : rest.take (i + 1) ≠ [] := by
    intro hnil
    rcases List.take_eq_nil_iff.1 hnil with hzero | rfl
    · cases hzero
    · cases hi
  obtain ⟨links, trail, j, hreaches, hopen⟩ := (h.gains hu.1).reaches
  rw [walk_withoutPath (isAbsolute_ofSteps _), walk_withoutPath (isAbsolute_ofSteps _),
    steps_ofSteps, steps_ofSteps, List.append_assoc]
  exact (hreaches.walkWithin_back hopen _ _ _).trans (hreaches.goesOn _ _ _ hne).symm

/-- The induction is on the steps. At a step up, the directory that it leaves is there, and so are
those on the way to it; what comes after it is made in the same places. -/
theorem matches_ensureEach_of_retraces (mode : UInt32) (ht : t.Sound) {kept : List Name}
    {steps : List Step} (h : r.Retraces t use kept steps) :
    Matches Eq (r.ensureEach mode (stops [] (kept.map .down ++ steps)))
      (r.ensureEach mode (stops [] ((namesAfter kept steps).map .down))) t := by
  induction steps generalizing kept with
  | nil =>
    rw [List.append_nil]
    exact .refl _ t
  | cons step rest ih =>
    cases step with
    | down m =>
      have hrest := @ih (kept ++ [m]) h
      rwa [List.map_append, List.append_assoc] at hrest
    | up =>
      obtain ⟨hdir, _, hretraces⟩ := h
      obtain ⟨before, m, rfl⟩ := hdir.exists_concat
      have hrest := ih hretraces
      have hsteps : (before ++ [m]).map Step.down ++ .up :: rest =
          (before.map .down ++ [.down m, .up]) ++ rest := by simp
      have hthere := hdir.holdsDir_stops
      have hsome := hthere
      rw [stops_append, List.forall_mem_append] at hsome
      rw [List.dropLast_concat] at hrest
      rw [namesAfter, List.dropLast_concat, hsteps, stops_append, List.nil_append]
      refine .trans (.of_eq (ensureEach_append hthere _)) (.trans ?_ hrest)
      rw [stops_append, List.nil_append]
      exact (matches_ensureEach (Call.keeps_gained_mkdir t) (hdir.interchangeable rest)
        ⟨.refl t, ht⟩).trans (.of_eq (ensureEach_append hsome.1 _).symm)

theorem Retraceable.ensureDirs (ht : t.Sound) (h : r.Retraceable t use p) (mode : UInt32) :
    Matches Eq (r.ensureDirs p mode) (r.ensureDirs p.clean mode) t := by
  have hmatches := matches_ensureEach_of_retraces mode ht h.retraces
  have hclean : p.clean.isAbsolute = false := (isAbsolute_clean p).trans h.relative
  rw [List.map_nil, List.nil_append, ← names_eq_namesAfter, ← steps_below,
    ← clean_eq_below h.relative h.stays, ← stages_eq_stops h.relative,
    ← stages_eq_stops hclean] at hmatches
  exact hmatches

end Ensuring

section Respelled

/-- The second path is the first one, or the cleaned form of it, where that makes no difference. -/
def Respells (r : Root) (t : Tree) (use : LastUse) (p q : Path) : Prop :=
  q = p ∨ q = p.clean ∧ r.Retraceable t use p

theorem Respells.gains (h : r.Respells t use p q) (hgains : t.Gains u) :
    r.Respells u use p q :=
  h.imp id fun h => ⟨h.1, h.2.gains hgains⟩

/-- What makes no difference for a cleaned path makes none for either spelling. -/
theorem Respells.matches {f : Path → Work α} (h : r.Respells t use p q)
    (hf : r.Retraceable t use p → Matches Eq (f p) (f p.clean) t) :
    Matches Eq (f p) (f q) t := by
  obtain rfl | ⟨rfl, hp⟩ := h
  · exact .refl _ t
  · exact hf hp

end Respelled

end Root

end ConfinedFs
