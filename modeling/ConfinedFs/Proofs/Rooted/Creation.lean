import ConfinedFs.Proofs.Os.Growth
import ConfinedFs.Proofs.Path.Steps
import ConfinedFs.Proofs.Rooted.ConfinedWalk
import ConfinedFs.Rooted.Root

/-!
Creating the missing directories on the way to a path, one after the other. A walk that
has come to an end in a tree can be resumed in the tree with a directory made there. If
the rest of the path only goes down, it stays in what is new, and finds no links: so once
a directory has been made, the boundary is out of reach.
-/

namespace ConfinedFs

open ConfinedFs.Os ConfinedFs.Path
open ConfinedFs.Action (Keeps Triple)

variable {α β : Type} {P : Tree → Prop}

/-- An error that neither a number nor a kind stands for is none of the system. -/
theorem FileError.ofErrno_ne {error : FileError} (hnumber : ∀ i, ofNumber? i ≠ some error)
    (hkind : ∀ k, ofKind? k ≠ some error) (hio : ∀ k n m, error ≠ .io k n m) (e : Errno) :
    ofErrno e ≠ error := by
  unfold ofErrno
  split
  · next found hfound =>
    rintro rfl
    exact hnumber _ hfound
  · cases hfound : ofKind? e.kind with
    | none => exact fun heq => hio _ _ _ heq.symm
    | some found =>
      rintro rfl
      exact hkind _ hfound

/-- The system does not know of the boundary. -/
theorem FileError.ofErrno_ne_pathEscapesParent (e : Errno) (p : Path) :
    ofErrno e ≠ .pathEscapesParent p := by
  refine ofErrno_ne (fun i => ?_) (fun k => ?_) (fun _ _ _ => ?_) e
  · unfold ofNumber?
    split <;> simp
  · cases k <;> simp [ofKind?]
  · simp

namespace Root

variable {r : Root} {t u v : Tree} {p q : Path} {l : Endpoint} {n : Name} {dir : NodeId}
  {trail : Trail} {escape escape' : FileError} {followLast : Bool}

/-- The answer is no refusal at the boundary. -/
def Passes (x : Except FileError α) : Prop := ∀ q, x ≠ .error (.pathEscapesParent q)

theorem passes_ok (a : α) : Passes (.ok a) := fun _ => nofun

theorem passes_ofErrno (e : Errno) : Passes (.error (.ofErrno e) : Except FileError α) :=
  fun q heq => FileError.ofErrno_ne_pathEscapesParent e q (Except.error.inj heq)

theorem Passes.bind {x : Except FileError α} {f : α → Except FileError β} (hx : Passes x)
    (hf : ∀ a, x = .ok a → Passes (f a)) : Passes (x >>= f) := by
  cases x with
  | error e => exact fun q heq => hx q (congrArg Except.error (Except.error.inj heq))
  | ok a => exact hf a rfl

theorem passes_statIn (t : Tree) (dir : NodeId) (n : Name) : Passes (statIn t dir n) := by
  unfold statIn
  split
  · exact passes_ok _
  · split
    · exact passes_ok _
    · exact passes_ofErrno _

section Gains

theorem bind_placeIn_gains {f : Tree → Place → Except Errno α} {a : α}
    (hf : ∀ place, f t place = .ok a → f u place = .ok a)
    (h : (Tree.placeIn dir n).bind (f t) = .ok a) : (Tree.placeIn dir n).bind (f u) = .ok a := by
  obtain ⟨hplace, hfound⟩ := Tree.of_placeIn_bind h
  rw [hplace]
  exact hf _ hfound

theorem statAt_of_statIn {s : Stat} (h : statIn t dir n = .ok (some s)) :
    (Tree.placeIn dir n).bind t.statAt = .ok s := by
  unfold statIn at h
  split at h
  · next hs =>
    cases h
    exact hs
  · split at h <;> cases h

theorem statIn_gains (hgains : t.Gains u) {s : Stat} (h : statIn t dir n = .ok (some s)) :
    statIn u dir n = .ok (some s) := by
  rw [statIn, bind_placeIn_gains (fun _ => hgains.statAt) (statAt_of_statIn h)]

theorem linkIn_gains (hgains : t.Gains u) {target : Path} (h : linkIn t dir n = .ok target) :
    linkIn u dir n = .ok target := by
  rw [linkIn, bind_placeIn_gains (fun _ => hgains.readlinkAt) (ok_of_mapError h)]
  rfl

theorem dirIn_gains (hgains : t.Gains u) {i : NodeId} (h : dirIn t dir n = .ok i) :
    dirIn u dir n = .ok i := by
  rw [dirIn, bind_placeIn_gains (fun _ => hgains.openDirAt) (ok_of_mapError h)]
  rfl

end Gains

section Going

variable {jump : Option (List Step → Trail → Except FileError Endpoint)} {rest : List Step}

/-- At a link that is to be followed, a walk is handed over. -/
theorem advance_of_link {s : Stat} {f : List Step → Trail → Except FileError Endpoint}
    {target : Path} (hstat : statIn t (r.current trail) n = .ok (some s))
    (hfollow : (s.isSymlink && (followLast || !rest.isEmpty)) = true) (hf : jump = some f)
    (htarget : linkIn t (r.current trail) n = .ok target) :
    r.advance t escape followLast jump (.down n :: rest) trail =
      r.handOver escape rest trail target f := by
  simp only [advance, hstat, hfollow, hf, htarget, bind, Except.bind, if_true]
  rfl

/-- At a directory, a walk goes on inside of it. -/
theorem advance_of_dir {s : Stat} {i : NodeId}
    (hstat : statIn t (r.current trail) n = .ok (some s))
    (hfollow : (s.isSymlink && (followLast || !rest.isEmpty)) = false) (hne : rest ≠ [])
    (hdir : s.isDir = true) (hopen : dirIn t (r.current trail) n = .ok i) :
    r.advance t escape followLast jump (.down n :: rest) trail =
      r.advance t escape followLast jump rest ((n, i) :: trail) := by
  have hmore : rest.isEmpty = false := List.isEmpty_eq_false_iff.2 hne
  rw [hmore] at hfollow
  simp only [advance, hstat, hfollow, hmore, hdir, hopen, bind, Except.bind, Bool.not_true,
    Bool.false_eq_true, if_false]

/-- A walk that makes a step down and comes to an end either ends there, and not at a link that
is to be followed, or has been handed over at a link, or has gone on in a directory. -/
theorem advance_down_cases
    (hl : r.advance t escape followLast jump (.down n :: rest) trail = .ok l) :
    (rest = [] ∧ l = r.endpoint trail (some n) ∧ ∀ s,
      statIn t (r.current trail) n = .ok (some s) → (s.isSymlink && followLast) = false) ∨
    (∃ s f target, statIn t (r.current trail) n = .ok (some s) ∧
      (s.isSymlink && (followLast || !rest.isEmpty)) = true ∧ jump = some f ∧
      linkIn t (r.current trail) n = .ok target ∧
      r.handOver escape rest trail target f = .ok l) ∨
    ∃ s i, statIn t (r.current trail) n = .ok (some s) ∧
      (s.isSymlink && (followLast || !rest.isEmpty)) = false ∧ rest ≠ [] ∧ s.isDir = true ∧
      dirIn t (r.current trail) n = .ok i ∧
      r.advance t escape followLast jump rest ((n, i) :: trail) = .ok l := by
  simp only [advance] at hl
  cases hstat : statIn t (r.current trail) n with
  | error e =>
    rw [hstat] at hl
    cases hl
  | ok found =>
    simp only [hstat, bind, Except.bind] at hl
    cases found with
    | none =>
      dsimp only at hl
      split at hl
      · next hempty =>
        cases hl
        refine .inl ⟨List.isEmpty_iff.1 hempty, rfl, ?_⟩
        intro s hs
        cases hs
      · cases hl
    | some s =>
      dsimp only at hl
      split at hl
      · next hfollow =>
        cases hf : jump with
        | none =>
          rw [hf] at hl
          cases hl
        | some f =>
          rw [hf] at hl
          cases htarget : linkIn t (r.current trail) n with
          | error e =>
            rw [htarget] at hl
            cases hl
          | ok target =>
            rw [htarget] at hl
            exact .inr (.inl ⟨s, f, target, rfl, hfollow, rfl, rfl, hl⟩)
      · next hfollow =>
        split at hl
        · next hempty =>
          cases hl
          refine .inl ⟨List.isEmpty_iff.1 hempty, rfl, ?_⟩
          intro s' hs'
          cases hs'
          simpa [hempty] using hfollow
        · next hmore =>
          split at hl
          · cases hl
          · next hdir =>
            cases hopen : dirIn t (r.current trail) n with
            | error e =>
              rw [hopen] at hl
              cases hl
            | ok i =>
              rw [hopen] at hl
              exact .inr (.inr ⟨s, i, rfl, by simpa using hfollow, by simpa using hmore,
                by simpa using hdir, rfl, hl⟩)

end Going

section Resuming

/-- A walk that comes to the name where another one has ended, with more steps to make
from there on. -/
def Resumes (r : Root) (u : Tree) (escape : FileError) (followLast : Bool) (l : Endpoint)
    (n : Name) (rest : List Step) (x : Except FileError Endpoint) : Prop :=
  ∃ trail jump, r.current trail = l.dir ∧
    x = r.advance u escape followLast jump (.down n :: rest) trail

/-- A walk of the first tree that ends at a name, and one of the second tree that has
more steps to make. -/
def Follows (r : Root) (u : Tree) (escape : FileError) (followLast : Bool)
    (f f' : List Step → Trail → Except FileError Endpoint) : Prop :=
  ∀ steps trail l n, f steps trail = .ok l → l.name = some n → ∀ rest,
    r.Resumes u escape followLast l n rest (f' (steps ++ rest) trail)

theorem handOver_resumes {f f' : List Step → Trail → Except FileError Endpoint}
    (hfollows : r.Follows u escape' followLast f f') {steps : List Step} {target : Path}
    (hl : r.handOver escape steps trail target f = .ok l) (hname : l.name = some n)
    (rest : List Step) : r.Resumes u escape' followLast l n rest
      (r.handOver escape' (steps ++ rest) trail target f') := by
  unfold handOver at hl ⊢
  split at hl
  · next habsolute =>
    rw [if_pos habsolute]
    cases hrel : r.path.remainder? target with
    | none =>
      rw [hrel] at hl
      cases hl
    | some rel =>
      rw [hrel] at hl
      have hresumes := hfollows _ _ l n hl hname rest
      rwa [List.append_assoc] at hresumes
  · next hrelative =>
    rw [if_neg hrelative]
    have hresumes := hfollows _ _ l n hl hname rest
    rwa [List.append_assoc] at hresumes

/-- The induction is on the steps of the first walk. All that it has been told on the way
is told again, and it is at the name in question when it makes its last step. -/
theorem advance_follows (h : t.Gains u)
    {jump jump' : Option (List Step → Trail → Except FileError Endpoint)}
    (hjump : ∀ f, jump = some f → ∃ f', jump' = some f' ∧
      r.Follows u escape' followLast f f') :
    r.Follows u escape' followLast (r.advance t escape false jump)
      (r.advance u escape' followLast jump') := by
  intro steps
  induction steps with
  | nil =>
    rintro trail _ n hl hname
    cases hl
    cases hname
  | cons step steps ih =>
    intro trail l n hl hname rest
    cases step with
    | up =>
      cases trail with
      | nil => cases hl
      | cons e above => exact ih above l n hl hname rest
    | down m =>
      obtain ⟨rfl, rfl, _⟩ | ⟨s, f, target, hstat, hfollow, hf, htarget, hover⟩ |
        ⟨s, i, hstat, hfollow, hne, hdir, hopen, hrun⟩ := advance_down_cases hl
      · cases hname
        exact ⟨trail, jump', rfl, rfl⟩
      · obtain ⟨f', hf', hfollows⟩ := hjump f hf
        obtain ⟨hlink, hne⟩ : s.isSymlink = true ∧ steps ≠ [] := by simpa using hfollow
        rw [List.cons_append, advance_of_link (statIn_gains h hstat) (by simp [hlink, hne]) hf'
          (linkIn_gains h htarget)]
        exact handOver_resumes hfollows hover hname rest
      · have hlink : s.isSymlink = false := by simpa [hne] using hfollow
        rw [List.cons_append, advance_of_dir (statIn_gains h hstat) (by simp [hlink])
          (List.append_ne_nil_of_left_ne_nil hne rest) hdir (dirIn_gains h hopen)]
        exact ih ((m, i) :: trail) l n hrun hname rest

theorem walkWithin_follows (h : t.Gains u) (r : Root) (escape escape' : FileError)
    (followLast : Bool) (links : Nat) :
    r.Follows u escape' followLast (r.walkWithin t escape false links)
      (r.walkWithin u escape' followLast links) := by
  induction links with
  | zero => exact advance_follows h nofun
  | succ links ih =>
    refine advance_follows h ?_
    intro f hf
    cases hf
    exact ⟨_, rfl, ih⟩

end Resuming

section Settling

/-- What stands under a new name is a directory. -/
theorem stat_of_statIn (h : t.Gains u) (hnew : ∀ j, u.lookup dir n = .ok j → t.node? j = none)
    {s : Stat} (hs : statIn u dir n = .ok (some s)) : s.isSymlink = false ∧ s.isDir = true := by
  obtain ⟨_, hstat⟩ := Tree.of_placeIn_bind (statAt_of_statIn hs)
  obtain ⟨j, hj, hjs⟩ := Tree.statAt_eq_ok hstat
  have hnone := hnew j (Tree.lookup_of_existing hj)
  obtain ⟨node, hnode, rfl⟩ := Tree.stat_eq_ok_iff.1 hjs
  obtain ⟨d, rfl, _⟩ := h.new hnone hnode
  exact ⟨rfl, rfl⟩

/-- What is opened under a new name is new. -/
theorem new_of_dirIn (hnew : ∀ j, u.lookup dir n = .ok j → t.node? j = none) {i : NodeId}
    (hi : dirIn u dir n = .ok i) : t.node? i = none := by
  obtain ⟨_, hopen⟩ := Tree.of_placeIn_bind (ok_of_mapError hi)
  exact hnew i (Tree.lookup_of_existing (Tree.existing_of_openDirAt hopen).1)

theorem passes_dirIn (t : Tree) (dir : NodeId) (n : Name) : Passes (dirIn t dir n) := by
  unfold dirIn
  cases (Tree.placeIn dir n).bind t.openDirAt with
  | error e => exact passes_ofErrno e
  | ok i => exact passes_ok i

/-- Under a new name there are no links to follow. -/
theorem advance_new (h : t.Gains u)
    {jump : Option (List Step → Trail → Except FileError Endpoint)} {rest : List Step}
    (hnew : ∀ j, u.lookup (r.current trail) n = .ok j → t.node? j = none)
    (hrest : ∀ i, t.node? i = none → rest ≠ [] →
      Passes (r.advance u escape followLast jump rest ((n, i) :: trail))) :
    Passes (r.advance u escape followLast jump (.down n :: rest) trail) := by
  simp only [advance]
  refine .bind (passes_statIn u _ n) fun found hstat => ?_
  cases found with
  | none =>
    dsimp only
    split
    · exact passes_ok _
    · rintro q ⟨⟩
  | some s =>
    obtain ⟨hlink, hdir⟩ := stat_of_statIn h hnew hstat
    simp only [hlink, hdir, Bool.false_and, Bool.not_true, Bool.false_eq_true, if_false]
    split
    · exact passes_ok _
    · next hne =>
      refine .bind (passes_dirIn u _ n) fun i hi => hrest i (new_of_dirIn hnew hi) ?_
      rintro rfl
      exact hne rfl

/-- From a new name on, a walk that only goes down stays in what is new. The induction is
on the names that come after it. -/
theorem advance_passes (h : t.Gains u)
    (jump : Option (List Step → Trail → Except FileError Endpoint)) (names : List Name)
    (hnew : ∀ j, u.lookup (r.current trail) n = .ok j → t.node? j = none) :
    Passes (r.advance u escape followLast jump (.down n :: names.map .down) trail) := by
  induction names generalizing n trail with
  | nil => exact advance_new h hnew fun _ _ hne => absurd rfl hne
  | cons m names ih =>
    refine advance_new h hnew fun i hi _ => ih fun j hj => ?_
    exact h.node?_of_lookup hi hj

end Settling

section Asking

theorem keeps_ask (f : Tree → Except Errno α) : Keeps P (Host.ask f) := .mapError (.query _)

theorem keeps_placeOf (l : Endpoint) : Keeps P (placeOf l) := .mapError (.ofExcept _)

theorem keeps_statEndpoint (l : Endpoint) : Keeps P (statEndpoint l) :=
  .bind (keeps_placeOf l) fun _ => keeps_ask _

theorem keeps_stat (r : Root) (p : Path) : Keeps P (r.stat p) :=
  .bind (.query _) keeps_statEndpoint

theorem keeps_lstat (r : Root) (p : Path) : Keeps P (r.lstat p) :=
  .bind (.query _) keeps_statEndpoint

theorem keeps_readlink (r : Root) (p : Path) : Keeps P (r.readlink p) :=
  .bind (.query _) fun l => .when (.throw _) (.bind (keeps_placeOf l) fun _ => keeps_ask _)

theorem keeps_openDir (l : Endpoint) : Keeps P (openDir l) :=
  .bind (keeps_placeOf l) fun _ => keeps_ask _

theorem keeps_readDir (r : Root) (p : Path) : Keeps P (r.readDir p) :=
  .bind (.query _) fun l => .bind (keeps_openDir l) fun _ => keeps_ask _

theorem keeps_openRoot (r : Root) (p : Path) : Keeps P (r.openRoot p) :=
  .bind (.query _) fun l => .bind (keeps_openDir l) fun _ => .pure _

theorem keeps_openPath (p : Path) : Keeps P (openPath p) :=
  .bind (keeps_ask _) fun _ => .bind (keeps_ask _) fun _ => .pure _

end Asking

section Creating

/-- What creating a directory keeps is kept by creating several. -/
theorem keeps_ensureEach {r : Root} {mode : UInt32} (hmkdir : ∀ p, Keeps P (r.mkdir p mode))
    (paths : List Path) : Keeps P (r.ensureEach mode paths) := by
  induction paths with
  | nil => exact .pure _
  | cons p rest ih =>
    have hstat : Keeps P (r.stat p) := keeps_stat r p
    refine .bind (.outcome hstat) fun found => ?_
    cases found with
    | ok s => exact .ite ih (.ite (.throw _) (.throw _))
    | error e =>
      cases e with
      | entityNotFound =>
        refine .bind (.outcome (hmkdir p)) fun made => ?_
        cases made with
        | ok => exact ih
        | error e =>
          cases e with
          | alreadyExists => exact .bind hstat fun s => .ite ih (.throw _)
          | _ => exact .throw _
      | _ => exact .throw _

variable (hmkdir : ∀ place mode, Keeps P (Call.mkdir place mode))

include hmkdir

theorem keeps_mkdir (r : Root) (p : Path) (mode : UInt32) : Keeps P (r.mkdir p mode) :=
  .bind (.query _) fun l => .when (.throw _)
    (.bind (keeps_placeOf l) fun place => .mapError (hmkdir place mode))

theorem keeps_ensureDirs (r : Root) (p : Path) (mode : UInt32) : Keeps P (r.ensureDirs p mode) :=
  keeps_ensureEach (fun p => keeps_mkdir hmkdir r p mode) (stages p)

end Creating

/-- Where the given holds, the operation is not refused at the boundary. -/
def Unrefused (P : Tree → Prop) (x : Work α) : Prop :=
  Triple P x (fun _ _ => True) fun e _ => ∀ q, e ≠ .pathEscapesParent q

namespace Unrefused

theorem throw {e : FileError} (h : ∀ q, e ≠ .pathEscapesParent q) :
    Unrefused P (MonadExcept.throw e : Work α) :=
  Triple.throw fun _ _ => h

theorem pure (a : α) : Unrefused P (Pure.pure a) := Triple.pure fun _ _ => trivial

/-- The first operation has to keep what is given for what follows. -/
theorem bind {x : Work α} {f : α → Work β} (hkeeps : Keeps P x) (hx : Unrefused P x)
    (hf : ∀ a, Unrefused P (f a)) : Unrefused P (x >>= f) :=
  Triple.bind ((hkeeps.and hx).weaken (fun _ hs => hs) (fun _ _ hs => hs.1) fun _ _ hs => hs.2) hf

theorem when {c : Prop} {_ : Decidable c} {x : Work PUnit} {f : PUnit → Work β}
    (hkeeps : Keeps P x) (hx : Unrefused P x) (hf : Unrefused P (f ⟨⟩)) :
    Unrefused P (if c then x >>= f else f ⟨⟩) := by
  split
  · exact bind hkeeps hx fun _ => hf
  · exact hf

theorem ite {c : Prop} {_ : Decidable c} {x y : Work α} (hx : Unrefused P x)
    (hy : Unrefused P y) : Unrefused P (if c then x else y) :=
  Triple.ite (fun _ => hx) fun _ => hy

theorem query {f : Tree → Except FileError α} (hf : ∀ t, P t → Passes (f t)) :
    Unrefused P (Action.query f) :=
  Triple.query (fun _ _ _ _ => trivial) fun t _ ht he q heq => hf t ht q (heq ▸ he)

theorem ofExcept {x : Except FileError α} (hx : Passes x) : Unrefused P (Action.ofExcept x) :=
  Triple.ofExcept (fun _ _ _ _ => trivial) fun _ _ _ he q heq => hx q (heq ▸ he)

theorem call (x : Call α) : Unrefused P (Host.call x) := by
  refine Triple.mapError ?_
  intro t _
  cases x t with
  | mk a t' =>
    cases a with
    | ok a => trivial
    | error e => exact FileError.ofErrno_ne_pathEscapesParent e

theorem placeOf (l : Endpoint) : Unrefused P (placeOf l) :=
  Triple.mapError (Triple.ofExcept (fun _ _ _ _ => trivial)
    fun _ e _ _ => FileError.ofErrno_ne_pathEscapesParent e)

/-- Of a result that is only put into another form nothing has to be kept. -/
theorem andPure {x : Work α} (hx : Unrefused P x) (f : α → β) :
    Unrefused P (x >>= fun a => Pure.pure (f a)) :=
  Triple.bind hx fun _ => Triple.pure fun _ _ => trivial

/-- What follows is told of a failure, but not of one at the boundary. -/
theorem outcome_bind {x : Work α} {f : Except FileError α → Work β} (hkeeps : Keeps P x)
    (hx : Unrefused P x) (hf : ∀ a, Passes a → Unrefused P (f a)) :
    Unrefused P (x.outcome >>= f) := by
  refine Triple.bind (Triple.outcome (hkeeps.and hx)) fun a s hs => ?_
  cases a with
  | ok a => exact hf _ (passes_ok a) s hs.1
  | error e => exact hf _ (fun q heq => hs.2 q (Except.error.inj heq)) s hs.1

end Unrefused

/-- Is the second tree the first one with directories made below the path, and with a
directory made for the path itself? -/
structure Made (r : Root) (t : Tree) (p : Path) (u : Tree) : Prop where
  gained : Call.Gained t u
  made : ∃ l n, r.walk t p false = .ok l ∧ l.name = some n ∧ t.Fresh u l.dir n

/-- Further down the boundary is out of reach. -/
theorem Made.walk_passes (h : r.Made t p u) (hleads : p.LeadsTo q) (followLast : Bool) :
    Passes (r.walk u q followLast) := by
  obtain ⟨l, n, hl, hname, hfresh⟩ := h.made
  obtain ⟨hrelative, names, hsteps⟩ := hleads
  rw [walk] at hl
  split at hl
  · cases hl
  · have hfollows := walkWithin_follows h.gained.1 r (.pathEscapesParent p)
      (.pathEscapesParent q) followLast linkLimit
    obtain ⟨trail, jump, htrail, hresumed⟩ := hfollows p.steps [] l n hl hname (names.map .down)
    rw [walk, hrelative, if_neg Bool.false_ne_true, hsteps, hresumed]
    exact advance_passes h.gained.1 jump names fun j hj => (htrail ▸ hfresh).lookup hj

section Creating

/-- A directory is made at the end of a relative path. -/
theorem Made.leadsTo_self (h : r.Made t p u) : p.LeadsTo p := by
  obtain ⟨l, _, hl, -⟩ := h.made
  unfold walk at hl
  split at hl
  · cases hl
  · next hrelative => exact ⟨Bool.eq_false_iff.2 hrelative, [], (List.append_nil _).symm⟩

theorem Made.gains (h : r.Made t p u) (hgained : Call.Gained u v) : r.Made t p v := by
  obtain ⟨l, n, hl, hname, hfresh⟩ := h.made
  exact ⟨⟨h.gained.1.trans hgained.1, hgained.2⟩, l, n, hl, hname, hfresh.gains hgained.1⟩

theorem keeps_made_mkdir (place : Place) (mode : UInt32) :
    Keeps (r.Made t p) (Call.mkdir place mode) := by
  apply Keeps.of_fixed
  intro s hs
  refine (Call.triple_mkdir hs.gained.2 place mode).weaken (fun _ h => h) ?_ ?_
  · exact fun _ u ⟨hu, _, _, _, _, hgains⟩ => hs.gains ⟨hgains.gains, hu⟩
  · exact fun _ u hu => hu ▸ hs

/-- The directory is made under the name at which the walk has ended. -/
theorem triple_mkdir_gainsDir (h : t.Sound) (r : Root) (p : Path) (mode : UInt32) :
    Triple (· = t) (r.mkdir p mode) (fun _ u => u.Sound ∧ ∃ l n i, r.walk t p false = .ok l ∧
      l.name = some n ∧ Tree.placeIn l.dir n = .ok (.entry l.dir n) ∧ t.GainsDir u l.dir n i)
      fun _ u => u = t := by
  unfold mkdir
  apply Triple.query_bind
  · intro l hl
    apply Triple.guarded_fixed
    intro hsome
    have hplace : Triple (· = t) (placeOf l) (fun place u => u = t ∧ l.place = .ok place)
        fun _ u => u = t :=
      Triple.mapError (Triple.ofExcept (fun _ _ hs hplace => ⟨hs, hplace⟩) fun _ _ hs _ => hs)
    refine Triple.bind hplace fun place s hs => ?_
    have hmade : Triple (· = t) (Host.call (Call.mkdir place mode)) (fun _ u => u.Sound ∧
        ∃ l n i, r.walk t p false = .ok l ∧ l.name = some n ∧
          Tree.placeIn l.dir n = .ok (.entry l.dir n) ∧ t.GainsDir u l.dir n i)
        fun _ u => u = t := by
      refine Triple.mapError ((Call.triple_mkdir h place mode).weaken (fun _ hs => hs) ?_ ?_)
      · rintro _ u ⟨hu, dir, m, i, hentry, hgains⟩
        cases hname : l.name with
        | none => exact absurd (by rw [hname]; rfl) hsome
        | some n =>
          have hfound : Tree.placeIn l.dir n = .ok place := by
            rw [← hs.2, Endpoint.place, hname]
          cases (Tree.eq_entry_of_placeIn hfound).symm.trans hentry
          exact ⟨hu, l, _, i, hl, hname, hfound.trans (congrArg _ hentry), hgains⟩
      · exact fun _ _ hs => hs
    exact hmade s hs.1
  · intro _ _
    rfl

theorem triple_mkdir (h : t.Sound) (r : Root) (p : Path) (mode : UInt32) :
    Triple (· = t) (r.mkdir p mode) (fun _ => r.Made t p) fun _ u => u = t := by
  refine (triple_mkdir_gainsDir h r p mode).weaken (fun _ hs => hs) ?_ fun _ _ hs => hs
  rintro _ u ⟨hu, l, n, i, hl, hname, -, hgains⟩
  exact ⟨⟨hgains.gains, hu⟩, l, n, hl, hname, hgains.fresh⟩

variable (hleads : p.LeadsTo q)

include hleads

theorem unrefused_walk (followLast : Bool) :
    Unrefused (r.Made t p) (Action.query (r.walk · q followLast)) :=
  .query fun _ hu => hu.walk_passes hleads followLast

theorem unrefused_stat : Unrefused (r.Made t p) (r.stat q) :=
  .bind (.query _) (unrefused_walk hleads true) fun l =>
    .bind (keeps_placeOf l) (.placeOf l) fun _ => .call _

theorem unrefused_mkdir (mode : UInt32) : Unrefused (r.Made t p) (r.mkdir q mode) :=
  .bind (.query _) (unrefused_walk hleads false) fun l =>
    .when (.throw _) (.throw nofun) (.bind (keeps_placeOf l) (.placeOf l) fun _ => .call _)

omit hleads

/-- Once a directory has been made, the others are further down. -/
theorem unrefused_ensureEach (mode : UInt32) {paths : List Path}
    (hleads : ∀ q ∈ paths, p.LeadsTo q) :
    Unrefused (r.Made t p) (r.ensureEach mode paths) := by
  induction paths with
  | nil => exact .pure _
  | cons q rest ih =>
    have hrest := ih fun q' hq' => hleads q' (List.mem_cons_of_mem _ hq')
    have hq := hleads q (List.mem_cons_self ..)
    have hstat : Unrefused (r.Made t p) (r.stat q) := unrefused_stat hq
    refine .outcome_bind (keeps_stat r q) hstat fun found hfound => ?_
    cases found with
    | ok s => exact .ite hrest (.ite (.throw nofun) (.throw nofun))
    | error e =>
      have hother : ∀ q', e ≠ .pathEscapesParent q' := fun q' heq =>
        hfound q' (congrArg Except.error heq)
      cases e with
      | entityNotFound =>
        refine .outcome_bind (keeps_mkdir keeps_made_mkdir r q mode) (unrefused_mkdir hq mode) ?_
        intro made hmade
        cases made with
        | ok => exact hrest
        | error e =>
          have hother : ∀ q', e ≠ .pathEscapesParent q' := fun q' heq =>
            hmade q' (congrArg Except.error heq)
          cases e with
          | alreadyExists =>
            exact .bind (keeps_stat r q) hstat fun s => .ite hrest (.throw nofun)
          | _ => exact .throw hother
      | _ => exact .throw hother

end Creating

section Stages

/-- The stages of a path that only goes down are the paths through its first names. -/
theorem stages_eq (h : p.Descends) :
    stages p = (List.range p.names.length).map fun i => below (p.names.take (i + 1)) := by
  have hnames : p.components.filter (· ≠ .current) = p.names.map .name := by
    have hinner : p.inner.filter (· ≠ .current) = p.names.map .name := by
      rw [inner_eq_names h.noParent, List.filter_eq_self]
      intro c hc
      obtain ⟨n, _, rfl⟩ := List.mem_map.1 hc
      rfl
    rw [components_eq, h.relative, if_neg Bool.false_ne_true]
    split
    · exact hinner
    · exact hinner
  simp only [stages, hnames, List.length_map]
  apply List.map_congr_left
  intro i hi
  have hne : p.names.take (i + 1) ≠ [] := by
    have hlt := List.mem_range.1 hi
    intro hnil
    rcases List.take_eq_nil_iff.1 hnil with hzero | hempty
    · omega
    · simp [hempty] at hlt
  rw [below, if_neg hne, List.map_take]

theorem leadsTo_of_mem_stages (h : p.Descends) (hq : q.Descends) (hstarts : p.names <+: q.names)
    {stage : Path} (hstage : stage ∈ stages p) : stage.LeadsTo q := by
  rw [stages_eq h] at hstage
  obtain ⟨i, _, rfl⟩ := List.mem_map.1 hstage
  exact hq.below_leadsTo ((List.take_prefix _ _).trans hstarts)

theorem pairwise_stages (h : p.Descends) : (stages p).Pairwise LeadsTo := by
  rw [stages_eq h, List.pairwise_map]
  refine List.pairwise_lt_range.imp fun {i j} hlt => (descends_below _).below_leadsTo ?_
  rw [names_below]
  exact List.take_prefix_take_left (by omega)

end Stages

end Root

end ConfinedFs
