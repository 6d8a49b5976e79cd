import ConfinedFs.Proofs.Os.SoundCalls

/-!
Calls that fail. A call of the system makes its change last, after everything that may
be refused, so a call that fails leaves what holds of the tree.
-/

namespace ConfinedFs

namespace Action

variable {ε ε' σ α β : Type} {P : σ → Prop}

/-- What holds before the operation still holds if it fails. -/
def Spares (P : σ → Prop) (x : Action ε σ α) : Prop := Triple P x (fun _ _ => True) fun _ => P

theorem Keeps.spares {x : Action ε σ α} (hx : Keeps P x) : Spares P x :=
  Triple.weaken hx (fun _ hs => hs) (fun _ _ _ => trivial) fun _ _ hs => hs

namespace Spares

theorem update (f : σ → σ) : Spares P (Action.update f : Action ε σ Unit) :=
  Triple.update fun _ _ => trivial

/-- Only the last operation may do what it likes. -/
theorem bind {x : Action ε σ α} {f : α → Action ε σ β} (hx : Keeps P x)
    (hf : ∀ a, Spares P (f a)) : Spares P (x >>= f) :=
  Keeps.andThen hx (fun _ _ hs => hs) hf

theorem when {c : Prop} {_ : Decidable c} {x : Action ε σ PUnit} {f : PUnit → Action ε σ β}
    (hx : Keeps P x) (hf : Spares P (f ⟨⟩)) : Spares P (if c then x >>= f else f ⟨⟩) :=
  Keeps.whenThen hx (fun _ _ hs => hs) hf

theorem ite {c : Prop} {_ : Decidable c} {x y : Action ε σ α} (hx : Spares P x)
    (hy : Spares P y) : Spares P (if c then x else y) :=
  Triple.ite (fun _ => hx) fun _ => hy

/-- The result may be put into another form. -/
theorem andPure {x : Action ε σ α} (hx : Spares P x) (f : α → β) :
    Spares P (x >>= fun a => Pure.pure (f a)) :=
  Triple.bind hx fun _ => Triple.pure fun _ _ => trivial

theorem mapError {x : Action ε σ α} (hx : Spares P x) (f : ε → ε') : Spares P (x.mapError f) :=
  Triple.mapError hx

/-- What holds afterwards, as long as there was a failure. -/
theorem of_error {x : Action ε σ α} (hx : Spares P x) {s s' : σ} {e : ε} (hs : P s)
    (hrun : x s = (.error e, s')) : P s' := by
  have hpost := hx s hs
  rw [hrun] at hpost
  exact hpost

end Spares

end Action

namespace Os

open ConfinedFs.Action (Keeps Spares Triple)

namespace Call

variable {P : Tree → Prop}

theorem spares_addEntry (dir : NodeId) (n : Name) (node : Inode) :
    Spares P (addEntry dir n node) :=
  .bind keeps_demandGrowth fun _ => .bind (.look _) fun i => .andPure (.update _) fun _ => i

theorem spares_symlink (target : Path) (place : Place) : Spares P (symlink target place) := by
  have htarget : Keeps P (checkTarget target) :=
    .bind (.ofExcept _) fun _ => .when (.throw _) (.pure _)
  exact .bind htarget fun _ => .bind (keeps_vacancy place) fun _ =>
    .andPure (spares_addEntry _ _ _) fun _ => ()

theorem spares_unlink (place : Place) : Spares P (unlink place) := by
  cases place with
  | directory i => exact (Keeps.throw _).spares
  | entry dir n =>
    refine .bind (.query _) fun i => .bind (keeps_demandRemoval dir i) fun _ => ?_
    exact .bind (.look _) fun isDir => .when (.throw _) (.update _)

theorem spares_rmdir (place : Place) : Spares P (rmdir place) := by
  cases place with
  | directory i => exact (Keeps.throw _).spares
  | entry dir n =>
    refine .bind (.query _) fun i => .bind (keeps_demandRemoval dir i) fun _ => ?_
    refine .bind (.look _) fun isDir => .when (.throw _) ?_
    exact .bind (keeps_demandEmpty i) fun _ => .update _

theorem spares_rename (source target : Place) : Spares P (rename source target) := by
  cases source with
  | directory i => exact (Keeps.throw _).spares
  | entry dir n =>
    cases target with
    | directory j => exact (Keeps.throw _).spares
    | entry newDir newName =>
      refine .bind (.query _) fun i => .bind (.query _) fun old => .bind (.look _) fun above => ?_
      refine .when (.throw _) ?_
      cases old with
      | none =>
        refine .bind (keeps_demandRemoval dir i) fun _ => .bind (.look _) fun isDir => ?_
        exact .bind keeps_demandGrowth fun _ => .when (keeps_demand .write i) (.update _)
      | some j =>
        refine .bind (.look _) fun above => .when (.throw _) ?_
        refine .ite (Keeps.pure _).spares ?_
        refine .bind (keeps_demandRemoval dir i) fun _ => .bind (.look _) fun isDir => ?_
        refine .bind (keeps_demandRemoval newDir j) fun _ => .bind (.look _) fun replaces => ?_
        refine .when (.throw _) (.when (.throw _) (.when (keeps_demand .write i) ?_))
        exact .bind (keeps_demandEmpty j) fun _ => .update _

theorem spares_granted (f : OpenFlags) (i : NodeId) : Spares P (granted f i) := by
  have hempty : Spares P (do
      if f.truncate then truncate i
      return descriptor f i : Call Descriptor) := by
    refine .ite ?_ (Keeps.pure _).spares
    exact .andPure (.update _) fun _ => descriptor f i
  unfold granted
  refine .when (keeps_demand .read i) (.when (keeps_demand .write i) ?_)
  exact .bind (.look _) fun special => .when (.throw _) hempty

theorem spares_openNode (f : OpenFlags) (i : NodeId) : Spares P (openNode f i) := by
  have hopen : Spares P (granted f i) := spares_granted f i
  unfold openNode
  refine .when (.throw _) (.bind (.look _) fun node => ?_)
  cases node with
  | none => exact hopen
  | some node =>
    cases node with
    | directory d => exact .when (.throw _) hopen
    | file perm data => exact hopen
    | symlink standing target => exact .bind (.throw _) fun _ => hopen
    | special perm => exact hopen

theorem spares_openAt (f : OpenFlags) (place : Place) (strict : Bool) :
    Spares P (openAt f place strict) := by
  unfold openAt
  refine .when (.throw _) (.bind (.query _) fun found => ?_)
  cases found with
  | some i => exact .bind (.look _) fun isDir => .when (.throw _) (spares_openNode f i)
  | none =>
    cases place with
    | directory i => exact (Keeps.throw _).spares
    | entry dir n =>
      exact .when (.throw _) (.bind (.look _) fun perm => .andPure (spares_addEntry _ _ _) _)

end Call

end Os

end ConfinedFs
