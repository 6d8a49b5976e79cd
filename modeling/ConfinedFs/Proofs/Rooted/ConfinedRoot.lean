import ConfinedFs.Proofs.Rooted.ConfinedWalk
import ConfinedFs.Rooted.Root

/-!
The operations of a root on two trees that look the same inside of an enclosure
around it. Each of them walks to places inside and then makes calls at those
places.
-/

namespace ConfinedFs.Root

open ConfinedFs.Os ConfinedFs.Os.Enclosure

variable {α : Type} {E : Enclosure} {t t' : Tree} {r : Root} {l : Endpoint} {place : Place}

theorem confines_walk (hr : E.inside r.dir) (p : Path) (followLast : Bool) :
    E.Confines (Action.query (r.walk · p followLast)) fun l => E.inside l.dir :=
  fun _ _ h => .query h (walk_eq h hr p followLast) fun _ hl => walk_inside h hr hl

theorem confines_placeOf (hl : E.inside l.dir) : E.Confines (placeOf l) E.Holds := by
  refine .mapError (.ofExcept ?_) _
  intro place hplace
  unfold Endpoint.place at hplace
  split at hplace
  · rw [Tree.eq_entry_of_placeIn hplace]
    exact hl
  · cases hplace
    exact hl

/-- A question about a place inside. -/
theorem confines_ask {f : Tree → Except Errno α} {Q : α → Prop}
    (hf : ∀ t t', E.Twin t t' → f t' = f t) (hq : ∀ t t' a, E.Twin t t' → f t = .ok a → Q a) :
    E.Confines (Host.ask f) Q :=
  .mapError (fun t t' h => .query h (hf t t' h) fun a ha => hq t t' a h ha) _

theorem confines_statAt (hplace : E.Holds place) :
    E.Confines (Host.ask (Tree.statAt · place)) Any :=
  confines_ask (fun _ _ h => h.statAt_eq hplace) fun _ _ _ _ _ => trivial

theorem confines_openDirAt (hplace : E.Holds place) :
    E.Confines (Host.ask (Tree.openDirAt · place)) E.inside :=
  confines_ask (fun _ _ h => h.openDirAt_eq hplace) fun _ _ _ h hi => h.openDirAt_inside hplace hi

theorem confines_stat (hr : E.inside r.dir) (p : Path) : E.Confines (r.stat p) Any :=
  .bind (confines_walk hr p true) fun _ hl =>
    .bind (confines_placeOf hl) fun _ hplace => confines_statAt hplace

theorem confines_lstat (hr : E.inside r.dir) (p : Path) : E.Confines (r.lstat p) Any :=
  .bind (confines_walk hr p false) fun _ hl =>
    .bind (confines_placeOf hl) fun _ hplace => confines_statAt hplace

theorem confines_openFile (hr : E.inside r.dir) (p : Path) (o : OpenOptions) :
    E.Confines (r.openFile p o) Any :=
  .bind (confines_walk hr p true) fun _ hl => .when (.mapError (confines_demand hl .search) _)
    (.bind (confines_placeOf hl) fun _ hplace =>
      .bind (.mapError (confines_openAt _ hplace false) _) fun _ _ => .pure trivial)

theorem confines_mkdir (hr : E.inside r.dir) (p : Path) (mode : UInt32) :
    E.Confines (r.mkdir p mode) Any :=
  .bind (confines_walk hr p false) fun _ hl => .when (.throw _)
    (.bind (confines_placeOf hl) fun _ hplace =>
      .mapError (Enclosure.confines_mkdir hplace mode) _)

theorem confines_ensureEach (hr : E.inside r.dir) (mode : UInt32) (paths : List Path) :
    E.Confines (r.ensureEach mode paths) Any := by
  induction paths with
  | nil => exact .pure trivial
  | cons p rest ih =>
    refine .bind (.outcome (confines_stat hr p)) fun found _ => ?_
    cases found with
    | ok s =>
      dsimp only
      split
      · exact ih
      · split
        · exact .throw _
        · exact .throw _
    | error e =>
      cases e with
      | entityNotFound =>
        refine .bind (.outcome (confines_mkdir hr p mode)) fun made _ => ?_
        cases made with
        | ok => exact ih
        | error e =>
          cases e with
          | alreadyExists =>
            refine .bind (confines_stat hr p) fun s _ => ?_
            split
            · exact ih
            · exact .throw _
          | _ => exact .throw _
      | _ => exact .throw _

theorem confines_remove (hr : E.inside r.dir) (p : Path) : E.Confines (r.remove p) Any := by
  refine .bind (confines_walk hr p false) fun l hl => ?_
  refine .bind (Q := Any) (.ofExcept fun _ _ => trivial) fun _ _ => ?_
  refine .bind (confines_placeOf hl) fun place hplace => .bind (confines_statAt hplace) fun s _ => ?_
  refine .mapError ?_ _
  split
  · exact confines_rmdir hplace
  · exact confines_unlink hplace

theorem confines_clearDir (levels : Nat) {dir : NodeId} (hdir : E.inside dir) :
    E.Confines (clearDir levels dir) Any := by
  induction levels generalizing dir with
  | zero => exact .throw _
  | succ levels ih =>
    have hnames : E.Confines (Host.ask (Tree.names · dir)) Any :=
      confines_ask (fun _ _ h => h.names_eq hdir) fun _ _ _ _ _ => trivial
    refine .bind hnames fun names _ => .forM fun n _ => ?_
    have hplace : E.Holds (.entry dir n) := hdir
    refine .bind (confines_statAt hplace) fun s _ => ?_
    split
    · exact .bind (confines_openDirAt hplace) fun child hchild => .bind (ih hchild) fun _ _ =>
        .mapError (confines_rmdir hplace) _
    · exact .mapError (confines_unlink hplace) _

theorem confines_symlink (hr : E.inside r.dir) (target link : Path) :
    E.Confines (r.symlink target link) Any :=
  .bind (confines_walk hr link false) fun _ hl => .when (.throw _)
    (.bind (confines_placeOf hl) fun _ hplace =>
      .mapError (Enclosure.confines_symlink hplace target) _)

theorem confines_readlink (hr : E.inside r.dir) (p : Path) : E.Confines (r.readlink p) Any :=
  .bind (confines_walk hr p false) fun _ hl => .when (.throw _)
    (.bind (confines_placeOf hl) fun _ hplace =>
      confines_ask (fun _ _ h => h.readlinkAt_eq hplace) fun _ _ _ _ _ => trivial)

theorem confines_openDir (hl : E.inside l.dir) : E.Confines (openDir l) E.inside :=
  .bind (confines_placeOf hl) fun _ hplace => confines_openDirAt hplace

theorem confines_readDir (hr : E.inside r.dir) (p : Path) : E.Confines (r.readDir p) Any :=
  .bind (confines_walk hr p true) fun _ hl => .bind (confines_openDir hl) fun _ hdir =>
    confines_ask (fun _ _ h => h.listing_eq hdir) fun _ _ _ _ _ => trivial

theorem confines_openRoot (hr : E.inside r.dir) (p : Path) :
    E.Confines (r.openRoot p) fun sub => E.inside sub.dir :=
  .bind (confines_walk hr p true) fun _ hl => .bind (confines_openDir hl) fun _ hdir => .pure hdir

end ConfinedFs.Root
