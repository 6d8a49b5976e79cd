import ConfinedFs.Proofs.Layer.Operation
import ConfinedFs.Proofs.Path.Joining
import ConfinedFs.World

/-!
The boundary of a jail. A request whose paths climb out of the jail, or that stores a
relative link that does, is refused before the filesystem below hears of it. Every
other one is handed down with its paths below the base, where they stay: they have
the components of the base and names after them.
-/

namespace ConfinedFs

open ConfinedFs.Path

variable {σ H α : Type} {base p target link : Path}

namespace Jail

/-- The path below the base of a jail that stands for one of its paths. -/
def inside (base p : Path) : Path := base.clean.join p.clean

theorem clean_inside (base p : Path) : (inside base p).clean = inside base p := clean_joined ..

theorem isAbsolute_inside (base p : Path) : (inside base p).isAbsolute = base.isAbsolute := by
  obtain ⟨q, hq, -, habsolute⟩ := join_eq_clean (isEmpty_clean base) p.clean
  rw [inside, hq, isAbsolute_clean, habsolute, isAbsolute_clean]

theorem place_of_climbsOut (h : p.climbsOut = true) :
    place base.clean p = .error .crossedBoundary :=
  if_pos h

theorem place_of_not_climbsOut (h : p.climbsOut = false) :
    place base.clean p = .ok (inside base p) :=
  if_neg (Bool.eq_false_iff.1 h)

/-- Seen from the top of a jail, a path is its names. -/
theorem view_eq (p : Path) : view p = below p.names := by
  have hwhole : p.fromTop.clean.components = .root :: p.names.map .name := by
    rw [clean_fromTop, components_fromTop]
  simp only [view, remainder?, hwhole]
  cases hnames : p.names with
  | nil => rfl
  | cons n names => rfl

theorem storedTarget_of_isAbsolute (h : target.isAbsolute = true) :
    storedTarget base.clean target link = .ok (inside base target) :=
  if_pos h

/-- A relative target is checked from the directory of the link. -/
theorem storedTarget_eq (h : target.isAbsolute = false) :
    storedTarget base.clean target link =
      if ((below link.names.dropLast).join target).climbsOut then .error .crossedBoundary
      else .ok target := by
  rw [storedTarget, if_neg (Bool.eq_false_iff.1 h), view_eq, dirName_below]

end Jail

namespace Operation

/-- Does the request store a relative link that climbs out of the jail from the
directory it is in? -/
def StoresCrossing : Operation H α → Prop
  | symlink target link =>
    target.isAbsolute = false ∧ Climbs link.names.dropLast.length target.components
  | _ => False

/-- Does a path of the request climb out of the jail, or a link that it stores? -/
def Crosses (op : Operation H α) : Prop :=
  (∃ p ∈ op.paths, p.climbsOut = true) ∨ op.StoresCrossing

theorem not_climbsOut_of_mem {op : Operation H α} (h : ¬ op.Crosses) (hp : p ∈ op.paths) :
    p.climbsOut = false := by
  rw [Bool.eq_false_iff]
  exact fun hclimbs => h (.inl ⟨p, hp, hclimbs⟩)

/-- The paths that are put below the base. The target of a link is one of them if it
is absolute. -/
def placed : Operation H α → List Path
  | symlink target link => if target.isAbsolute then [target, link] else [link]
  | op => op.paths

theorem not_climbsOut_of_mem_placed {op : Operation H α} (h : ¬ op.Crosses)
    (hp : p ∈ op.placed) : p.climbsOut = false := by
  cases op with
  | symlink target link =>
    rw [placed] at hp
    split at hp
    · next habsolute =>
      rcases List.mem_cons.1 hp with rfl | hlink
      · exact climbsOut_of_isAbsolute habsolute
      · exact not_climbsOut_of_mem h hlink
    · exact not_climbsOut_of_mem h hp
  | _ => exact not_climbsOut_of_mem h hp

/-- The request as it is handed down: with its paths put below the base of the jail,
and the target of a link as well if it is absolute. -/
def handedDown (base : Path) : Operation H α → Operation H α
  | openFile p o => openFile (Jail.inside base p) o
  | stat p => stat (Jail.inside base p)
  | lstat p => lstat (Jail.inside base p)
  | rename source target => rename (Jail.inside base source) (Jail.inside base target)
  | remove p => remove (Jail.inside base p)
  | tempFile draws dir stem => tempFile draws (Jail.inside base dir) stem
  | readDir p => readDir (Jail.inside base p)
  | createDirAll p mode => createDirAll (Jail.inside base p) mode
  | symlink target link =>
    symlink (if target.isAbsolute then Jail.inside base target else target)
      (Jail.inside base link)
  | readlink p => readlink (Jail.inside base p)

/-- The answer as the jail gives it: under the names that the caller knows. -/
def shown (base : Path) : Operation H α → α → Except FileError α
  | openFile p _, f => .ok (f.withName p)
  | stat p, m => .ok (m.named p)
  | lstat p, m => .ok (m.named p)
  | rename _ _, done => .ok done
  | remove _, done => .ok done
  | tempFile _ dir _, f => .ok (f.withName (dir.join f.name.baseName))
  | readDir p, listed => .ok ⟨listed.entries.map (DirEntry.listedIn p.fromTop)⟩
  | createDirAll _ _, done => .ok done
  | symlink _ _, done => .ok done
  | readlink _, target => Jail.shownTarget base.clean target

end Operation

namespace Jail

variable {β : Type} {under : FileSystem σ H} {f : Path → Action FileError σ β}

theorem place_bind_of_climbsOut (h : p.climbsOut = true) :
    (Action.ofExcept (place base.clean p) >>= f) = throw .crossedBoundary := by
  rw [place_of_climbsOut h]
  rfl

theorem place_bind (h : p.climbsOut = false) :
    (Action.ofExcept (place base.clean p) >>= f) = f (inside base p) := by
  rw [place_of_not_climbsOut h]
  rfl

theorem storedTarget_bind_of_climbs (hrelative : target.isAbsolute = false)
    (h : Climbs link.names.dropLast.length target.components) :
    (Action.ofExcept (storedTarget base.clean target link) >>= f) = throw .crossedBoundary := by
  rw [← climbsOut_join_below] at h
  rw [storedTarget_eq hrelative, if_pos h]
  rfl

theorem storedTarget_bind (h : target.isAbsolute = false →
      ¬ Climbs link.names.dropLast.length target.components) :
    (Action.ofExcept (storedTarget base.clean target link) >>= f) =
      f (if target.isAbsolute then inside base target else target) := by
  cases habsolute : target.isAbsolute with
  | true =>
    rw [storedTarget_of_isAbsolute habsolute, if_pos rfl]
    rfl
  | false =>
    have hstays : ¬ ((below link.names.dropLast).join target).climbsOut = true := by
      rw [climbsOut_join_below]
      exact h habsolute
    rw [storedTarget_eq habsolute, if_neg hstays, if_neg nofun]
    rfl

theorem perform_of_crosses {op : Operation H α} (h : op.Crosses) :
    (confine under base).fileSystem.perform op = throw .crossedBoundary := by
  cases op with
  | openFile p _ | stat p | lstat p | remove p | tempFile _ p _ | readDir p | createDirAll p _
  | readlink p =>
    rcases h with ⟨q, hq, hclimbs⟩ | hfalse
    · rw [List.mem_singleton.1 hq] at hclimbs
      exact place_bind_of_climbsOut hclimbs
    · exact hfalse.elim
  | rename source target =>
    rcases h with ⟨q, hq, hclimbs⟩ | hfalse
    · cases hsource : source.climbsOut with
      | true => exact place_bind_of_climbsOut hsource
      | false =>
        rcases List.mem_cons.1 hq with rfl | hq
        · rw [hsource] at hclimbs
          cases hclimbs
        · rw [List.mem_singleton.1 hq] at hclimbs
          exact (place_bind hsource).trans (place_bind_of_climbsOut hclimbs)
    · exact hfalse.elim
  | symlink target link =>
    cases hlink : link.climbsOut with
    | true => exact place_bind_of_climbsOut hlink
    | false =>
      rcases h with ⟨q, hq, hclimbs⟩ | ⟨hrelative, hclimbs⟩
      · rw [List.mem_singleton.1 hq, hlink] at hclimbs
        cases hclimbs
      · exact (place_bind hlink).trans (storedTarget_bind_of_climbs hrelative hclimbs)

theorem perform_of_not_crosses {op : Operation H α} (h : ¬ op.Crosses) :
    (confine under base).fileSystem.perform op = (do
      let answer ← under.perform (op.handedDown base)
      Action.ofExcept (op.shown base answer)) := by
  cases op with
  | openFile p _ | stat p | lstat p | tempFile _ p _ | readDir p | readlink p =>
    exact place_bind (Operation.not_climbsOut_of_mem h (List.mem_singleton_self p))
  | remove p | createDirAll p _ =>
    have hp := Operation.not_climbsOut_of_mem h (List.mem_singleton_self p)
    exact (place_bind hp).trans (bind_pure _).symm
  | rename source target =>
    have hsource := Operation.not_climbsOut_of_mem h (List.mem_cons_self ..)
    have htarget := Operation.not_climbsOut_of_mem h
      (List.mem_cons_of_mem source (List.mem_singleton_self target))
    exact ((place_bind hsource).trans (place_bind htarget)).trans (bind_pure _).symm
  | symlink target link =>
    have hlink := Operation.not_climbsOut_of_mem h (List.mem_singleton_self link)
    have htarget : target.isAbsolute = false →
        ¬ Climbs link.names.dropLast.length target.components :=
      fun hrelative hclimbs => h (.inr ⟨hrelative, hclimbs⟩)
    exact ((place_bind hlink).trans (storedTarget_bind htarget)).trans (bind_pure _).symm

theorem narrow_of_climbsOut (h : p.climbsOut = true) :
    narrow (confine under base) p = .error .crossedBoundary := by
  have hplace : place (confine under base).base p = _ := place_of_climbsOut h
  rw [narrow, hplace]
  rfl

theorem narrow_of_not_climbsOut (h : p.climbsOut = false) :
    narrow (confine under base) p = .ok ⟨under, inside base p⟩ := by
  have hplace : place (confine under base).base p = _ := place_of_not_climbsOut h
  rw [narrow, hplace]
  show Except.ok (confine under (inside base p)) = _
  rw [confine, clean_inside]

/-- A jail of the world is narrowed in the same way. -/
theorem chroot_jailAt (v : Volume) (base p : Path) (w : World) :
    (v.jailAt base).chroot p w =
      ((narrow (confine v.fileSystem base) p).map fun j => v.jail j.base, w) := by
  show (Action.ofExcept (place base.clean p) >>= fun q => pure (v.jailAt q)) w = _
  rw [narrow, confine]
  cases place base.clean p with
  | error e => rfl
  | ok q => rfl

/-- A request that crosses the boundary of a jail fails, and whatever filesystem lies
below, nothing is asked of it. Every other request is the one that is handed down,
with its paths below the base, each of which has the components of the base and then
the names of the path. The same goes for the base of a jail in a jail. -/
theorem perform_boundary (under : FileSystem σ H) (base : Path) (op : Operation H α) :
    (op.Crosses → ∀ s, (confine under base).fileSystem.perform op s =
      (.error .crossedBoundary, s)) ∧
    (¬ op.Crosses → (confine under base).fileSystem.perform op = (do
      let answer ← under.perform (op.handedDown base)
      Action.ofExcept (op.shown base answer))) ∧
    (¬ op.Crosses → ∀ p ∈ op.placed, (inside base p).parts =
      base.clean.parts ++ p.clean.components.filter Component.isName) ∧
    (∀ p, p.climbsOut = true → narrow (confine under base) p = .error .crossedBoundary) ∧
    (∀ p, p.climbsOut = false → narrow (confine under base) p = .ok ⟨under, inside base p⟩ ∧
      (inside base p).parts = base.clean.parts ++ p.clean.components.filter Component.isName) ∧
    ∀ (v : Volume) (p : Path) (w : World), (v.jailAt base).chroot p w =
      ((narrow (confine v.fileSystem base) p).map fun j => v.jail j.base, w) := by
  refine ⟨?_, perform_of_not_crosses, ?_, ?_, ?_, ?_⟩
  · intro h s
    rw [perform_of_crosses h, Action.throw_apply]
  · intro h p hp
    exact parts_join_clean base (Operation.not_climbsOut_of_mem_placed h hp)
  · intro p h
    exact narrow_of_climbsOut h
  · intro p h
    exact ⟨narrow_of_not_climbsOut h, parts_join_clean base h⟩
  · intro v p w
    exact chroot_jailAt v base p w

end Jail

end ConfinedFs
