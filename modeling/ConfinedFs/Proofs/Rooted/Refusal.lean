import ConfinedFs.Proofs.Rooted.Candidates
import ConfinedFs.Proofs.Rooted.Failures
import ConfinedFs.Proofs.Rooted.MakingDirs

/-!
Requests to a confined host that are refused at the boundary. A path that only goes down is
refused before the first directory is created: once one has been made, what is further down is
in it, and the boundary is out of reach. That goes for temporary files too, which are tried under
one name after the other, all in the same directory. Clearing a directory takes many calls, but
it is not begun if the path leads outside.
-/

namespace ConfinedFs

open ConfinedFs.Os
open ConfinedFs.Action (Keeps Spares Triple)

variable {α β : Type} {P : Tree → Prop} {r : Root} {u : Tree} {l : Endpoint}

namespace Root

section Clearing

variable (hP : ∀ t, P t)

include hP

theorem unrefused_clearDir (levels : Nat) (dir : NodeId) : Unrefused P (clearDir levels dir) := by
  induction levels generalizing dir with
  | zero => exact .throw nofun
  | succ levels ih =>
    refine .bind (.always hP _) (.call _) fun names => ?_
    induction names with
    | nil => exact .pure _
    | cons n names ih' =>
      refine .bind (.always hP _) ?_ fun _ => ih'
      refine .bind (.always hP _) (.call _) fun s => .ite ?_ (.call _)
      refine .bind (.always hP _) (.call _) fun child => ?_
      exact .bind (.always hP _) (ih child) fun _ => .call _

/-- Once the path has been walked, nothing is refused at the boundary. -/
theorem unrefused_removeEntry (l : Endpoint) : Unrefused P (do
    let (dir, n) ← Action.ofExcept (l.entry .baseDirRemove)
    match ← Action.query (statIn · dir n) with
    | none => return ()
    | some s =>
      let place ← placeOf l
      if s.isDir then
        let levels ← Action.look (·.nodes.length)
        clearDir levels (← Host.ask (Tree.openDirAt · place))
        Host.call (Call.rmdir place)
      else Host.call (Call.unlink place) : Work Unit) := by
  have hentry : Passes (l.entry .baseDirRemove) := by
    unfold Endpoint.entry
    split
    · exact passes_ok _
    · split <;> exact fun _ => nofun
  refine .bind (.ofExcept _) (.ofExcept hentry) fun entry => ?_
  refine .bind (.query _) (.query fun t _ => passes_statIn t _ _) fun found => ?_
  cases found with
  | none => exact .pure _
  | some s =>
    refine .bind (keeps_placeOf l) (.placeOf l) fun place => .ite ?_ (.call _)
    refine .bind (.look _) (Triple.look fun _ _ => trivial) fun levels => ?_
    refine .bind (keeps_ask _) (.call _) fun dir => ?_
    exact .bind (.always hP _) (unrefused_clearDir hP levels dir) fun _ => .call _

end Clearing

section FurtherDown

variable {t : Tree} {p q : Path} (hleads : p.LeadsTo q)

include hleads

theorem unrefused_openFile (o : OpenOptions) : Unrefused (r.Made t p) (r.openFile q o) :=
  .bind (.query _) (unrefused_walk hleads true) fun l =>
    .when (.mapError (Call.keeps_demand .search l.dir)) (.call _)
      (.bind (keeps_placeOf l) (.placeOf l) fun _ => .andPure (.call _) _)

theorem unrefused_symlink (target : Path) : Unrefused (r.Made t p) (r.symlink target q) :=
  .bind (.query _) (unrefused_walk hleads false) fun l =>
    .when (.throw _) (.throw nofun) (.bind (keeps_placeOf l) (.placeOf l) fun _ => .call _)

theorem unrefused_openRoot : Unrefused (r.Made t p) (r.openRoot q) :=
  .bind (.query _) (unrefused_walk hleads true) fun l =>
    .andPure (.bind (keeps_placeOf l) (.placeOf l) fun _ => .call _) _

end FurtherDown

/-- If the request is refused at the boundary, nothing has been changed before. -/
def RefusedFirst (t : Tree) (x : Work α) : Prop :=
  Triple (· = t) x (fun _ _ => True) fun e u => (∃ q, e = .pathEscapesParent q) → u = t

namespace RefusedFirst

variable {t : Tree}

theorem of_error {x : Work α} (hx : RefusedFirst t x) {e : FileError} {u : Tree}
    (hrun : x t = (.error e, u)) (he : ∃ q, e = .pathEscapesParent q) : u = t := by
  have hpost := hx t rfl
  rw [hrun] at hpost
  exact hpost he

theorem of_spares {x : Work α} (hx : Spares (· = t) x) : RefusedFirst t x :=
  hx.onError fun _ _ hs _ => hs

theorem of_unrefused {x : Work α} (hx : Unrefused P x) (ht : P t) : RefusedFirst t x := by
  refine (Triple.fix hx ht).onError ?_
  rintro e u he ⟨q, rfl⟩
  exact absurd rfl (he q)

theorem after {x : Work α} {f : α → Work β} (hx : Keeps (· = t) x)
    (hf : ∀ a, RefusedFirst t (f a)) : RefusedFirst t (x >>= f) :=
  hx.andThen (fun _ _ hs _ => hs) hf

theorem guarded {c : Prop} {_ : Decidable c} {e : FileError} {f : PUnit → Work α}
    (hf : RefusedFirst t (f ⟨⟩)) :
    RefusedFirst t (if c then MonadExcept.throw e >>= f else f ⟨⟩) :=
  Triple.guarded (fun _ _ hs _ => hs) fun _ => hf

theorem ite {c : Prop} {_ : Decidable c} {x y : Work α} (hx : c → RefusedFirst t x)
    (hy : RefusedFirst t y) : RefusedFirst t (if c then x else y) :=
  Triple.ite hx fun _ => hy

theorem ofExcept_bind {x : Except FileError α} {f : α → Work β}
    (hf : ∀ a, x = .ok a → RefusedFirst t (f a)) : RefusedFirst t (Action.ofExcept x >>= f) := by
  cases x with
  | error e => exact Triple.throw_bind fun _ hs _ => hs
  | ok a => exact hf a rfl

end RefusedFirst

section Ensuring

variable {t : Tree} {d p stage : Path} {paths before after rest : List Path} {mode : UInt32}

/-- The tree is as it was, or a directory has been made for one of the paths, and those before
it lead to directories. -/
def Begun (r : Root) (t : Tree) (paths : List Path) (u : Tree) : Prop :=
  u = t ∨ ∃ before stage after, paths = before ++ stage :: after ∧ r.Made t stage u ∧
    ∀ q ∈ before, r.HoldsDir u q

/-- What has been begun may fail, but not at the boundary if a directory has been made. -/
def Stopped (r : Root) (t : Tree) (paths : List Path) (e : FileError) (u : Tree) : Prop :=
  ((∃ q, e = .pathEscapesParent q) → u = t) ∧ r.Begun t paths u

theorem Begun.gained (h : r.Begun t paths u) (ht : t.Sound) : Call.Gained t u := by
  obtain rfl | ⟨_, _, _, _, hmade, _⟩ := h
  · exact ⟨.refl u, ht⟩
  · exact hmade.gained

theorem Begun.append (h : r.Begun t paths u) (rest : List Path) :
    r.Begun t (paths ++ rest) u := by
  refine h.imp_right ?_
  rintro ⟨before, stage, after, rfl, hmade⟩
  exact ⟨before, stage, after ++ rest, List.append_assoc .., hmade⟩

theorem Begun.eq_of_nil (h : r.Begun t [] u) : u = t := by
  obtain heq | ⟨before, stage, after, hnil, -⟩ := h
  · exact heq
  · simp at hnil

/-- A directory that is there is passed over. -/
theorem Begun.cons (h : r.Begun t rest u) (hdir : r.HoldsDir t p) : r.Begun t (p :: rest) u := by
  refine h.imp_right ?_
  rintro ⟨before, stage, after, rfl, hmade, hbefore⟩
  refine ⟨p :: before, stage, after, rfl, hmade, ?_⟩
  exact List.forall_mem_cons.2 ⟨hdir.gains hmade.gained.1, hbefore⟩

theorem Stopped.cons {e : FileError} (h : r.Stopped t rest e u) (hdir : r.HoldsDir t p) :
    r.Stopped t (p :: rest) e u := ⟨h.1, h.2.cons hdir⟩

theorem stopped_refl (e : FileError) : r.Stopped t paths e t := ⟨fun _ => rfl, .inl rfl⟩

/-- From a directory that has been made on, nothing is refused, and nothing is lost of those
before it. -/
theorem triple_ensureEach_made (mode : UInt32) (hmade : r.Made t stage u)
    (hbefore : ∀ q ∈ before, r.HoldsDir u q) (hrest : ∀ q ∈ rest, stage.LeadsTo q)
    (heq : paths = before ++ stage :: after) :
    Triple (· = u) (r.ensureEach mode rest) (fun _ => r.Begun t paths) (r.Stopped t paths) := by
  have hgained : Keeps (Call.Gained u) (r.ensureEach mode rest) :=
    keeps_ensureEach (fun p => keeps_mkdir (Call.keeps_gained_mkdir u) r p mode) rest
  have hunrefused : Unrefused (r.Made t stage) (r.ensureEach mode rest) :=
    unrefused_ensureEach mode hrest
  have hboth := (Triple.fix hgained ⟨.refl u, hmade.gained.2⟩).and (Triple.fix hunrefused hmade)
  have hbegun : ∀ v, Call.Gained u v → r.Begun t paths v := fun v hv =>
    .inr ⟨before, stage, after, heq, hmade.gains hv, fun q hq => (hbefore q hq).gains hv.1⟩
  refine hboth.weaken (fun _ hs => hs) (fun _ v hv => hbegun v hv.1) ?_
  rintro e v ⟨hv, he⟩
  refine ⟨?_, hbegun v hv⟩
  rintro ⟨q, rfl⟩
  exact absurd rfl (he q)

/-- The induction is on the paths. The first one that is missing may be refused, and then
nothing has been made yet; after that, nothing is refused. -/
theorem triple_ensureEach_same (h : t.Sound) (r : Root) (mode : UInt32)
    (hleads : paths.Pairwise Path.LeadsTo) :
    Triple (· = t) (r.ensureEach mode paths) (fun _ => r.Begun t paths) (r.Stopped t paths) := by
  induction paths with
  | nil => exact Triple.pure fun _ hs => .inl hs
  | cons p rest ih =>
    obtain ⟨hp, hrest⟩ := List.pairwise_cons.1 hleads
    have hsame : r.HoldsDir t p → Triple (· = t) (r.ensureEach mode rest)
        (fun _ => r.Begun t (p :: rest)) (r.Stopped t (p :: rest)) := fun hdir =>
      (ih hrest).weaken (fun _ hs => hs) (fun _ _ hs => hs.cons hdir) fun _ _ hs => hs.cons hdir
    have hmade : Triple (r.Made t p) (r.ensureEach mode rest) (fun _ => r.Begun t (p :: rest))
        (r.Stopped t (p :: rest)) :=
      Triple.of_fixed fun u hu => triple_ensureEach_made mode hu
        (fun _ hq => absurd hq List.not_mem_nil) hp (List.nil_append _).symm
    have hstop : ∀ {e : FileError}, Triple (· = t) (throw e : Work Unit)
        (fun _ => r.Begun t (p :: rest)) (r.Stopped t (p :: rest)) :=
      Triple.throw fun _ hs => hs ▸ stopped_refl _
    have hstat := (keeps_stat (P := (· = t)) r p).again
    refine Triple.bind (Triple.outcome hstat) fun found => ?_
    cases found with
    | ok s =>
      apply Triple.of_fixed
      rintro _ ⟨rfl, hfound⟩
      exact Triple.ite (fun hdir => hsame ⟨s, hfound, hdir⟩) fun _ =>
        Triple.ite (fun _ => hstop) fun _ => hstop
    | error e =>
      cases e with
      | entityNotFound =>
        refine Triple.bind (Triple.outcome (triple_mkdir h r p mode)) fun made => ?_
        cases made with
        | ok => exact hmade
        | error e =>
          cases e with
          | alreadyExists =>
            refine Triple.bind (hstat.onError ?_) fun s => ?_
            · rintro _ _ rfl
              exact stopped_refl _
            · apply Triple.of_fixed
              rintro _ ⟨rfl, hfound⟩
              exact Triple.ite (fun hdir => hsame ⟨s, hfound, hdir⟩) fun _ => hstop
          | _ => exact hstop
      | _ => exact hstop

/-- It may be begun several times. -/
theorem triple_ensureEach (h : t.Sound) (r : Root) (mode : UInt32)
    (hleads : paths.Pairwise Path.LeadsTo) :
    Triple (r.Begun t paths) (r.ensureEach mode paths) (fun _ => r.Begun t paths)
      (r.Stopped t paths) := by
  rintro u (rfl | ⟨before, stage, after, heq, hmade, hbefore⟩)
  · exact triple_ensureEach_same h r mode hleads u rfl
  · have hafter : ∀ q ∈ stage :: after, stage.LeadsTo q := by
      rw [heq] at hleads
      have hpairwise := (List.pairwise_append.1 hleads).2.1
      exact List.forall_mem_cons.2 ⟨hmade.leadsTo_self, (List.pairwise_cons.1 hpairwise).1⟩
    have hrun := triple_ensureEach_made mode hmade hbefore hafter heq u rfl
    rwa [← ensureEach_append hbefore, ← heq] at hrun

/-- The stages of a path come before those of what is below it. -/
theorem stages_append {above : List Name} (hd : d.Descends) (hstarts : d.names <+: above) :
    ∃ rest, stages (Path.below above) = stages d ++ rest := by
  obtain ⟨more, rfl⟩ := hstarts
  rw [stages_eq_stops hd.relative, stages_eq_stops (Path.isAbsolute_below _), Path.steps_below,
    Path.steps_eq_names hd.noParent, List.map_append, stops_append]
  exact ⟨_, rfl⟩

/-- What follows once the directories of a path are there, be it that they had been there
already or that some had to be made. -/
theorem triple_of_ensured {x : Work α} (hlead : ∀ stage ∈ stages d, stage.LeadsTo p)
    (hsame : RefusedFirst t x) (hmade : ∀ stage, stage.LeadsTo p → Unrefused (r.Made t stage) x) :
    Triple (r.Begun t (stages d)) x (fun _ _ => True)
      fun e u => (∃ q, e = .pathEscapesParent q) → u = t := by
  rintro u (rfl | ⟨before, stage, after, heq, hu, -⟩)
  · exact hsame u rfl
  · have hstage : stage ∈ stages d := heq ▸ List.mem_append_right _ (List.mem_cons_self ..)
    refine (hmade stage (hlead stage hstage)).onError ?_ u hu
    rintro e v he ⟨q, rfl⟩
    exact absurd rfl (he q)

variable (h : t.Sound) (hd : d.Descends) (hp : p.Descends) (hstarts : d.names <+: p.names)

include h hd hp hstarts

theorem refusedFirst_ensureDirs {f : Unit → Work α} (hsame : RefusedFirst t (f ()))
    (hmade : ∀ stage, stage.LeadsTo p → Unrefused (r.Made t stage) (f ())) :
    RefusedFirst t (r.ensureDirs d mode >>= f) :=
  Triple.bind ((triple_ensureEach_same h r mode (pairwise_stages hd)).onError fun _ _ hs => hs.1)
    fun _ => triple_of_ensured (fun _ => leadsTo_of_mem_stages hd hp hstarts) hsame hmade

end Ensuring

theorem openPath_again {t : Tree} {p : Path} (h : t.Sound) (hgains : t.Gains u)
    (hopen : openPath p t = (.ok r, t)) : openPath p u = (.ok r, u) := by
  obtain ⟨hcanonical, hdir⟩ := findDir_of_openPath hopen
  obtain ⟨hfind, hisDir, hread⟩ := Tree.find_of_findDir hdir
  have hagain : u.findDir r.path = .ok r.dir := by
    rw [Tree.findDir, hgains.find h hfind]
    exact Tree.openDir_eq_ok_iff.2 ⟨rfl, hgains.isDir hisDir, hgains.demand hread⟩
  have hpath : Host.ask (Tree.canonical · p) u = (.ok r.path, u) := by
    rw [Host.ask_apply, hgains.canonical h hcanonical]
    rfl
  have hask : Host.ask (Tree.findDir · r.path) u = (.ok r.dir, u) := by
    rw [Host.ask_apply, hagain]
    rfl
  rw [openPath, Action.bind_apply_of_ok hpath, Action.bind_apply_of_ok hask]
  rfl

end Root

namespace Confined

variable {c : Confined}

section Refused

open ConfinedFs.Root (RefusedFirst Unrefused)

variable {t : Tree}

/-- Clearing is not begun if the path leads outside. -/
theorem refusedFirst_removeAll (t : Tree) (c : Confined) (p : Path) :
    RefusedFirst t (c.removeAll p) := by
  refine .after (.ofExcept _) fun rel => .guarded ?_
  refine .after c.keeps_root fun r => .after (.query _) fun l => ?_
  exact .of_unrefused (Root.unrefused_removeEntry (P := fun _ => True) (fun _ => trivial) l) trivial

theorem refusedFirst_ensureAbove (h : t.Sound) {rel : Path} (hrel : rel.Descends)
    {f : Unit → Root.Work α} (hsame : RefusedFirst t (f ()))
    (hmade : ∀ stage, stage.LeadsTo rel → Unrefused (r.Made t stage) (f ())) :
    RefusedFirst t (ensureAbove r rel >>= f) := by
  have hdir : rel.dirName.Descends := by
    rw [hrel.dirName_eq]
    exact Path.descends_below _
  have hstarts : rel.dirName.names <+: rel.names := by
    rw [hrel.dirName_eq, Path.names_below]
    exact List.dropLast_prefix _
  unfold ensureAbove
  split
  · exact .after (.pure _) fun _ => hsame
  · exact Root.refusedFirst_ensureDirs h hdir hrel hstarts hsame hmade

theorem refusedFirst_openFile (h : t.Sound) (c : Confined) {p : Path} {o : OpenOptions}
    (hp : o.creates = true → .parent ∉ p.components) : RefusedFirst t (c.openFile p o) := by
  refine .ofExcept_bind fun rel hrel => .after c.keeps_root fun r => ?_
  have hopen := RefusedFirst.of_spares (spares_openBelow (P := (· = t)) r p rel o)
  refine .ite (fun hcreates => ?_) hopen
  refine refusedFirst_ensureAbove h (descends_of_relative (hp hcreates) hrel) hopen ?_
  exact fun stage hleads => .andPure (Root.unrefused_openFile hleads o) _

theorem refusedFirst_createDirAll (h : t.Sound) (c : Confined) {p : Path}
    (hp : .parent ∉ p.components) (mode : UInt32) : RefusedFirst t (c.createDirAll p mode) := by
  refine .ofExcept_bind fun rel hrel => .after c.keeps_root fun r => ?_
  have hstages := Root.pairwise_stages (descends_of_relative hp hrel)
  exact (Root.triple_ensureEach_same h r mode hstages).weaken (fun _ hs => hs)
    (fun _ _ _ => trivial) fun _ _ hs => hs.1

theorem refusedFirst_symlink (h : t.Sound) (c : Confined) (target : Path) {link : Path}
    (hlink : .parent ∉ link.components) : RefusedFirst t (c.symlink target link) := by
  refine .ofExcept_bind fun rel hrel => .after c.keeps_root fun r => ?_
  refine refusedFirst_ensureAbove h (descends_of_relative hlink hrel)
    (.of_spares (Root.spares_symlink r target rel)) ?_
  exact fun stage hleads => Root.unrefused_symlink hleads target

theorem refusedFirst_narrow (h : t.Sound) (c : Confined) {p : Path}
    (hp : .parent ∉ p.components) : RefusedFirst t (c.narrow p) := by
  refine .ofExcept_bind fun rel hrel => .after c.keeps_root fun r => ?_
  have hdescends := descends_of_relative hp hrel
  have hleads : ∀ stage ∈ Root.stages rel, stage.LeadsTo rel := fun _ =>
    Root.leadsTo_of_mem_stages hdescends hdescends List.prefix_rfl
  have hsame := RefusedFirst.of_spares (c.keeps_narrowTo (P := (· = t)) r rel).spares
  have hmade : ∀ stage : Path, stage.LeadsTo rel → Unrefused (r.Made t stage) (do
      if !(← r.stat rel).isDir then throw .baseNotDirectory
      let sub ← r.openRoot rel
      return if c.kept.isSome then shared sub else perCall sub.path : Root.Work Confined) :=
    fun stage hstage => .bind (Root.keeps_stat r rel) (Root.unrefused_stat hstage) fun s =>
      .when (.throw _) (.throw nofun) (.andPure (Root.unrefused_openRoot hstage) _)
  have hdirs := (Root.triple_ensureEach_same h r FileSystem.defaultDirMode
    (Root.pairwise_stages hdescends)).onError fun _ _ hs => hs.1
  refine Triple.bind (Triple.outcome hdirs) fun made => ?_
  cases made with
  | ok => exact Root.triple_of_ensured hleads hsame hmade
  | error e =>
    cases e with
    | alreadyExists =>
      apply Triple.throw_bind
      rintro u _ ⟨q, heq⟩
      cases heq
    | _ => exact Triple.throw_bind fun _ hu => hu

section Attempts

variable {dir rel p : Path} {stem : Bytes} {above : List Name} {o : OpenOptions}

/-- The base is found again where directories have been made. -/
theorem root_again (h : t.Sound) (hgains : t.Gains u) (hroot : c.root t = (.ok r, t)) :
    c.root u = (.ok r, u) := by
  unfold root at hroot ⊢
  cases hkept : c.kept with
  | some kept =>
    rw [hkept] at hroot
    exact Prod.ext (Prod.mk.inj hroot).1 rfl
  | none =>
    rw [hkept] at hroot
    exact Root.openPath_again h hgains hroot

theorem triple_openBelow (hdir : above <+: rel.names) (hrel : rel.Descends) (p : Path)
    (o : OpenOptions) : Triple (r.Begun t (Root.stages (Path.below above)))
      (do return { handle := ← r.openFile rel o, path := p } : Root.Work (OpenFile FileHandle))
      (fun _ _ => True) (r.Stopped t (Root.stages (Path.below above))) := by
  have hleads : ∀ stage ∈ Root.stages (Path.below above), stage.LeadsTo rel := fun _ =>
    Root.leadsTo_of_mem_stages (Path.descends_below above) hrel (by rwa [Path.names_below])
  have hfirst := Root.triple_of_ensured hleads
    (RefusedFirst.of_spares (spares_openBelow (P := (· = t)) r p rel o))
    fun stage hstage => .andPure (Root.unrefused_openFile hstage o) _
  exact (hfirst.and (spares_openBelow r p rel o)).weaken (fun _ hs => hs)
    (fun _ _ _ => trivial) fun _ _ hs => hs

/-- One attempt to create the file. -/
theorem triple_attempt (h : t.Sound) (hroot : c.root t = (.ok r, t)) (hcreates : o.creates = true)
    (hnone : ∀ e, c.relative p = .error e → above = [])
    (hdir : ∀ q, c.relative p = .ok q → q.Descends ∧ q.names.dropLast = above) :
    Triple (r.Begun t (Root.stages (Path.below above))) (c.openFile p o) (fun _ _ => True)
      (r.Stopped t (Root.stages (Path.below above))) := by
  unfold openFile
  cases hrel : c.relative p with
  | error e =>
    refine Triple.throw_bind fun u hu => ⟨fun _ => ?_, hu⟩
    rw [hnone e hrel] at hu
    exact hu.eq_of_nil
  | ok q =>
    obtain ⟨hq, rfl⟩ := hdir q hrel
    refine Triple.of_fixed fun u hu => ?_
    refine Triple.bind_of_run (Action.ofExcept_apply _ u) ?_
    refine Triple.bind_of_run (root_again h (hu.gained h).1 hroot) ?_
    rw [if_pos hcreates]
    have hensured : Triple (r.Begun t (Root.stages (Path.below q.names.dropLast)))
        (ensureAbove r q) (fun _ => r.Begun t (Root.stages (Path.below q.names.dropLast)))
        (r.Stopped t (Root.stages (Path.below q.names.dropLast))) := by
      unfold ensureAbove
      rw [hq.dirName_eq]
      exact Triple.ite (fun _ => Triple.pure fun _ hs => hs) fun _ =>
        Root.triple_ensureEach h r _ (Root.pairwise_stages (Path.descends_below _))
    exact Triple.bind (hensured.fix hu) fun _ =>
      triple_openBelow (List.dropLast_prefix _) hq p o

/-- The induction is on the attempts. Only one that has found a file is followed by another. -/
theorem triple_openUnused {candidate : Nat → Path} {paths : List Path}
    (hattempt : ∀ i, Triple (r.Begun t paths) (c.openFile (candidate i) .temporary)
      (fun _ _ => True) (r.Stopped t paths)) (l : List Nat) :
    Triple (r.Begun t paths) (c.bareFileSystem.openUnused candidate l) (fun _ _ => True)
      fun e u => (∃ q, e = .pathEscapesParent q) → u = t := by
  induction l with
  | nil => exact Triple.throw fun _ _ => nofun
  | cons i l ih =>
    unfold BareFileSystem.openUnused
    refine Triple.bind (Triple.outcome (hattempt i)) fun opened => ?_
    cases opened with
    | ok f => exact Triple.pure fun _ _ => trivial
    | error e =>
      cases e with
      | alreadyExists => exact ih.onStart fun _ hs => hs.2
      | _ => exact Triple.throw fun _ hs => hs.1

theorem refusedFirst_tempFile (h : t.Sound) (c : Confined) (draws : Draws)
    (hdir : .parent ∉ dir.components) (hstem : .parent ∉ (⟨stem⟩ : Path).components) :
    RefusedFirst t (c.fileSystem.tempFile draws dir stem) := by
  simp only [fileSystem, BareFileSystem.unusedFile]
  generalize List.range BareFileSystem.temporaryAttempts = attempts
  refine .ofExcept_bind fun rel hrel => ?_
  obtain ⟨above, hstarts, hcandidate⟩ := exists_above hdir hstem hrel
  have hdescends := descends_of_relative hdir hrel
  have hroot := (c.keeps_root (P := (· = t))).again
  refine Triple.bind (hroot.onError fun _ _ hs _ => hs) fun r => Triple.of_fixed ?_
  rintro _ ⟨rfl, hroot⟩
  have hdirs := Root.triple_ensureEach_same h r FileSystem.defaultDirMode
    (Root.pairwise_stages hdescends)
  refine Triple.bind (hdirs.onError fun _ _ hs => hs.1) fun _ => ?_
  obtain ⟨rest, hstages⟩ := Root.stages_append hdescends hstarts
  have hattempts := triple_openUnused (c := c) (fun i => triple_attempt h hroot rfl
    (hcandidate draws i).1 (hcandidate draws i).2) attempts
  exact hattempts.onStart fun _ hs => hstages ▸ hs.append rest

end Attempts

end Refused

end Confined

/-- May a refusal at the boundary come too late, after directories have been created? A path that
goes up is not walked as a whole before that, and neither is the other path of a move. -/
def Operation.MayLeave {H : Type} : Operation H α → Prop
  | openFile p o => o.creates = true ∧ .parent ∈ p.components
  | createDirAll p _ | symlink _ p => .parent ∈ p.components
  | tempFile _ dir stem => .parent ∈ dir.components ∨ .parent ∈ (⟨stem⟩ : Path).components
  | rename _ _ => True
  | stat _ | lstat _ | remove _ | readDir _ | readlink _ => False

namespace Confined

theorem refusedFirst_perform {t : Tree} (h : t.Sound) (c : Confined)
    {op : Operation FileHandle α} (hleaves : ¬ op.MayLeave) :
    Root.RefusedFirst t (c.fileSystem.perform op) := by
  cases op with
  | openFile p o => exact refusedFirst_openFile h c fun hcreates hp => hleaves ⟨hcreates, hp⟩
  | createDirAll p mode => exact refusedFirst_createDirAll h c hleaves mode
  | symlink target link => exact refusedFirst_symlink h c target hleaves
  | tempFile draws dir stem =>
    obtain ⟨hdir, hstem⟩ := not_or.1 hleaves
    exact refusedFirst_tempFile h c draws hdir hstem
  | rename source target => exact absurd trivial hleaves
  | stat p | lstat p | remove p | readDir p | readlink p =>
    exact .of_spares (c.spares_perform _ nofun)

/-- A request that fails, at the boundary or otherwise, has at most created directories
that were missing, and if it is one that creates none, it has changed nothing. One that
is refused at the boundary has changed nothing unless it goes up or names two paths; for a
temporary file, what it is to be called may go up as well as its directory. The same goes for
a narrower host, and clearing is not begun if the path leads outside. -/
theorem failed_gains {t : Tree} (h : t.Sound) (c : Confined) :
    (∀ {α : Type} (op : Operation FileHandle α) e t', c.fileSystem.perform op t = (.error e, t') →
      t.Gains t' ∧ (¬ op.MakesDirs → t' = t) ∧
        ((∃ q, e = .pathEscapesParent q) → ¬ op.MayLeave → t' = t)) ∧
    (∀ p e t', c.narrow p t = (.error e, t') → t.Gains t' ∧
      ((∃ q, e = .pathEscapesParent q) → .parent ∉ p.components → t' = t)) ∧
    ∀ p q t', c.removeAll p t = (.error (.pathEscapesParent q), t') → t' = t := by
  have hstart : Call.Gained t t := ⟨.refl t, h⟩
  refine ⟨?_, ?_, ?_⟩
  · intro α op e t' hrun
    have hgained : Spares (Call.Gained t) (c.fileSystem.perform op) :=
      c.spares_perform op fun _ => Call.keeps_gained_mkdir t
    refine ⟨(hgained.of_error hstart hrun).1, ?_, ?_⟩
    · intro hmakes
      have hsame : Spares (· = t) (c.fileSystem.perform op) :=
        c.spares_perform op fun hmakes' => absurd hmakes' hmakes
      exact hsame.of_error rfl hrun
    · intro hrefused hleaves
      exact (refusedFirst_perform h c hleaves).of_error hrun hrefused
  · intro p e t' hrun
    have hgained := (keeps_narrow (Call.keeps_gained_mkdir t) c p).spares
    refine ⟨(hgained.of_error hstart hrun).1, ?_⟩
    intro hrefused hp
    exact (refusedFirst_narrow h c hp).of_error hrun hrefused
  · intro p q t' hrun
    exact (refusedFirst_removeAll t c p).of_error hrun ⟨q, rfl⟩

section Climbing

/-- The path `a/../..`. -/
private def climbing : Path := ⟨[97, 47, 46, 46, 47, 46, 46]⟩

private def stepName : Name := ⟨[97], by decide⟩

/-- Creating the directories of a path that climbs out one after the other leaves the
first of them behind. -/
theorem failed_gains_climbing :
    Tree.fresh.Sound ∧
      let after := ((perCall Path.top).fileSystem.perform (.createDirAll climbing 0o755)
        Tree.fresh).2
      Tree.fresh.Gains after ∧ (after.lookup Tree.top stepName).isOk = true := by
  have hrun : (perCall Path.top).fileSystem.perform (.createDirAll climbing 0o755) Tree.fresh =
      (.error (.pathEscapesParent climbing), _) := rfl
  have hfailed := ((failed_gains Tree.sound_fresh (perCall Path.top)).1
    (.createDirAll climbing 0o755) _ _ hrun).1
  exact ⟨Tree.sound_fresh, hfailed, by decide⟩

/-- What the refused request leaves is not the tree it found. -/
theorem createDirAll_refused_after_change :
    let run := (perCall Path.top).createDirAll climbing 0o755 Tree.fresh
    run.1 = .error (.pathEscapesParent climbing) ∧
      (Tree.fresh.lookup Tree.top stepName).isOk = false ∧
      (run.2.lookup Tree.top stepName).isOk = true :=
  ⟨rfl, by decide, by decide⟩

end Climbing

end Confined

end ConfinedFs
