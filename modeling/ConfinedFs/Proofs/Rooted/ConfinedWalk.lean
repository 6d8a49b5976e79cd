import ConfinedFs.Proofs.Os.ConfinedCalls
import ConfinedFs.Rooted.Walk

/-!
A walk through a root sees nothing but the inside of an enclosure around it. The
invariant is that every directory of the trail is inside: a step down adds an
entry of one of them, a step up takes one away, and a link either goes on from
where it is or starts again at the root.
-/

namespace ConfinedFs.Root

open ConfinedFs.Os

variable {E : Enclosure} {t t' : Tree} {r : Root} {dir : NodeId} {trail : Trail}

theorem statIn_eq (h : E.Twin t t') (hdir : E.inside dir) (n : Name) :
    statIn t' dir n = statIn t dir n := by
  have hentry : E.Holds (.entry dir n) := hdir
  have hplace : (Tree.placeIn dir n).bind t'.statAt = (Tree.placeIn dir n).bind t.statAt := by
    rw [Tree.placeIn]
    cases Tree.checkPath n.bytes with
    | error e => rfl
    | ok => exact h.statAt_eq hentry
  rw [statIn, statIn, hplace]

theorem linkIn_eq (h : E.Twin t t') (hdir : E.inside dir) (n : Name) :
    linkIn t' dir n = linkIn t dir n := by
  have hentry : E.Holds (.entry dir n) := hdir
  rw [linkIn, linkIn, Tree.placeIn]
  cases Tree.checkPath n.bytes with
  | error e => rfl
  | ok => exact congrArg _ (h.readlinkAt_eq hentry)

theorem dirIn_eq (h : E.Twin t t') (hdir : E.inside dir) (n : Name) :
    dirIn t' dir n = dirIn t dir n := by
  have hentry : E.Holds (.entry dir n) := hdir
  rw [dirIn, dirIn, Tree.placeIn]
  cases Tree.checkPath n.bytes with
  | error e => rfl
  | ok => exact congrArg _ (h.openDirAt_eq hentry)

theorem dirIn_inside (h : E.Twin t t') (hdir : E.inside dir) {n : Name} {i : NodeId}
    (hi : dirIn t dir n = .ok i) : E.inside i := by
  have hentry : E.Holds (.entry dir n) := hdir
  exact h.openDirAt_inside hentry (Tree.of_placeIn_bind (ok_of_mapError hi)).2

/-- Every directory of the trail is inside. -/
def TrailInside (E : Enclosure) (trail : Trail) : Prop := ∀ e ∈ trail, E.inside e.2

theorem current_inside (hr : E.inside r.dir) (htrail : TrailInside E trail) :
    E.inside (r.current trail) := by
  cases trail with
  | nil => exact hr
  | cons e trail => exact htrail e (List.mem_cons_self ..)

/-- Two ways of walking that agree from any trail inside and end inside. -/
def WalkAlike (E : Enclosure) (f f' : List Step → Trail → Except FileError Endpoint) : Prop :=
  ∀ steps trail, TrailInside E trail →
    f' steps trail = f steps trail ∧ ∀ l, f steps trail = .ok l → E.inside l.dir

theorem ends_error (E : Enclosure) (e : FileError) :
    (.error e : Except FileError Endpoint) = .error e ∧
      ∀ l : Endpoint, .error e = Except.ok l → E.inside l.dir :=
  ⟨rfl, nofun⟩

theorem ends_ok {l : Endpoint} (hl : E.inside l.dir) :
    (.ok l : Except FileError Endpoint) = .ok l ∧
      ∀ l' : Endpoint, .ok l = Except.ok (ε := FileError) l' → E.inside l'.dir := by
  refine ⟨rfl, fun l' heq => ?_⟩
  cases heq
  exact hl

/-- How a walk goes on with the target of a link. -/
def handOver (r : Root) (escape : FileError) (rest : List Step) (trail : Trail) (target : Path)
    (jump : List Step → Trail → Except FileError Endpoint) : Except FileError Endpoint :=
  if target.isAbsolute then
    match r.path.remainder? target with
    | none => .error escape
    | some rel => jump (rel.steps ++ rest) []
  else jump (target.steps ++ rest) trail

theorem handOver_alike {f f' : List Step → Trail → Except FileError Endpoint}
    (halike : WalkAlike E f f') (htrail : TrailInside E trail) (escape : FileError)
    (rest : List Step) (target : Path) :
    r.handOver escape rest trail target f' = r.handOver escape rest trail target f ∧
      ∀ l, r.handOver escape rest trail target f = .ok l → E.inside l.dir := by
  unfold handOver
  split
  · cases r.path.remainder? target with
    | none => exact ends_error E escape
    | some rel => exact halike _ [] fun _ he => nomatch he
  · exact halike _ trail htrail

/-- As long as the walks that take over at links agree, walks agree. -/
theorem advance_alike (h : E.Twin t t') (hr : E.inside r.dir) (escape : FileError)
    (followLast : Bool) {jump jump' : Option (List Step → Trail → Except FileError Endpoint)}
    (hnone : jump = none → jump' = none)
    (hsome : ∀ f, jump = some f → ∃ f', jump' = some f' ∧ WalkAlike E f f') :
    WalkAlike E (r.advance t escape followLast jump) (r.advance t' escape followLast jump') := by
  intro steps
  induction steps with
  | nil => exact fun trail htrail => ends_ok (current_inside hr htrail)
  | cons step rest ih =>
    intro trail htrail
    cases step with
    | up =>
      cases trail with
      | nil => exact ends_error E escape
      | cons e above => exact ih above fun e' he' => htrail e' (List.mem_cons_of_mem _ he')
    | down n =>
      have hdir := current_inside hr htrail
      have hhere : E.inside (r.endpoint trail (some n)).dir := hdir
      simp only [advance, statIn_eq h hdir, linkIn_eq h hdir, dirIn_eq h hdir]
      cases hstat : statIn t (r.current trail) n with
      | error e => exact ends_error E e
      | ok found =>
        simp only [bind, Except.bind]
        cases found with
        | none =>
          dsimp only
          split
          · exact ends_ok hhere
          · exact ends_error E _
        | some s =>
          dsimp only
          split
          · cases hj : jump with
            | none =>
              rw [hnone hj]
              exact ends_error E _
            | some f =>
              obtain ⟨f', hj', halike⟩ := hsome f hj
              rw [hj']
              cases linkIn t (r.current trail) n with
              | error e => exact ends_error E e
              | ok target => exact handOver_alike halike htrail escape rest target
          · split
            · exact ends_ok hhere
            · split
              · exact ends_error E _
              · cases hopen : dirIn t (r.current trail) n with
                | error e => exact ends_error E e
                | ok i =>
                  refine ih ((n, i) :: trail) ?_
                  intro e he
                  rcases List.mem_cons.1 he with rfl | he
                  · exact dirIn_inside h hdir hopen
                  · exact htrail e he

theorem walkWithin_alike (h : E.Twin t t') (hr : E.inside r.dir) (escape : FileError)
    (followLast : Bool) (links : Nat) :
    WalkAlike E (r.walkWithin t escape followLast links)
      (r.walkWithin t' escape followLast links) := by
  induction links with
  | zero => exact advance_alike h hr escape followLast (fun _ => rfl) fun f hf => nomatch hf
  | succ links ih =>
    refine advance_alike h hr escape followLast (fun hf => nomatch hf) ?_
    intro f hf
    cases hf
    exact ⟨_, rfl, ih⟩

/-- A walk ends in the same way on both trees. -/
theorem walk_eq (h : E.Twin t t') (hr : E.inside r.dir) (p : Path) (followLast : Bool) :
    r.walk t' p followLast = r.walk t p followLast := by
  rw [walk, walk]
  split
  · rfl
  · exact (walkWithin_alike h hr _ followLast linkLimit p.steps [] fun _ he => nomatch he).1

theorem walk_inside (h : E.Twin t t') (hr : E.inside r.dir) {p : Path} {followLast : Bool}
    {l : Endpoint} (hl : r.walk t p followLast = .ok l) : E.inside l.dir := by
  rw [walk] at hl
  split at hl
  · cases hl
  · exact (walkWithin_alike h hr _ followLast linkLimit p.steps [] fun _ he => nomatch he).2 l hl

end ConfinedFs.Root
