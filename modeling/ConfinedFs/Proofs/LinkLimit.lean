import ConfinedFs.Proofs.Memory.Journey
import ConfinedFs.Proofs.Rooted.Removal

/-!
How many links a walk follows. A walk is taken apart into its turns, some of which follow a link,
and the turns can also be made without a bound. The bounded walk gives the answer of the unbounded
one as long as that follows no more links than are allowed, and refuses exactly when one more is
met. Both in memory and inside of a root, the moves that are left grow with a link by what the link
holds, so what becomes smaller is first the links that may still be followed, and only then the
moves.
-/

namespace ConfinedFs

open ConfinedFs.Os

/-- One turn of a walk: whether it follows a link, and the answer or the state that it leads to. -/
structure Leg (σ α : Type) where
  byLink : Bool
  next : α ⊕ σ

namespace Leg

variable {σ α : Type} {leg : σ → Leg σ α} {size : σ → Nat} {walk : Nat → σ → α} {refusal a : α}
  {x y : α ⊕ σ} {n links limit : Nat}

/-- The turns lead from one point to another one and follow that many links on the way. There is no
bound on the links. -/
inductive Reaches (leg : σ → Leg σ α) : α ⊕ σ → Nat → α ⊕ σ → Prop
  | here {x : α ⊕ σ} : Reaches leg x 0 x
  | turn {s : σ} {n : Nat} {y : α ⊕ σ} (h : Reaches leg (leg s).next n y) :
      Reaches leg (.inr s) ((leg s).byLink.toNat + n) y

/-- Without a bound the walk ends with the answer, and follows that many links before. -/
def Ends (leg : σ → Leg σ α) (x : α ⊕ σ) (n : Nat) (a : α) : Prop := Reaches leg x n (.inl a)

/-- Without a bound the walk meets another link to follow after that many. -/
def MeetsLink (leg : σ → Leg σ α) (x : α ⊕ σ) (n : Nat) : Prop :=
  ∃ s, Reaches leg x n (.inr s) ∧ (leg s).byLink = true

/-- The turn does not refuse, and if it follows no link, it leads to something smaller. -/
structure Fair (turn : Leg σ α) (size : σ → Nat) (refusal : α) (bound : Nat) : Prop where
  answer : ∀ a, turn.next = .inl a → a ≠ refusal
  smaller : ∀ s, turn.byLink = false → turn.next = .inr s → size s < bound

/-- The walk makes these turns, but it follows no more links than it is given. -/
structure Bounded (leg : σ → Leg σ α) (size : σ → Nat) (refusal : α) (walk : Nat → σ → α) :
    Prop where
  turn : ∀ links s, walk links s =
    match (leg s).byLink, links with
    | false, links => (leg s).next.elim id (walk links)
    | true, links + 1 => (leg s).next.elim id (walk links)
    | true, 0 => refusal
  fair : ∀ s, (leg s).Fair size refusal (size s)

/-- The answer is that of the unbounded walk if it follows few enough links, and it is the refusal
if and only if another link is met when all that are allowed have been followed. -/
structure CutOff (leg : σ → Leg σ α) (x : α ⊕ σ) (limit : Nat) (refusal answer : α) : Prop where
  outcome : (∃ n ≤ limit, Ends leg x n answer) ∨ MeetsLink leg x limit ∧ answer = refusal
  refused_iff : answer = refusal ↔ MeetsLink leg x limit
  kept : ∀ n a, n ≤ limit → Ends leg x n a → answer = a ∧ a ≠ refusal

theorem Fair.ended {byLink : Bool} {bound : Nat} (ha : a ≠ refusal) :
    (⟨byLink, .inl a⟩ : Leg σ α).Fair size refusal bound := by
  refine ⟨?_, nofun⟩
  rintro _ ⟨⟩
  exact ha

theorem Fair.moved {s : σ} {bound : Nat} (hs : size s < bound) :
    (⟨false, .inr s⟩ : Leg σ α).Fair size refusal bound := by
  refine ⟨nofun, ?_⟩
  rintro _ - ⟨⟩
  exact hs

theorem Fair.link (s : σ) (bound : Nat) :
    (⟨true, .inr s⟩ : Leg σ α).Fair size refusal bound := ⟨nofun, nofun⟩

theorem Reaches.link {s : σ} (h : Reaches leg (leg s).next n y) (hlink : (leg s).byLink = true) :
    Reaches leg (.inr s) (n + 1) y := by
  have hturn := Reaches.turn h
  rwa [hlink, Bool.toNat_true, Nat.add_comm] at hturn

theorem Reaches.plain {s : σ} (h : Reaches leg (leg s).next n y) (hlink : (leg s).byLink = false) :
    Reaches leg (.inr s) n y := by
  have hturn := Reaches.turn h
  rwa [hlink, Bool.toNat_false, Nat.zero_add] at hturn

/-- A walk that may follow some links more than are on the way comes to the same end from there. The
induction is on the turns. -/
theorem Bounded.walk_eq (h : Bounded leg size refusal walk) (hxy : Reaches leg x n y)
    (links : Nat) : x.elim id (walk (n + links)) = y.elim id (walk links) := by
  induction hxy with
  | here => rw [Nat.zero_add]
  | @turn s n y _ ih =>
    rw [← ih, Sum.elim_inr]
    cases hlink : (leg s).byLink with
    | false => rw [Bool.toNat_false, Nat.zero_add, h.turn, hlink]
    | true => rw [Bool.toNat_true, Nat.add_assoc, Nat.add_comm 1, h.turn, hlink]

theorem Reaches.trans {k : Nat} {z : α ⊕ σ} (hxy : Reaches leg x n y) (hyz : Reaches leg y k z) :
    Reaches leg x (n + k) z := by
  induction hxy with
  | here => rwa [Nat.zero_add]
  | turn _ ih =>
    rw [Nat.add_assoc]
    exact .turn (ih hyz)

/-- Before the next link there are only finitely many turns. The induction is on what becomes
smaller. -/
theorem Bounded.ends_or_meetsLink_zero (h : Bounded leg size refusal walk) (x : α ⊕ σ) :
    (∃ a, Ends leg x 0 a) ∨ MeetsLink leg x 0 := by
  cases x with
  | inl a => exact .inl ⟨a, .here⟩
  | inr s =>
    induction hsize : size s using Nat.strongRecOn generalizing s with
    | ind k ih =>
      cases hlink : (leg s).byLink with
      | true => exact .inr ⟨s, .here, hlink⟩
      | false =>
        cases hnext : (leg s).next with
        | inl a => exact .inl ⟨a, .plain (hnext ▸ .here) hlink⟩
        | inr s' =>
          have hsmaller : size s' < k := hsize ▸ (h.fair s).smaller s' hlink hnext
          obtain ⟨a, ha⟩ | ⟨s'', hs'', hlink'⟩ := ih _ hsmaller s' rfl
          · exact .inl ⟨a, .plain (hnext ▸ ha) hlink⟩
          · exact .inr ⟨s'', .plain (hnext ▸ hs'') hlink, hlink'⟩

/-- Without a bound the walk ends, or it meets one link more than it may follow. The induction is
on the links. -/
theorem Bounded.ends_or_meetsLink (h : Bounded leg size refusal walk) (links : Nat) (x : α ⊕ σ) :
    (∃ n ≤ links, ∃ a, Ends leg x n a) ∨ MeetsLink leg x links := by
  induction links with
  | zero =>
    obtain ⟨a, ha⟩ | hmeets := h.ends_or_meetsLink_zero x
    · exact .inl ⟨0, Nat.le_refl 0, a, ha⟩
    · exact .inr hmeets
  | succ links ih =>
    obtain ⟨n, hn, a, ha⟩ | ⟨s, hs, hlink⟩ := ih
    · exact .inl ⟨n, Nat.le_succ_of_le hn, a, ha⟩
    · have hnext : Reaches leg x (links + 1) (leg s).next := hs.trans (Reaches.here.link hlink)
      obtain ⟨a, ha⟩ | ⟨s', hs', hlink'⟩ := h.ends_or_meetsLink_zero (leg s).next
      · exact .inl ⟨links + 1, Nat.le_refl _, a, hnext.trans ha⟩
      · exact .inr ⟨s', hnext.trans hs', hlink'⟩

/-- Without a bound nothing is refused. -/
theorem Bounded.ne_refusal (h : Bounded leg size refusal walk)
    (hx : ∀ a, x = .inl a → a ≠ refusal) (ha : Ends leg x n a) : a ≠ refusal := by
  unfold Ends at ha
  generalize hy : (Sum.inl a : α ⊕ σ) = y at ha
  induction ha with
  | here => exact hx a hy.symm
  | turn _ ih => exact ih (h.fair _).answer hy

/-- A bounded walk that is not refused before it starts is cut off at its bound. -/
theorem Bounded.cutOff (h : Bounded leg size refusal walk)
    (hx : ∀ a, x = .inl a → a ≠ refusal) (limit : Nat) :
    CutOff leg x limit refusal (x.elim id (walk limit)) := by
  have hends : ∀ n a, n ≤ limit → Ends leg x n a → x.elim id (walk limit) = a := by
    intro n a hn ha
    have heq := h.walk_eq ha (limit - n)
    rwa [Nat.add_sub_cancel' hn] at heq
  have hmeets : MeetsLink leg x limit → x.elim id (walk limit) = refusal := by
    rintro ⟨s, hs, hlink⟩
    refine (h.walk_eq hs 0).trans ((h.turn 0 s).trans ?_)
    rw [hlink]
  have hcases := h.ends_or_meetsLink limit x
  refine ⟨?_, ⟨fun hrefused => ?_, hmeets⟩, fun n a hn ha => ⟨hends n a hn ha, h.ne_refusal hx ha⟩⟩
  · obtain ⟨n, hn, a, ha⟩ | hlink := hcases
    · exact .inl ⟨n, hn, (hends n a hn ha).symm ▸ ha⟩
    · exact .inr ⟨hlink, hmeets hlink⟩
  · obtain ⟨n, hn, a, ha⟩ | hlink := hcases
    · exact absurd ((hends n a hn ha).symm.trans hrefused) (h.ne_refusal hx ha)
    · exact hlink

end Leg

namespace Memory

/-- What a walk does next with the moves that are left, from the place it has reached. -/
def leg (m : Memory) (followLast : Bool) :
    List Step × Key → Leg (List Step × Key) (Except FileError Key)
  | ([], k) => ⟨false, .inl (.ok k)⟩
  | (.up :: rest, k) => ⟨false, .inr (rest, k.parent)⟩
  | (.down n :: rest, k) =>
    match m.sight (k ++ [n]) with
    | .way => ⟨false, .inr (rest, k ++ [n])⟩
    | .file =>
      if rest.isEmpty then ⟨false, .inl (.ok (k ++ [n]))⟩
      else ⟨false, .inl (.error .baseNotDirectory)⟩
    | .link target =>
      if followLast || !rest.isEmpty then
        ⟨true, .inr (target.steps ++ rest, if target.isAbsolute then [] else k)⟩
      else ⟨false, .inl (.ok (k ++ [n]))⟩

theorem bounded_resolveWithin (m : Memory) (followLast : Bool) :
    Leg.Bounded (m.leg followLast) (fun s => s.1.length) (.error .tooManySymlinks)
      fun links s => m.resolveWithin followLast links s.1 s.2 where
  turn := by
    rintro links ⟨_ | ⟨_ | n, rest⟩, k⟩
    · exact resolveWithin_nil ..
    · exact resolveWithin_up ..
    · dsimp only
      rw [resolveWithin_down, leg]
      cases hsight : m.sight (k ++ [n]) with
      | way => rfl
      | file => cases rest <;> rfl
      | link target =>
        dsimp only
        cases followLast || !rest.isEmpty with
        | true => cases links <;> rfl
        | false => rfl
  fair := by
    rintro ⟨_ | ⟨_ | n, rest⟩, k⟩
    · exact .ended nofun
    · exact .moved (Nat.lt_succ_self _)
    · simp only [leg]
      cases m.sight (k ++ [n]) with
      | way => exact .moved (Nat.lt_succ_self _)
      | file =>
        dsimp only
        split
        · exact .ended nofun
        · exact .ended nofun
      | link target =>
        dsimp only
        split
        · exact .link _ _
        · exact .ended nofun

end Memory

namespace Root

/-- What is reached by a link with the given target: the moves of the link come before the remaining
ones. -/
def behindLink (r : Root) (escape : FileError) (rest : List Step) (trail : Trail) (target : Path) :
    Except FileError Endpoint ⊕ (List Step × Trail) :=
  if target.isAbsolute then
    match r.path.remainder? target with
    | none => .inl (.error escape)
    | some rel => .inr (rel.steps ++ rest, [])
  else .inr (target.steps ++ rest, trail)

/-- What a walk does next with the steps that are left, from the end of a trail. -/
def leg (r : Root) (t : Tree) (escape : FileError) (followLast : Bool) :
    List Step × Trail → Leg (List Step × Trail) (Except FileError Endpoint)
  | ([], trail) => ⟨false, .inl (.ok (r.endpoint trail none))⟩
  | (.up :: _, []) => ⟨false, .inl (.error escape)⟩
  | (.up :: rest, _ :: above) => ⟨false, .inr (rest, above)⟩
  | (.down n :: rest, trail) =>
    match statIn t (r.current trail) n with
    | .error e => ⟨false, .inl (.error e)⟩
    | .ok none =>
      if rest.isEmpty then ⟨false, .inl (.ok (r.endpoint trail (some n)))⟩
      else ⟨false, .inl (.error .entityNotFound)⟩
    | .ok (some s) =>
      if s.isSymlink && (followLast || !rest.isEmpty) then
        ⟨true, match linkIn t (r.current trail) n with
          | .error e => .inl (.error e)
          | .ok target => r.behindLink escape rest trail target⟩
      else if rest.isEmpty then ⟨false, .inl (.ok (r.endpoint trail (some n)))⟩
      else if !s.isDir then ⟨false, .inl (.error .baseNotDirectory)⟩
      else ⟨false, match dirIn t (r.current trail) n with
        | .error e => .inl (.error e)
        | .ok i => .inr (rest, (n, i) :: trail)⟩

variable {r : Root} {t : Tree} {escape : FileError} {followLast : Bool}

theorem mapError_ne_tooManySymlinks {β : Type} {x : Except Errno β} (hx : Tree.FollowsNone x) :
    x.mapError FileError.ofErrno ≠ .error .tooManySymlinks := by
  cases x with
  | ok b => exact nofun
  | error e =>
    have he : e ≠ .loop := fun heq => hx (congrArg Except.error heq)
    exact fun heq => FileError.ofErrno_ne_tooManySymlinks he (Except.error.inj heq)

theorem statIn_ne_tooManySymlinks (t : Tree) (dir : NodeId) (n : Name) :
    statIn t dir n ≠ .error .tooManySymlinks := by
  have hnone := Tree.followsNone_placeIn_bind (Tree.followsNone_statAt t dir n)
  unfold statIn
  cases hstat : (Tree.placeIn dir n).bind t.statAt with
  | ok s => exact nofun
  | error e =>
    dsimp only
    split
    · exact nofun
    · have he : e ≠ .loop := fun heq => hnone (hstat.trans (congrArg Except.error heq))
      exact fun heq => FileError.ofErrno_ne_tooManySymlinks he (Except.error.inj heq)

theorem linkIn_ne_tooManySymlinks (t : Tree) (dir : NodeId) (n : Name) :
    linkIn t dir n ≠ .error .tooManySymlinks :=
  mapError_ne_tooManySymlinks (Tree.followsNone_placeIn_bind (Tree.followsNone_readlinkAt t dir n))

theorem dirIn_ne_tooManySymlinks (t : Tree) (dir : NodeId) (n : Name) :
    dirIn t dir n ≠ .error .tooManySymlinks :=
  mapError_ne_tooManySymlinks (Tree.followsNone_placeIn_bind (Tree.followsNone_openDirAt t dir n))

theorem ne_of_eq_error {β γ : Type} {x : Except FileError β} {e e' : FileError}
    (h : x = .error e) (hx : x ≠ .error e') : (.error e : Except FileError γ) ≠ .error e' :=
  fun heq => hx (h.trans (congrArg Except.error (Except.error.inj heq)))

theorem advance_turn (jump : Option (List Step → Trail → Except FileError Endpoint))
    (s : List Step × Trail) : r.advance t escape followLast jump s.1 s.2 =
      match (r.leg t escape followLast s).byLink, jump with
      | false, jump => (r.leg t escape followLast s).next.elim id fun s =>
        r.advance t escape followLast jump s.1 s.2
      | true, some jump => (r.leg t escape followLast s).next.elim id fun s => jump s.1 s.2
      | true, none => .error .tooManySymlinks := by
  obtain ⟨_ | ⟨_ | n, rest⟩, trail⟩ := s
  · rfl
  · cases trail <;> rfl
  · simp only [advance, leg, bind, Except.bind]
    cases hstat : statIn t (r.current trail) n with
    | error e => rfl
    | ok found =>
      cases found with
      | none => cases rest <;> rfl
      | some s =>
        dsimp only
        cases s.isSymlink && (followLast || !rest.isEmpty) with
        | true =>
          cases jump with
          | none => rfl
          | some jump =>
            cases linkIn t (r.current trail) n with
            | error e => rfl
            | ok target =>
              simp only [behindLink, if_true]
              cases target.isAbsolute with
              | true => cases r.path.remainder? target <;> rfl
              | false => rfl
        | false =>
          cases rest.isEmpty with
          | true => rfl
          | false =>
            cases s.isDir with
            | false => rfl
            | true => cases dirIn t (r.current trail) n <;> rfl

theorem bounded_walkWithin (r : Root) (t : Tree) (followLast : Bool)
    (hescape : escape ≠ .tooManySymlinks) :
    Leg.Bounded (r.leg t escape followLast) (fun s => s.1.length) (.error .tooManySymlinks)
      fun links s => r.walkWithin t escape followLast links s.1 s.2 where
  turn := by
    intro links s
    cases links with
    | zero =>
      refine (advance_turn none s).trans ?_
      cases (r.leg t escape followLast s).byLink <;> rfl
    | succ links =>
      refine (advance_turn (some _) s).trans ?_
      cases (r.leg t escape followLast s).byLink <;> rfl
  fair := by
    have hescape' : (.error escape : Except FileError Endpoint) ≠ .error .tooManySymlinks :=
      fun heq => hescape (Except.error.inj heq)
    rintro ⟨_ | ⟨_ | n, rest⟩, trail⟩
    · exact .ended nofun
    · cases trail with
      | nil => exact .ended hescape'
      | cons e above => exact .moved (Nat.lt_succ_self _)
    · simp only [leg]
      cases hstat : statIn t (r.current trail) n with
      | error e => exact .ended (ne_of_eq_error hstat (statIn_ne_tooManySymlinks t _ n))
      | ok found =>
        cases found with
        | none =>
          dsimp only
          split
          · exact .ended nofun
          · exact .ended nofun
        | some s =>
          dsimp only
          split
          · cases hlink : linkIn t (r.current trail) n with
            | error e => exact .ended (ne_of_eq_error hlink (linkIn_ne_tooManySymlinks t _ n))
            | ok target =>
              dsimp only [behindLink]
              split
              · cases r.path.remainder? target with
                | none => exact .ended hescape'
                | some rel => exact .link _ _
              · exact .link _ _
          · split
            · exact .ended nofun
            · split
              · exact .ended nofun
              · cases hdir : dirIn t (r.current trail) n with
                | error e => exact .ended (ne_of_eq_error hdir (dirIn_ne_tooManySymlinks t _ n))
                | ok i => exact .moved (Nat.lt_succ_self _)

end Root

/-- No path is followed through more than forty links, and a walk is refused if and only if the
same walk without a bound meets another one. This holds in memory, for any index, and inside of a
root, for any tree of the system, wherever the links of either lead. -/
theorem linkLimit_exact :
    (∀ (m : Memory) (p : Path) (followLast : Bool),
      Leg.CutOff (m.leg followLast) (.inr (p.steps, [])) 40 (.error .tooManySymlinks)
        (m.resolve p followLast)) ∧
    ∀ (r : Root) (t : Tree) (p : Path) (followLast : Bool),
      Leg.CutOff (r.leg t (.pathEscapesParent p) followLast)
        (if p.isAbsolute then .inl (.error (.pathEscapesParent p)) else .inr (p.steps, [])) 40
        (.error .tooManySymlinks) (r.walk t p followLast) := by
  refine ⟨fun m p followLast => ?_, fun r t p followLast => ?_⟩
  · have hbounded := Memory.bounded_resolveWithin m followLast
    exact hbounded.cutOff (fun _ hs => absurd hs Sum.inr_ne_inl) linkLimit
  · have hescape : FileError.pathEscapesParent p ≠ .tooManySymlinks := fun heq => by cases heq
    have hbounded := Root.bounded_walkWithin r t followLast hescape
    rw [Root.walk]
    cases p.isAbsolute with
    | true =>
      refine hbounded.cutOff (x := .inl (.error (.pathEscapesParent p))) ?_ linkLimit
      rintro _ ⟨⟩ heq
      exact hescape (Except.error.inj heq)
    | false => exact hbounded.cutOff (fun _ hs => absurd hs Sum.inr_ne_inl) linkLimit

/-- The link leads to itself by way of itself, so that following it only adds to what is left. -/
example : (Memory.symlink ⟨[115, 47, 115]⟩ ⟨[115]⟩ .fresh).2.resolve ⟨[115]⟩ true =
    .error .tooManySymlinks := by rfl

end ConfinedFs
