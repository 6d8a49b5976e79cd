import ConfinedFs.Os.Descriptor
import ConfinedFs.Proofs.Os.Growth

/-!
What the system does not find. A tree that has gained directories has lost nothing, so
what is missing in it was missing before: a lookup either goes the same way in both trees
or comes, in the smaller one, to a name that is not there yet. To create a file that has to
be new, the system must have found nothing at its place.
-/

namespace ConfinedFs.Os

open ConfinedFs.Action (Triple)

namespace Tree

variable {t u : Tree} {i dir : NodeId} {d : Directory} {n : Name} {last : LastLink} {p : Path}

/-- The directory above a directory is one. -/
theorem Sound.node?_parent (h : t.Sound) (hd : t.dir? i = some d) : (t.node? d.parent).isSome := by
  obtain ⟨l, hl⟩ := h.grounded hd
  cases hl with
  | here =>
    obtain ⟨top, htop, hparent⟩ := h.top_dir
    rw [hd] at htop
    cases htop
    rw [hparent]
    exact node?_isSome_of_dir? hd
  | up hd' _ hl =>
    rw [hd] at hd'
    cases hd'
    obtain ⟨above, habove⟩ := h.dir?_of_ascends hl hl.mem_self
    exact node?_isSome_of_dir? habove

theorem Sound.node?_top (h : t.Sound) : (t.node? top).isSome := by
  obtain ⟨d, hd, _⟩ := h.top_dir
  exact node?_isSome_of_dir? hd

theorem Sound.node?_of_lookup (h : t.Sound) (hi : t.lookup dir n = .ok i) :
    (t.node? i).isSome := by
  obtain ⟨d, hd, hmem⟩ := mem_entries_of_lookup hi
  exact h.entry_node hd hmem

/-- A lookup that came to a name which is not there, be it on the way or at the end. -/
def EndsNowhere (t : Tree) (x : Except Errno (Place × Bool)) : Prop :=
  x = .error .noEntry ∨
    ∃ dir n strict, x = .ok (.entry dir n, strict) ∧ t.lookup dir n = .error .noEntry

theorem EndsNowhere.of_error {e : Errno} (h : u.EndsNowhere (.error e)) :
    t.EndsNowhere (.error e) :=
  h.imp id fun ⟨_, _, _, heq, _⟩ => nomatch heq

theorem EndsNowhere.lookup_eq {strict : Bool} (h : t.EndsNowhere (.ok (.entry dir n, strict))) :
    t.lookup dir n = .error .noEntry := by
  obtain heq | ⟨_, _, _, heq, hlookup⟩ := h
  · cases heq
  · cases heq
    exact hlookup

section Missing

variable {jump : List Move → NodeId → Bool → Except Errno (Place × Bool)} {moves : List Move}
  {strict : Bool}

/-- A name that is not there is the end of a lookup. -/
theorem endsNowhere_of_missing (h : t.lookup i n = .error .noEntry) :
    t.EndsNowhere (t.advance last jump (.down n :: moves) i strict) := by
  simp only [advance, h]
  cases moves with
  | nil => exact .inr ⟨i, n, strict, rfl, h⟩
  | cons => exact .inl rfl

/-- A lookup that fails at a name comes to an end of another kind, unless the name is not
there. -/
theorem EndsNowhere.missing {e : Errno} (hlookup : t.lookup i n = .error e)
    (h : t.EndsNowhere (t.advance last jump (.down n :: moves) i strict)) : e = .noEntry := by
  simp only [advance, hlookup] at h
  split at h
  · have hfree := h.lookup_eq
    rw [hlookup] at hfree
    exact Except.error.inj hfree
  · obtain heq | ⟨_, _, _, heq, _⟩ := h
    · exact Except.error.inj heq
    · cases heq

end Missing

/-- The induction is on the moves; all directories on the way have been there before, as
long as the lookup has not come to its end in the smaller tree. -/
theorem advance_endsNowhere (h : t.Gains u) (ht : t.Sound)
    {jump jump' : List Move → NodeId → Bool → Except Errno (Place × Bool)}
    (hjump : ∀ moves i strict, (t.node? i).isSome →
      u.EndsNowhere (jump' moves i strict) → t.EndsNowhere (jump moves i strict))
    {moves : List Move} {strict : Bool} (hi : (t.node? i).isSome)
    (hu : u.EndsNowhere (u.advance last jump' moves i strict)) :
    t.EndsNowhere (t.advance last jump moves i strict) := by
  induction moves generalizing i strict with
  | nil => rcases hu with hu | ⟨dir, n, strict', hu, _⟩ <;> cases hu
  | cons move rest ih =>
    cases move with
    | stay =>
      simp only [advance] at hu ⊢
      obtain ⟨e, hs, hs'⟩ | ⟨d, d', hs, hs', _⟩ := h.searched_cases hi
      · rw [hs'] at hu
        rw [hs]
        exact hu.of_error
      · rw [hs'] at hu
        rw [hs]
        exact ih hi hu
    | up =>
      simp only [advance] at hu ⊢
      obtain ⟨e, hs, hs'⟩ | ⟨d, d', hs, hs', hgains⟩ := h.searched_cases hi
      · rw [hs'] at hu
        rw [hs]
        exact hu.of_error
      · rw [hs'] at hu
        rw [hs]
        dsimp only at hu ⊢
        rw [hgains.parent] at hu
        exact ih (ht.node?_parent (searched_eq_ok_iff.1 hs).1) hu
    | down n =>
      rcases h.lookup_cases hi n with hsame | hnone
      case inr => exact endsNowhere_of_missing hnone
      cases hchild : t.lookup i n with
      | error e =>
        have he := hu.missing (hsame.trans hchild)
        exact endsNowhere_of_missing (he ▸ hchild)
      | ok child =>
        have hknown := ht.node?_of_lookup hchild
        have hthere : ¬ u.EndsNowhere (.ok (.entry i n, strict)) := by
          intro hend
          have hfree := hend.lookup_eq
          rw [hsame, hchild] at hfree
          cases hfree
        simp only [advance, hsame, hchild, h.link?_eq hknown] at hu ⊢
        cases hlink : t.link? child with
        | some target =>
          rw [hlink] at hu
          dsimp only at hu ⊢
          split at hu
          · next hfollow =>
            rw [if_pos hfollow]
            refine hjump _ _ _ ?_ hu
            split
            · exact ht.node?_top
            · exact hi
          · exact absurd hu hthere
        | none =>
          rw [hlink] at hu
          dsimp only at hu ⊢
          split at hu
          · exact absurd hu hthere
          · next hmore =>
            rw [if_neg hmore]
            exact ih hknown hu

theorem resolveWithin_endsNowhere (h : t.Gains u) (ht : t.Sound) (links : Nat)
    {moves : List Move} {strict : Bool} (hi : (t.node? i).isSome)
    (hu : u.EndsNowhere (u.resolveWithin last links moves i strict)) :
    t.EndsNowhere (t.resolveWithin last links moves i strict) := by
  induction links generalizing moves i strict with
  | zero =>
    refine advance_endsNowhere h ht ?_ hi hu
    rintro _ _ _ _ (heq | ⟨_, _, _, heq, _⟩) <;> cases heq
  | succ links ih => exact advance_endsNowhere h ht (fun _ _ _ => ih) hi hu

/-- What ends nowhere in the larger tree ended nowhere in the smaller one. -/
theorem resolve_endsNowhere (h : t.Gains u) (ht : t.Sound)
    (hu : u.EndsNowhere (u.resolve p last)) : t.EndsNowhere (t.resolve p last) := by
  unfold resolve at hu ⊢
  cases hcheck : checkPath p.bytes with
  | error e =>
    rw [hcheck] at hu
    exact hu.of_error
  | ok =>
    rw [hcheck] at hu
    simp only [bind, Except.bind] at hu ⊢
    split at hu
    · next hempty =>
      rw [if_pos hempty]
      exact .inl rfl
    · next hfull =>
      rw [if_neg hfull]
      exact resolveWithin_endsNowhere h ht maxLinks ht.node?_top hu

theorem find_of_endsNowhere (h : t.EndsNowhere (t.resolve p last)) :
    t.find p last = .error .noEntry := by
  unfold find
  obtain heq | ⟨dir, n, strict, heq, hlookup⟩ := h
  · rw [heq]
    rfl
  · simp only [heq, existing, occupant, hlookup, bind, Except.bind]
    rfl

end Tree

namespace Call

/-- A file that has to be new is opened only where nothing has been found. -/
theorem triple_openAt_exclusive {t : Tree} {f : OpenFlags} (hcreate : f.create = true)
    (hexclusive : f.exclusive = true) (place : Place) (strict : Bool) :
    Triple (· = t) (openAt f place strict)
      (fun _ _ => ∃ dir n, place = .entry dir n ∧ t.lookup dir n = .error .noEntry)
      fun _ _ => True := by
  have hopen : ∀ i, Triple (· = t) (openNode f i)
      (fun _ _ => ∃ dir n, place = .entry dir n ∧ t.lookup dir n = .error .noEntry)
      fun _ _ => True := by
    intro i
    unfold openNode
    rw [hcreate, hexclusive]
    exact Triple.throw_bind fun _ _ => trivial
  unfold openAt
  refine Triple.guarded (fun _ _ _ => trivial) fun _ => Triple.query_bind ?_ fun _ _ => trivial
  intro found hfound
  cases found with
  | some i => exact Triple.look_bind (Triple.guarded (fun _ _ _ => trivial) fun _ => hopen i)
  | none =>
    cases place with
    | directory i => cases hfound
    | entry dir n =>
      have hlookup := Tree.lookup_of_occupant_eq_none hfound
      exact Triple.always (fun _ _ => ⟨dir, n, rfl, hlookup⟩) fun _ _ => trivial

end Call

end ConfinedFs.Os
