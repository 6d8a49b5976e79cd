import ConfinedFs.Os.Canonical
import ConfinedFs.Proofs.Os.Absence

/-!
What the system finds again. A tree that has gained directories has kept every entry and
every right, so a lookup that came to a node comes to it again, and what it came to keeps its
canonical path. An open request that may create a file finds the node that any other lookup
finds, unless it is refused because its path can only mean a directory.
-/

namespace ConfinedFs.Os.Tree

variable {t u : Tree} {i j : NodeId} {p : Path} {last : LastLink} {place : Place}
  {jump jump' : List Move → NodeId → Bool → Except Errno (Place × Bool)} {moves : List Move}
  {strict strict' : Bool}

section Again

theorem Gains.searched (h : t.Gains u) {d : Directory} (hd : t.searched i = .ok d) :
    ∃ d', u.searched i = .ok d' ∧ d'.parent = d.parent := by
  have hknown := node?_isSome_of_dir? (searched_eq_ok_iff.1 hd).1
  obtain ⟨e, he, _⟩ | ⟨s, s', hs, hs', hgains⟩ := h.searched_cases hknown
  · rw [hd] at he
    cases he
  · rw [hd] at hs
    cases hs
    exact ⟨s', hs', hgains.parent⟩

/-- The induction is on the moves. A lookup whose last name is not there comes to no node. -/
theorem Gains.advance_found (h : t.Gains u) (ht : t.Sound)
    (hjump : ∀ moves i strict, jump moves i strict = .ok (place, strict') →
      jump' moves i strict = .ok (place, strict'))
    (hplace : t.existing place = .ok j)
    (hfound : t.advance last jump moves i strict = .ok (place, strict')) :
    u.advance last jump' moves i strict = .ok (place, strict') := by
  induction moves generalizing i strict with
  | nil => exact hfound
  | cons move rest ih =>
    cases move with
    | stay =>
      simp only [Tree.advance] at hfound ⊢
      cases hd : t.searched i with
      | error e => simp [hd] at hfound
      | ok d =>
        obtain ⟨d', hd', _⟩ := h.searched hd
        simp only [hd, hd'] at hfound ⊢
        exact ih hfound
    | up =>
      simp only [Tree.advance] at hfound ⊢
      cases hd : t.searched i with
      | error e => simp [hd] at hfound
      | ok d =>
        obtain ⟨d', hd', hparent⟩ := h.searched hd
        simp only [hd, hd', hparent] at hfound ⊢
        exact ih hfound
    | down n =>
      simp only [Tree.advance] at hfound ⊢
      cases hchild : t.lookup i n with
      | error e =>
        simp only [hchild] at hfound
        split at hfound
        · cases hfound
          have hlookup := lookup_of_existing hplace
          rw [hchild] at hlookup
          cases hlookup
        · cases hfound
      | ok child =>
        simp only [hchild, h.lookup hchild, h.link?_eq (ht.node?_of_lookup hchild)] at hfound ⊢
        cases hlink : t.link? child with
        | some target =>
          simp only [hlink] at hfound ⊢
          split at hfound
          · next hfollow =>
            rw [if_pos hfollow]
            exact hjump _ _ _ hfound
          · next hkeep =>
            rw [if_neg hkeep]
            exact hfound
        | none =>
          simp only [hlink] at hfound ⊢
          split at hfound
          · next hlast =>
            rw [if_pos hlast]
            exact hfound
          · next hmore =>
            rw [if_neg hmore]
            exact ih hfound

theorem resolve_eq_ok_iff {found : Place × Bool} : t.resolve p last = .ok found ↔
    checkPath p.bytes = .ok () ∧ p.isEmpty = false ∧
      t.resolveWithin last maxLinks (Os.moves p) top (endsInSlash p) = .ok found := by
  unfold resolve
  cases checkPath p.bytes with
  | error e => simp [bind, Except.bind]
  | ok =>
    cases p.isEmpty <;> simp [bind, Except.bind, throw, throwThe, MonadExceptOf.throw]

theorem find_eq_ok_iff : t.find p last = .ok j ↔
    ∃ place strict, t.resolve p last = .ok (place, strict) ∧ t.existing place = .ok j ∧
      (strict = true → t.isDir j = true) := by
  unfold find
  cases t.resolve p last with
  | error e => simp [bind, Except.bind]
  | ok found =>
    obtain ⟨place, strict⟩ := found
    simp only [bind, Except.bind]
    constructor
    · intro hfind
      cases hplace : t.existing place with
      | error e => simp [hplace] at hfind
      | ok i =>
        simp only [hplace] at hfind
        split at hfind
        · cases hfind
        · next hdir =>
          cases hfind
          exact ⟨place, strict, rfl, hplace, fun hstrict => by simpa [hstrict] using hdir⟩
    · rintro ⟨_, _, heq, hplace, hdir⟩
      cases heq
      simp only [hplace]
      rw [if_neg (by simpa using hdir)]
      rfl

/-- What a path leads to it leads to again. -/
theorem Gains.find (h : t.Gains u) (ht : t.Sound) (hfound : t.find p last = .ok j) :
    u.find p last = .ok j := by
  obtain ⟨place, strict, hresolve, hplace, hstrict⟩ := find_eq_ok_iff.1 hfound
  obtain ⟨hcheck, hempty, hwithin⟩ := resolve_eq_ok_iff.1 hresolve
  have hagain : ∀ links moves i strict', t.resolveWithin last links moves i strict' =
      .ok (place, strict) → u.resolveWithin last links moves i strict' = .ok (place, strict) := by
    intro links
    induction links with
    | zero => exact fun _ _ _ => h.advance_found ht (fun _ _ _ heq => by cases heq) hplace
    | succ links ih => exact fun _ _ _ => h.advance_found ht ih hplace
  refine find_eq_ok_iff.2 ⟨place, strict, ?_, h.existing hplace, fun hs => h.isDir (hstrict hs)⟩
  exact resolve_eq_ok_iff.2 ⟨hcheck, hempty, hagain _ _ _ _ hwithin⟩

/-- The induction is on the fields of the path. -/
theorem Gains.canonicalAdvance (h : t.Gains u) (ht : t.Sound)
    {jump jump' : List Bytes → Spot → Except Errno Spot} {l : List Bytes} {s s' : Spot}
    (hjump : ∀ l s, jump l s = .ok s' → jump' l s = .ok s')
    (hfound : t.canonicalAdvance jump l s = .ok s') : u.canonicalAdvance jump' l s = .ok s' := by
  induction l generalizing s with
  | nil => exact hfound
  | cons field rest ih =>
    obtain ⟨i, above⟩ := s
    rw [Tree.canonicalAdvance] at hfound ⊢
    split at hfound
    · exact ih hfound
    · exact ih hfound
    · cases hd : t.dir? i with
      | none =>
        rw [hd] at hfound
        cases hfound
      | some d =>
        obtain ⟨d', hd', hgains⟩ := h.dirs hd
        rw [hd] at hfound
        rw [hd']
        dsimp only
        rw [hgains.parent]
        exact ih hfound
    · obtain ⟨_, hchecked, hrest⟩ := exists_of_bind_eq_ok hfound
      obtain ⟨child, hchild, hgo⟩ := exists_of_bind_eq_ok hrest
      have hknown := ht.node?_of_lookup hchild
      simp only [hchecked, h.lookup hchild, h.link?_eq hknown, h.isDir_eq hknown, bind, Except.bind]
      cases hlink : t.link? child with
      | some target =>
        rw [hlink] at hgo
        exact hjump _ _ hgo
      | none =>
        rw [hlink] at hgo
        dsimp only at hgo ⊢
        split at hgo
        · cases hgo
        · next hdir =>
          rw [if_neg hdir]
          exact ih hgo

/-- What had a canonical path has it again. -/
theorem Gains.canonical (h : t.Gains u) (ht : t.Sound) {q : Path} (hfound : t.canonical p = .ok q) :
    u.canonical p = .ok q := by
  have hagain : ∀ links l s s', t.canonicalWithin links l s = .ok s' →
      u.canonicalWithin links l s = .ok s' := by
    intro links
    induction links with
    | zero => exact fun _ _ _ => h.canonicalAdvance ht fun _ _ heq => by cases heq
    | succ links ih => exact fun _ _ _ => h.canonicalAdvance ht fun _ _ => ih _ _ _
  obtain ⟨_, hzero, hrest⟩ := exists_of_bind_eq_ok hfound
  unfold Tree.canonical
  rw [hzero]
  simp only [bind, Except.bind]
  split at hrest
  · cases hrest
  · next hempty =>
    obtain ⟨s, hs, hdone⟩ := exists_of_bind_eq_ok hrest
    cases hdone
    rw [if_neg hempty, hagain _ _ _ _ hs]
    rfl

end Again

section Creating

/-- Where the path may mean a file, a lookup that may create one has followed what any other
lookup follows. -/
theorem advance_create
    (hjump : ∀ moves i strict, jump moves i strict = .ok (place, false) →
      jump' moves i strict = .ok (place, false))
    (hfound : t.advance .create jump moves i strict = .ok (place, false)) :
    t.advance .follow jump' moves i strict = .ok (place, false) := by
  induction moves generalizing i strict with
  | nil => exact hfound
  | cons move rest ih =>
    cases move with
    | stay =>
      simp only [advance] at hfound ⊢
      cases hd : t.searched i with
      | error e => simp [hd] at hfound
      | ok d =>
        simp only [hd] at hfound ⊢
        exact ih hfound
    | up =>
      simp only [advance] at hfound ⊢
      cases hd : t.searched i with
      | error e => simp [hd] at hfound
      | ok d =>
        simp only [hd] at hfound ⊢
        exact ih hfound
    | down n =>
      simp only [advance] at hfound ⊢
      cases hchild : t.lookup i n with
      | error e =>
        simp only [hchild] at hfound ⊢
        exact hfound
      | ok child =>
        simp only [hchild] at hfound ⊢
        cases hlink : t.link? child with
        | some target =>
          simp only [hlink] at hfound ⊢
          rw [if_pos (show (LastLink.follow.follows strict || !rest.isEmpty) = true from rfl)]
          split at hfound
          · exact hjump _ _ _ hfound
          · next hkeep =>
            -- The link is kept because the path can only mean a directory.
            cases hfound
            simp [LastLink.follows] at hkeep
        | none =>
          simp only [hlink] at hfound ⊢
          split at hfound
          · next hlast =>
            rw [if_pos hlast]
            exact hfound
          · next hmore =>
            rw [if_neg hmore]
            exact ih hfound

theorem resolve_create (h : t.resolve p .create = .ok (place, false)) :
    t.resolve p .follow = .ok (place, false) := by
  obtain ⟨hcheck, hempty, hwithin⟩ := resolve_eq_ok_iff.1 h
  have hsame : ∀ links moves i strict, t.resolveWithin .create links moves i strict =
      .ok (place, false) → t.resolveWithin .follow links moves i strict = .ok (place, false) := by
    intro links
    induction links with
    | zero => exact fun _ _ _ => advance_create fun _ _ _ heq => by cases heq
    | succ links ih => exact fun _ _ _ => advance_create ih
  exact resolve_eq_ok_iff.2 ⟨hcheck, hempty, hsame _ _ _ _ hwithin⟩

end Creating

end ConfinedFs.Os.Tree
