import ConfinedFs.Proofs.Path.Retracing
import ConfinedFs.Proofs.Rooted.Agreement

/-!
Walks that go back up. A step down into a directory and the step up after it change nothing for the
steps that come next: the walk is where it was, and has followed as many links. So a walk ends as
one that leaves out both, unless they are the last steps it makes. Then it ends on a directory
without a name, and the other one at the name of the directory or at a link to it. All of this is
kept when directories are made, for a walk that has found something finds it again.
-/

namespace ConfinedFs.Root

open ConfinedFs.Os ConfinedFs.Path

variable {r : Root} {t u : Tree} {l : Endpoint} {n : Name} {dir i : NodeId} {trail trail' : Trail}
  {escape : FileError} {followLast : Bool} {links links' : Nat} {steps rest : List Step}

section Opened

/-- What can be opened is known to be a directory. -/
theorem statIn_of_dirIn (h : dirIn t dir n = .ok i) :
    ∃ s, statIn t dir n = .ok (some s) ∧ s.isSymlink = false ∧ s.isDir = true := by
  obtain ⟨hplace, hopen⟩ := Tree.of_placeIn_bind (ok_of_mapError h)
  obtain ⟨hexisting, hdir⟩ := Tree.existing_of_openDirAt hopen
  exact statIn_of_isDir hplace (Tree.lookup_of_existing hexisting) hdir

theorem searched_of_dirIn (h : dirIn t dir n = .ok i) : ∃ d, t.searched dir = .ok d := by
  obtain ⟨d, hd, _⟩ := Tree.lookup_eq_ok_iff.1 (isDir_of_dirIn h).1
  exact ⟨d, hd⟩

end Opened

section Reaching

/-- The location is the directory a trail has led to, with or without its name. -/
def Arrives (r : Root) (t : Tree) (l : Endpoint) (trail : Trail) : Prop :=
  l = r.endpoint trail none ∨ ∃ m i above,
    trail = (m, i) :: above ∧ l = r.endpoint above (some m) ∧
      dirIn t (r.current above) m = .ok i

/-- The steps lead a walk from one trail to another one, however it goes on from there. If it does
not go on, and follows a link in the last place, it ends on the directory it has come to. -/
structure Reaches (r : Root) (t : Tree) (links : Nat) (steps : List Step) (trail : Trail)
    (links' : Nat) (trail' : Trail) : Prop where
  goesOn : ∀ escape followLast rest, rest ≠ [] →
    r.walkWithin t escape followLast links (steps ++ rest) trail =
      r.walkWithin t escape followLast links' rest trail'
  ends : ∀ escape, ∃ l, r.walkWithin t escape true links steps trail = .ok l ∧ r.Arrives t l trail'

theorem walkWithin_nil : r.walkWithin t escape followLast links [] trail =
    .ok (r.endpoint trail none) := by
  cases links <;> rfl

theorem walkWithin_up {e : Name × NodeId} : r.walkWithin t escape followLast links (.up :: rest)
    (e :: trail) = r.walkWithin t escape followLast links rest trail := by
  cases links <;> rfl

theorem walkWithin_up_root :
    r.walkWithin t escape followLast links (.up :: rest) [] = .error escape := by
  cases links <;> rfl

theorem walkWithin_of_dirIn (hopen : dirIn t (r.current trail) n = .ok i) (hne : rest ≠ []) :
    r.walkWithin t escape followLast links (.down n :: rest) trail =
      r.walkWithin t escape followLast links rest ((n, i) :: trail) := by
  obtain ⟨s, hstat, hlink, hdir⟩ := statIn_of_dirIn hopen
  cases links <;> exact advance_of_dir hstat (by rw [hlink]; rfl) hne hdir hopen

theorem walkWithin_last_of_dirIn (hopen : dirIn t (r.current trail) n = .ok i) :
    r.walkWithin t escape followLast links [.down n] trail =
      .ok (r.endpoint trail (some n)) := by
  obtain ⟨s, hstat, hlink, _⟩ := statIn_of_dirIn hopen
  cases links <;> simp [walkWithin, advance, hstat, hlink, bind, Except.bind]

/-- A walk that does not follow a link in the last place ends there. -/
theorem eq_of_walkWithin_last (hl : r.walkWithin t escape false links [.down n] trail = .ok l) :
    l = r.endpoint trail (some n) := by
  have hends : ∀ jump, r.advance t escape false jump [.down n] trail = .ok l →
      l = r.endpoint trail (some n) := by
    intro jump hl
    obtain ⟨_, hend, _⟩ | ⟨s, _, _, _, hfollow, _⟩ | ⟨_, _, _, _, hne, _⟩ := advance_down_cases hl
    · exact hend
    · simp at hfollow
    · exact absurd rfl hne
  cases links with
  | zero => exact hends _ hl
  | succ links => exact hends _ hl

theorem statIn_of_walkWithin
    (hl : r.walkWithin t escape followLast links (.down n :: rest) trail = .ok l) :
    ∃ found, statIn t (r.current trail) n = .ok found := by
  cases hstat : statIn t (r.current trail) n with
  | ok found => exact ⟨found, rfl⟩
  | error e =>
    cases links <;> simp [walkWithin, advance, hstat, bind, Except.bind] at hl

/-- Where a walk that is handed over goes on does not depend on the rest of the steps. -/
theorem handOver_of_ok {f : List Step → Trail → Except FileError Endpoint} {target : Path}
    (h : r.handOver escape rest trail target f = .ok l) :
    ∃ before trail', ∀ escape rest (f : List Step → Trail → Except FileError Endpoint),
      r.handOver escape rest trail target f = f (before ++ rest) trail' := by
  unfold handOver at h ⊢
  split at h
  · next habsolute =>
    cases hrel : r.path.remainder? target with
    | none =>
      rw [hrel] at h
      cases h
    | some rel => exact ⟨rel.steps, [], fun _ _ _ => by rw [if_pos habsolute]⟩
  · next hrelative => exact ⟨target.steps, trail, fun _ _ _ => by rw [if_neg hrelative]⟩

/-- A walk that makes a step down and more steps comes to an end only if it goes on in a directory
or at a link. -/
theorem walkWithin_down_cases (hne : rest ≠ [])
    (hl : r.walkWithin t escape followLast links (.down n :: rest) trail = .ok l) :
    (∃ i, dirIn t (r.current trail) n = .ok i ∧
      r.walkWithin t escape followLast links rest ((n, i) :: trail) = .ok l) ∨
    ∃ links' before trail', links = links' + 1 ∧
      r.walkWithin t escape followLast links' (before ++ rest) trail' = .ok l ∧
      ∀ escape followLast rest, (followLast = true ∨ rest ≠ []) →
        r.walkWithin t escape followLast links (.down n :: rest) trail =
          r.walkWithin t escape followLast links' (before ++ rest) trail' := by
  have hdirectory : ∀ jump, (∃ s i, statIn t (r.current trail) n = .ok (some s) ∧
      (s.isSymlink && (followLast || !rest.isEmpty)) = false ∧ rest ≠ [] ∧ s.isDir = true ∧
      dirIn t (r.current trail) n = .ok i ∧
      r.advance t escape followLast jump rest ((n, i) :: trail) = .ok l) →
      ∃ i, dirIn t (r.current trail) n = .ok i ∧
        r.advance t escape followLast jump rest ((n, i) :: trail) = .ok l :=
    fun _ ⟨_, i, _, _, _, _, hopen, hgo⟩ => ⟨i, hopen, hgo⟩
  cases links with
  | zero =>
    obtain ⟨rfl, _⟩ | ⟨_, _, _, _, _, hf, _⟩ | hdir := advance_down_cases hl
    · exact absurd rfl hne
    · cases hf
    · exact .inl (hdirectory none hdir)
  | succ links =>
    obtain ⟨rfl, _⟩ | ⟨s, f, target, hstat, hfollow, hf, htarget, hover⟩ | hdir :=
      advance_down_cases hl
    · exact absurd rfl hne
    · cases hf
      have hlink : s.isSymlink = true := (Bool.and_eq_true_iff.1 hfollow).1
      obtain ⟨before, trail', hgo⟩ := handOver_of_ok hover
      refine .inr ⟨links, before, trail', rfl, (hgo _ _ _).symm.trans hover, ?_⟩
      intro escape followLast rest hfollows
      refine (advance_of_link hstat ?_ rfl htarget).trans (hgo escape rest _)
      rcases hfollows with rfl | hne
      · simp [hlink]
      · simp [hlink, hne]
    · exact .inl (hdirectory _ hdir)

theorem reaches_nil : r.Reaches t links [] trail links trail :=
  ⟨fun _ _ _ _ => rfl, fun _ => ⟨_, walkWithin_nil, .inl rfl⟩⟩

section Inside

variable (h : r.Reaches t links steps trail links' trail')
  (hopen : dirIn t (r.current trail') n = .ok i)

include h hopen

theorem Reaches.into : r.Reaches t links (steps ++ [.down n]) trail links' ((n, i) :: trail') := by
  have hinto : [Step.down n] ≠ [] := nofun
  refine ⟨fun escape followLast rest hrest => ?_, fun escape => ?_⟩
  · rw [List.append_assoc, h.goesOn _ _ _ (List.append_ne_nil_of_left_ne_nil hinto rest)]
    exact walkWithin_of_dirIn hopen hrest
  · rw [h.goesOn _ _ _ hinto]
    exact ⟨_, walkWithin_last_of_dirIn hopen, .inr ⟨n, i, trail', rfl, rfl, hopen⟩⟩

/-- The step into a directory and the step up after it lead nowhere. -/
theorem Reaches.walkWithin_back (escape : FileError) (followLast : Bool) (rest : List Step) :
    r.walkWithin t escape followLast links (steps ++ .down n :: .up :: rest) trail =
      r.walkWithin t escape followLast links' rest trail' := by
  have hinto : Step.down n :: .up :: rest ≠ [] := nofun
  have hback : Step.up :: rest ≠ [] := nofun
  rw [h.goesOn _ _ _ hinto, walkWithin_of_dirIn hopen hback, walkWithin_up]

theorem Reaches.back : r.Reaches t links (steps ++ [.down n, .up]) trail links' trail' := by
  refine ⟨fun escape followLast rest _ => ?_, fun escape => ?_⟩
  · rw [List.append_assoc]
    exact h.walkWithin_back hopen escape followLast rest
  · rw [h.walkWithin_back hopen]
    exact ⟨_, walkWithin_nil, .inl rfl⟩

end Inside

/-- Of a walk that comes to an end, any number of steps but all leads somewhere. The induction is on
the links that may be followed, and for each number of them on the steps. -/
theorem reaches_of_walkWithin (hne : rest ≠ [])
    (hl : r.walkWithin t escape followLast links (steps ++ rest) trail = .ok l) :
    ∃ links' trail', r.Reaches t links steps trail links' trail' := by
  induction links using Nat.strongRecOn generalizing steps trail with
  | _ links jumps =>
    induction steps generalizing trail with
    | nil => exact ⟨links, trail, reaches_nil⟩
    | cons step steps ih =>
      cases step with
      | up =>
        cases trail with
        | nil =>
          rw [List.cons_append, walkWithin_up_root] at hl
          cases hl
        | cons e above =>
          rw [List.cons_append, walkWithin_up] at hl
          obtain ⟨links', trail', hreaches⟩ := ih hl
          refine ⟨links', trail', fun escape followLast rest hrest => ?_, fun escape => ?_⟩
          · rw [List.cons_append, walkWithin_up, hreaches.goesOn escape followLast rest hrest]
          · rw [walkWithin_up]
            exact hreaches.ends escape
      | down n =>
        have happend : ∀ {rest : List Step}, rest ≠ [] → steps ++ rest ≠ [] :=
          List.append_ne_nil_of_right_ne_nil steps
        obtain ⟨i, hopen, hgo⟩ | ⟨links₀, before, trail₀, rfl, hover, hjump⟩ :=
          walkWithin_down_cases (happend hne) hl
        · cases steps with
          | nil => exact ⟨links, (n, i) :: trail, reaches_nil.into hopen⟩
          | cons step steps =>
            have hmore : step :: steps ≠ [] := nofun
            obtain ⟨links', trail', hreaches⟩ := ih hgo
            refine ⟨links', trail', fun escape followLast rest hrest => ?_, fun escape => ?_⟩
            · rw [List.cons_append, walkWithin_of_dirIn hopen (happend hrest)]
              exact hreaches.goesOn escape followLast rest hrest
            · rw [walkWithin_of_dirIn hopen hmore]
              exact hreaches.ends escape
        · rw [← List.append_assoc] at hover
          obtain ⟨links', trail', hreaches⟩ := jumps links₀ (Nat.lt_succ_self _) hover
          refine ⟨links', trail', fun escape followLast rest hrest => ?_, fun escape => ?_⟩
          · rw [List.cons_append, hjump escape followLast _ (.inr (happend hrest)),
              ← List.append_assoc]
            exact hreaches.goesOn escape followLast rest hrest
          · rw [hjump escape true steps (.inl rfl)]
            exact hreaches.ends escape

end Reaching

section Again

/-- If the location has a name, there is something under it. -/
def Present (t : Tree) (l : Endpoint) : Prop :=
  ∀ n, l.name = some n → ∃ s, statIn t l.dir n = .ok (some s)

/-- Where a walk of the first tree has found something, the one of the second tree ends as well. -/
def EndsAgain (t : Tree) (f f' : List Step → Trail → Except FileError Endpoint) : Prop :=
  ∀ steps trail l, f steps trail = .ok l → Present t l → f' steps trail = .ok l

/-- The induction is on the steps. All that the first walk has been told the second one is told
again, in the last place as well. -/
theorem advance_endsAgain (h : t.Gains u)
    {jump jump' : Option (List Step → Trail → Except FileError Endpoint)}
    (hjump : ∀ f, jump = some f → ∃ f', jump' = some f' ∧ EndsAgain t f f') :
    EndsAgain t (r.advance t escape followLast jump) (r.advance u escape followLast jump') := by
  intro steps
  induction steps with
  | nil => exact fun _ _ hl _ => hl
  | cons step steps ih =>
    intro trail l hl hpresent
    cases step with
    | up =>
      cases trail with
      | nil => exact hl
      | cons e above => exact ih above l hl hpresent
    | down n =>
      obtain ⟨rfl, rfl, hnolink⟩ | ⟨s, f, target, hstat, hfollow, hf, htarget, hover⟩ |
        ⟨s, i, hstat, hfollow, hne, hdir, hopen, hgo⟩ := advance_down_cases hl
      · obtain ⟨s, hstat⟩ := hpresent n rfl
        have hstat' : statIn u (r.current trail) n = .ok (some s) := statIn_gains h hstat
        simp [advance, hstat', hnolink s hstat, bind, Except.bind]
      · obtain ⟨f', hf', hagain⟩ := hjump f hf
        obtain ⟨before, trail', hgo⟩ := handOver_of_ok hover
        rw [hgo] at hover
        rw [advance_of_link (statIn_gains h hstat) hfollow hf' (linkIn_gains h htarget), hgo]
        exact hagain _ _ _ hover hpresent
      · rw [advance_of_dir (statIn_gains h hstat) hfollow hne hdir (dirIn_gains h hopen)]
        exact ih _ l hgo hpresent

theorem walkWithin_endsAgain (h : t.Gains u) (links : Nat) :
    EndsAgain t (r.walkWithin t escape followLast links)
      (r.walkWithin u escape followLast links) := by
  induction links with
  | zero => exact advance_endsAgain h nofun
  | succ links ih =>
    refine advance_endsAgain h ?_
    rintro _ ⟨⟩
    exact ⟨_, rfl, ih⟩

/-- What a path has led to in the smaller tree it leads to in the larger one. -/
theorem walk_again {p : Path} (h : t.Gains u) (hl : r.walk t p followLast = .ok l)
    (hpresent : Present t l) : r.walk u p followLast = .ok l := by
  unfold walk at hl ⊢
  split
  · next habsolute =>
    rw [if_pos habsolute] at hl
    cases hl
  · next hrelative =>
    rw [if_neg hrelative] at hl
    exact walkWithin_endsAgain h linkLimit _ _ _ hl hpresent

end Again

section Retracing

/-- Is there a directory at the path through the names that can be opened, and not a link to one? -/
def EndsAtDir (r : Root) (t : Tree) (names : List Name) : Prop :=
  ∃ l n i, r.walk t (below names) false = .ok l ∧ l.name = some n ∧ dirIn t l.dir n = .ok i

/-- What becomes of the entry in the last place: a link there is followed, the entry itself is
described, or it is made, moved or removed. -/
inductive LastUse
  | followed
  | described
  | changed

/-- Is a link in the last place followed? -/
def LastUse.follows : LastUse → Bool
  | followed => true
  | described | changed => false

variable {use : LastUse}

/-- May the last step be one up to the path through the names? To describe what is there, it may be
a directory, but not a link to one. To change it, the path must lead back to the root. -/
def MayEndAt (r : Root) (t : Tree) : LastUse → List Name → Prop
  | .followed, _ => True
  | .described, names => names = [] ∨ r.EndsAtDir t names
  | .changed, names => names = []

/-- Does each step up take back such a directory, and may the last one be one up? -/
def Retraces (r : Root) (t : Tree) (use : LastUse) : List Name → List Step → Prop
  | _, [] => True
  | kept, .down n :: rest => r.Retraces t use (kept ++ [n]) rest
  | kept, .up :: rest =>
    r.EndsAtDir t kept ∧ (rest = [] → r.MayEndAt t use kept.dropLast) ∧
      r.Retraces t use kept.dropLast rest

/-- Making directories leaves a directory where it is. -/
theorem EndsAtDir.gains {names : List Name} (h : r.EndsAtDir t names) (hgains : t.Gains u) :
    r.EndsAtDir u names := by
  obtain ⟨l, n, i, hl, hname, hopen⟩ := h
  refine ⟨l, n, i, walk_again hgains hl ?_, hname, dirIn_gains hgains hopen⟩
  intro m hm
  cases hname.symm.trans hm
  obtain ⟨s, hstat, _⟩ := statIn_of_dirIn hopen
  exact ⟨s, hstat⟩

theorem MayEndAt.gains {names : List Name} (h : r.MayEndAt t use names) (hgains : t.Gains u) :
    r.MayEndAt u use names := by
  cases use with
  | followed => trivial
  | described => exact h.imp id fun h => h.gains hgains
  | changed => exact h

theorem Retraces.gains {kept : List Name} (h : r.Retraces t use kept steps) (hgains : t.Gains u) :
    r.Retraces u use kept steps := by
  induction steps generalizing kept with
  | nil => trivial
  | cons step steps ih =>
    cases step with
    | down n => exact ih h
    | up => exact ⟨h.1.gains hgains, fun hlast => (h.2.1 hlast).gains hgains, ih h.2.2⟩

theorem EndsAtDir.exists_concat {names : List Name} (h : r.EndsAtDir t names) :
    ∃ before n, names = before ++ [n] := by
  rcases List.eq_nil_or_concat names with rfl | ⟨before, n, rfl⟩
  · obtain ⟨l, n, i, hl, hname, _⟩ := h
    rw [walk, if_neg (Bool.eq_false_iff.1 (isAbsolute_below [])), steps_below, List.map_nil,
      walkWithin_nil] at hl
    cases hl
    cases hname
  · exact ⟨before, n, List.concat_eq_append⟩

/-- However a walk has come to a place on the way to a directory, it can go on into it. -/
theorem EndsAtDir.dirIn_of_reaches {before : List Name} (h : r.EndsAtDir t (before ++ [n]))
    (hreaches : r.Reaches t linkLimit (before.map .down) [] links trail) :
    ∃ i, dirIn t (r.current trail) n = .ok i := by
  obtain ⟨l, m, i, hl, hname, hopen⟩ := h
  have hlast : [Step.down n] ≠ [] := nofun
  rw [walk, if_neg (Bool.eq_false_iff.1 (isAbsolute_below _)), steps_below, List.map_append,
    List.map_singleton, hreaches.goesOn _ _ _ hlast] at hl
  have hend := eq_of_walkWithin_last hl
  subst hend
  cases hname
  exact ⟨i, hopen⟩

/-- The way to a directory, and into it. -/
theorem EndsAtDir.reaches {before : List Name} (h : r.EndsAtDir t (before ++ [n])) :
    ∃ links trail i, r.Reaches t linkLimit (before.map .down) [] links trail ∧
      dirIn t (r.current trail) n = .ok i := by
  obtain ⟨l, m, i, hl, _⟩ := id h
  have hlast : [Step.down n] ≠ [] := nofun
  rw [walk, if_neg (Bool.eq_false_iff.1 (isAbsolute_below _)), steps_below, List.map_append,
    List.map_singleton] at hl
  obtain ⟨links, trail, hreaches⟩ := reaches_of_walkWithin hlast hl
  obtain ⟨j, hopen⟩ := h.dirIn_of_reaches hreaches
  exact ⟨links, trail, j, hreaches, hopen⟩

/-- Two walks that end in the same way, or, if the entry is not to be changed, on one directory,
which may be searched and which the first one has come to without a name. -/
def EndAlike (r : Root) (t : Tree) (use : LastUse) (x y : Except FileError Endpoint) : Prop :=
  x = y ∨ (use ≠ .changed ∧ ∃ trail l d, x = .ok (r.endpoint trail none) ∧ y = .ok l ∧
    r.Arrives t l trail ∧ t.searched (r.current trail) = .ok d)

/-- A walk into a directory and out of it again. -/
theorem EndsAtDir.endAlike {before : List Name} (h : r.EndsAtDir t (before ++ [n]))
    (hlast : r.MayEndAt t use before) (escape : FileError) : r.EndAlike t use
      (r.walkWithin t escape use.follows linkLimit (before.map .down ++ [.down n, .up]) [])
      (r.walkWithin t escape use.follows linkLimit (before.map .down) []) := by
  cases use with
  | followed =>
    obtain ⟨links, trail, i, hreaches, hopen⟩ := h.reaches
    obtain ⟨l, hl, harrives⟩ := hreaches.ends escape
    obtain ⟨d, hd⟩ := searched_of_dirIn hopen
    exact .inr ⟨nofun, trail, l, d, (hreaches.walkWithin_back hopen ..).trans walkWithin_nil, hl,
      harrives, hd⟩
  | changed =>
    obtain rfl : before = [] := hlast
    obtain ⟨i, hopen⟩ := h.dirIn_of_reaches reaches_nil
    exact .inl (reaches_nil.walkWithin_back hopen ..)
  | described =>
    obtain rfl | habove := hlast
    · obtain ⟨i, hopen⟩ := h.dirIn_of_reaches reaches_nil
      exact .inl (reaches_nil.walkWithin_back hopen ..)
    · obtain ⟨above, m, rfl⟩ := habove.exists_concat
      obtain ⟨links, trail, j, hreaches, hopen⟩ := habove.reaches
      have hinto := hreaches.into hopen
      have hlast : [Step.down m] ≠ [] := nofun
      rw [← List.map_singleton, ← List.map_append] at hinto
      obtain ⟨i, hopened⟩ := h.dirIn_of_reaches hinto
      obtain ⟨d, hd⟩ := searched_of_dirIn hopened
      refine .inr ⟨nofun, (m, j) :: trail, r.endpoint trail (some m), d, ?_, ?_, ?_, hd⟩
      · exact (hinto.walkWithin_back hopened ..).trans walkWithin_nil
      · rw [List.map_append, List.map_singleton, hreaches.goesOn _ _ _ hlast]
        exact walkWithin_last_of_dirIn hopen
      · exact .inr ⟨m, j, trail, rfl, rfl, hopen⟩

/-- The induction is on the steps that come after the names that are kept. A step up takes back the
last one of these, and both walks have less to do. -/
theorem endAlike_of_retraces {kept : List Name} (h : r.Retraces t use kept steps)
    (escape : FileError) : r.EndAlike t use
      (r.walkWithin t escape use.follows linkLimit (kept.map .down ++ steps) [])
      (r.walkWithin t escape use.follows linkLimit ((namesAfter kept steps).map .down) []) := by
  induction steps generalizing kept with
  | nil => exact .inl (by rw [List.append_nil, namesAfter])
  | cons step rest ih =>
    cases step with
    | down n =>
      have hrest := @ih (kept ++ [n]) h
      rwa [List.map_append, List.append_assoc] at hrest
    | up =>
      obtain ⟨hdir, hlast, hretraces⟩ := h
      obtain ⟨before, n, rfl⟩ := hdir.exists_concat
      have hrest := ih hretraces
      rw [List.dropLast_concat] at hlast hrest
      rw [namesAfter, List.dropLast_concat, List.map_append, List.append_assoc,
        List.map_singleton, List.singleton_append]
      by_cases hne : rest = []
      · subst hne
        exact hdir.endAlike (hlast rfl) escape
      · obtain ⟨links, trail, i, hreaches, hopen⟩ := hdir.reaches
        rwa [hreaches.walkWithin_back hopen, ← hreaches.goesOn _ _ _ hne]

end Retracing

end ConfinedFs.Root
