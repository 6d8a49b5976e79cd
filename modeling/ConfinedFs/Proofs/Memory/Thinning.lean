import ConfinedFs.Proofs.Memory.Journey
import ConfinedFs.Proofs.Path.Steps

/-!
Trees from which entries at and below a place have been dropped. A path that led to a place there
leads to it still, unless it goes by way of a link that has been dropped: then it ends at a free
place below, as long as it does not lead up again after the link.
-/

namespace ConfinedFs.Memory

open ConfinedFs.Path

variable {m m' m'' : Memory} {j k r s : Key} {p : Path} {followLast : Bool} {steps : List Step}
  {passed : List Passage} {Q : Passage → Prop} {n : Name}

/-- Entries at and below a place have been dropped, and nothing else has changed. -/
structure Thinned (m : Memory) (k : Key) (m' : Memory) : Prop where
  wellFormed : m'.WellFormed
  outside : ∀ j, ¬ k <+: j → SameAt m m' j
  inside : ∀ j, k <+: j → SameAt m m' j ∨ m'.nodeAt j = none
  cells : m'.cells = m.cells

namespace Thinned

theorem refl (h : m.WellFormed) (k : Key) : Thinned m k m :=
  ⟨h, fun _ _ => ⟨rfl, rfl⟩, fun _ _ => .inl ⟨rfl, rfl⟩, rfl⟩

theorem cases (h : Thinned m k m') (j : Key) : SameAt m m' j ∨ k <+: j ∧ m'.nodeAt j = none := by
  by_cases hj : k <+: j
  · exact (h.inside j hj).imp_right fun hgone => ⟨hj, hgone⟩
  · exact .inl (h.outside j hj)

theorem nodeAt_eq_none (h : Thinned m k m') (hj : m.nodeAt j = none) : m'.nodeAt j = none := by
  rcases h.cases j with hsame | ⟨_, hgone⟩
  · rw [hsame.2, hj]
  · exact hgone

theorem nodeAt_eq_some (h : Thinned m k m') {node : Node} (hj : m'.nodeAt j = some node) :
    m.nodeAt j = some node := by
  rcases h.cases j with hsame | ⟨_, hgone⟩
  · rw [← hsame.2, hj]
  · rw [hgone] at hj
    cases hj

theorem trans (h : Thinned m k m') (h' : Thinned m' k m'') : Thinned m k m'' where
  wellFormed := h'.wellFormed
  outside j hj := ⟨(h'.outside j hj).1.trans (h.outside j hj).1,
    (h'.outside j hj).2.trans (h.outside j hj).2⟩
  inside j hj := by
    rcases h'.inside j hj with hsame' | hgone
    · rcases h.inside j hj with hsame | hgone
      · exact .inl ⟨hsame'.1.trans hsame.1, hsame'.2.trans hsame.2⟩
      · exact .inr (hsame'.2.trans hgone)
    · exact .inr hgone
  cells := h'.cells.trans h.cells

/-- What has changed below a place has changed below each place above it. -/
theorem mono (h : Thinned m j m') (hj : k <+: j) : Thinned m k m' where
  wellFormed := h.wellFormed
  outside i hi := h.outside i fun hstarts => hi (hj.trans hstarts)
  inside i _ := (h.cases i).imp_right And.right
  cells := h.cells

theorem prune (h : m.WellFormed) (hk : k ≠ []) : Thinned m k (m.prune k) where
  wellFormed := h.prune hk
  outside j hj := by
    constructor
    · rw [find?_prune h.sorted, if_neg hj]
    · rw [h.nodeAt_prune, if_neg hj]
  inside j hj := .inr (by rw [h.nodeAt_prune, if_pos hj])
  cells := cells_foldl_dropEntry m _

/-- A walk sees what it saw, or nothing any more. -/
theorem sight_cases (h : Thinned m k m') (j : Key) :
    m'.sight j = m.sight j ∨ k <+: j ∧ m'.nodeAt j = none := by
  refine (h.cases j).imp_left fun hsame => ?_
  unfold sight content
  rw [hsame.2, h.cells]

theorem sight_eq_way (h : Thinned m k m') (hj : m.sight j = .way) : m'.sight j = .way := by
  rcases h.sight_cases j with hsame | ⟨_, hgone⟩
  · rw [hsame, hj]
  · exact sight_of_free hgone

end Thinned

section Downwards

/-- Moves that do not lead up go down. -/
theorem exists_downs (hup : Step.up ∉ steps) : ∃ names : Key, steps = names.map .down := by
  induction steps with
  | nil => exact ⟨[], rfl⟩
  | cons step rest ih =>
    cases step with
    | up => simp at hup
    | down n =>
      obtain ⟨names, rfl⟩ := ih fun hmem => hup (List.mem_cons_of_mem _ hmem)
      exact ⟨n :: names, rfl⟩

/-- Moves down from a free place. -/
theorem Journey.down_free (h : m.WellFormed) (hk : m.nodeAt k = none) (names : Key) :
    Journey m followLast (names.map .down) k [] (k ++ names) := by
  induction names generalizing k with
  | nil =>
    rw [List.append_nil]
    exact .done
  | cons n names ih =>
    have hfree := h.free_concat hk n
    rw [List.append_cons]
    exact .through (sight_of_free hfree) (ih hfree)

/-- One move down, to whatever is there. -/
theorem Journey.one_down (m : Memory) (k : Key) (n : Name) :
    Journey m false [.down n] k [] (k ++ [n]) := by
  cases hsight : m.sight (k ++ [n]) with
  | way => exact .through hsight .done
  | file => exact .atFile hsight
  | link target => exact .atLink hsight rfl

/-- The passage when there are more moves to make in the end. -/
def Passage.before (more : List Step) (l : Passage) : Passage := ⟨l.link, l.rest ++ more⟩

/-- The passage when there is one more move down to make in the end. -/
def Passage.longer (n : Name) (l : Passage) : Passage := ⟨l.link, l.rest ++ [.down n]⟩

/-- A journey that has arrived where it can go on is continued. -/
theorem Journey.append {more : List Step} {followLast' : Bool} {passed' : List Passage}
    (h : Journey m followLast steps k passed j) (hj : m.sight j = .way)
    (hmore : Journey m followLast' more j passed' r) (hfollow' : followLast' = true ∨ more ≠ []) :
    Journey m followLast' (steps ++ more) k (passed.map (Passage.before more) ++ passed') r := by
  induction h with
  | done => exact hmore
  | up _ ih => exact .up (ih hj hmore)
  | through hway _ ih => exact .through hway (ih hj hmore)
  | atFile hfile =>
    rw [hfile] at hj
    cases hj
  | atLink hlink _ =>
    rw [hlink] at hj
    cases hj
  | follow hlink _ _ ih =>
    have hlonger := ih hj hmore
    rw [List.append_assoc] at hlonger
    exact .follow hlink (hfollow'.imp_right fun hne => by simp [hne]) hlonger

/-- A journey that has arrived where it can go on is made longer by one move down. -/
theorem Journey.concat (h : Journey m followLast steps k passed r) (hr : m.sight r = .way)
    (n : Name) :
    Journey m false (steps ++ [.down n]) k (passed.map (Passage.longer n)) (r ++ [n]) := by
  have hlonger := h.append hr (.one_down m r n) (.inr (List.cons_ne_nil _ _))
  rw [List.append_nil] at hlonger
  exact hlonger

end Downwards

section Leading

/-- The path leads to the place by way of links that are like that. A link at its end is not
followed. -/
def Leads (m : Memory) (Q : Passage → Prop) (p : Path) (k : Key) : Prop :=
  ∃ passed, Journey m false p.steps [] passed k ∧ passed.length ≤ linkLimit ∧ ∀ l ∈ passed, Q l

/-- Not at or below the place. -/
def Passage.Aside (k : Key) (l : Passage) : Prop := ¬ k <+: l.link

/-- If the link is at or below the place, the path does not lead up again after it. -/
def Passage.Steady (k : Key) (l : Passage) : Prop := k <+: l.link → Step.up ∉ l.rest

theorem Passage.Aside.steady {l : Passage} (h : l.Aside k) : l.Steady k := fun hl => absurd hl h

theorem Leads.imp {Q' : Passage → Prop} (h : m.Leads Q p k) (hQ : ∀ l, Q l → Q' l) :
    m.Leads Q' p k := by
  obtain ⟨passed, hjourney, hlength, hpassed⟩ := h
  exact ⟨passed, hjourney, hlength, fun l hl => hQ l (hpassed l hl)⟩

/-- A passage is one by way of a link. -/
theorem Journey.exists_link (h : Journey m followLast steps k passed r) :
    ∀ l ∈ passed, ∃ target, m.sight l.link = .link target := by
  induction h with
  | done | atFile | atLink => simp
  | up _ ih => exact ih
  | through _ _ ih => exact ih
  | @follow _ _ _ _ _ target hlink _ _ ih =>
    intro l hl
    rcases List.mem_cons.1 hl with rfl | hl
    · exact ⟨target, hlink⟩
    · exact ih l hl

theorem leads_of_resolve (hk : m.resolve p false = .ok k)
    (hQ : ∀ l target, m.sight l.link = .link target → Q l) : m.Leads Q p k := by
  obtain ⟨passed, hjourney, hlength⟩ := resolve_eq_ok_iff.1 hk
  refine ⟨passed, hjourney, hlength, fun l hl => ?_⟩
  obtain ⟨target, hlink⟩ := hjourney.exists_link l hl
  exact hQ l target hlink

theorem Leads.resolve (h : m.Leads Q p k) : m.resolve p false = .ok k := by
  obtain ⟨passed, hjourney, hlength, -⟩ := h
  exact hjourney.resolveWithin hlength

/-- The entries of a directory are reached by way of the same links as the directory. -/
theorem Leads.child (h : m.Leads Q p.clean k) (hk : m.sight k = .way)
    (hQ : ∀ l n, Q l → Q (l.longer n)) (n : Name) : m.Leads Q (p.join ⟨n.bytes⟩) (k ++ [n]) := by
  obtain ⟨passed, hjourney, hlength, hpassed⟩ := h
  refine ⟨passed.map (Passage.longer n), ?_, by simpa using hlength, ?_⟩
  · rw [steps_join_name]
    exact hjourney.concat hk n
  · intro l hl
    obtain ⟨l, hmem, rfl⟩ := List.mem_map.1 hl
    exact hQ l n (hpassed l hmem)

theorem Passage.Aside.longer {l : Passage} (h : l.Aside k) (n : Name) : (l.longer n).Aside k := h

theorem Passage.Steady.longer {l : Passage} (h : l.Steady k) (n : Name) :
    (l.longer n).Steady k := by
  intro hl hup
  rcases List.mem_append.1 hup with hup | hup
  · exact h hl hup
  · simp at hup

/-- A journey is made as before if the links are there that it follows. -/
theorem Thinned.journey_of_kept (h : Thinned m k m') (hjourney : Journey m false steps j passed r)
    (hkept : ∀ l ∈ passed, m'.sight l.link = m.sight l.link) :
    Journey m' false steps j passed r := by
  induction hjourney with
  | done => exact .done
  | up _ ih => exact .up (ih hkept)
  | through hway _ ih => exact .through (h.sight_eq_way hway) (ih hkept)
  | atFile hfile =>
    rcases h.sight_cases _ with hsame | ⟨_, hgone⟩
    · exact .atFile (hsame.trans hfile)
    · exact .through (sight_of_free hgone) .done
  | atLink hlink hlast =>
    rcases h.sight_cases _ with hsame | ⟨_, hgone⟩
    · exact .atLink (hsame.trans hlink) hlast
    · exact .through (sight_of_free hgone) .done
  | follow hlink hfollow _ ih =>
    have hlink' := (hkept _ (List.mem_cons_self ..)).trans hlink
    exact .follow hlink' hfollow (ih fun l hl => hkept l (List.mem_cons_of_mem _ hl))

theorem Leads.thinned_of_kept (hp : m.Leads Q p r) (h : Thinned m k m')
    (hkept : ∀ l, Q l → m'.sight l.link = m.sight l.link) : m'.Leads Q p r := by
  obtain ⟨passed, hjourney, hlength, hpassed⟩ := hp
  exact ⟨passed, h.journey_of_kept hjourney fun l hl => hkept l (hpassed l hl), hlength, hpassed⟩

/-- A path that goes by way of no link at or below the place leads where it led. -/
theorem Leads.thinned (hp : m.Leads (Passage.Aside k) p r) (h : Thinned m k m') :
    m'.Leads (Passage.Aside k) p r :=
  hp.thinned_of_kept h fun l hl => (h.sight_cases l.link).resolve_right fun hgone => hl hgone.1

/-- In a tree that has been thinned out a journey is made as before, or it meets a free place where
it followed a link and ends below. -/
theorem Thinned.journey (h : Thinned m k m') (hjourney : Journey m false steps j passed r)
    (hpassed : ∀ l ∈ passed, l.Steady k) :
    Journey m' false steps j passed r ∨
      ∃ passed' s, Journey m' false steps j passed' s ∧ passed'.length ≤ passed.length ∧
        k <+: s ∧ m'.nodeAt s = none := by
  induction hjourney with
  | done => exact .inl .done
  | up _ ih =>
    rcases ih hpassed with hsame | ⟨passed', s, hlost, hend⟩
    · exact .inl (.up hsame)
    · exact .inr ⟨passed', s, .up hlost, hend⟩
  | through hway _ ih =>
    have hway' := h.sight_eq_way hway
    rcases ih hpassed with hsame | ⟨passed', s, hlost, hend⟩
    · exact .inl (.through hway' hsame)
    · exact .inr ⟨passed', s, .through hway' hlost, hend⟩
  | atFile hfile => exact .inl (h.journey_of_kept (.atFile hfile) (by simp))
  | atLink hlink hlast => exact .inl (h.journey_of_kept (.atLink hlink hlast) (by simp))
  | @follow n rest j r passed target hlink hfollow _ ih =>
    rcases h.sight_cases (j ++ [n]) with hsame | ⟨hinside, hgone⟩
    · have hlink' := hsame.trans hlink
      rcases ih fun l hl => hpassed l (List.mem_cons_of_mem _ hl) with
        hsame | ⟨passed', s, hlost, hlength, hend⟩
      · exact .inl (.follow hlink' hfollow hsame)
      · exact .inr ⟨_, s, .follow hlink' hfollow hlost, Nat.succ_le_succ hlength, hend⟩
    · -- What is left of the way goes down from where the link was.
      obtain ⟨names, rfl⟩ := exists_downs (hpassed _ (List.mem_cons_self ..) hinside)
      refine .inr ⟨[], j ++ [n] ++ names, ?_, Nat.zero_le _,
        hinside.trans (List.prefix_append ..), h.wellFormed.free_of_prefix hgone (List.prefix_append ..)⟩
      exact .through (sight_of_free hgone) (.down_free h.wellFormed hgone names)

/-- Where a path leads in a thinned tree: to the place it led to, or to a free place. -/
def Ends (k r : Key) (m : Memory) (s : Key) : Prop := s = r ∨ k <+: s ∧ m.nodeAt s = none

theorem Ends.eq_of_stored (h : Ends k r m s) {node : Node} (hnode : m.nodeAt s = some node) :
    s = r := by
  rcases h with heq | ⟨-, hfree⟩
  · exact heq
  · rw [hnode] at hfree
    cases hfree

/-- A path that leads to a place leads there still, or to a free place. -/
theorem Leads.resolve_thinned (hp : m.Leads (Passage.Steady k) p r) (h : Thinned m k m') :
    ∃ s, m'.resolve p false = .ok s ∧ Ends k r m' s := by
  obtain ⟨passed, hjourney, hlength, hpassed⟩ := hp
  rcases h.journey hjourney hpassed with hsame | ⟨passed', s, hlost, hshorter, hend⟩
  · exact ⟨r, hsame.resolveWithin hlength, .inl rfl⟩
  · exact ⟨s, hlost.resolveWithin (Nat.le_trans hshorter hlength), .inr hend⟩

/-- Where neither the path nor a link leads up, no move is left that leads up. -/
theorem Journey.descends (hlinks : ∀ k target, m.sight k = .link target → Step.up ∉ target.steps)
    (h : Journey m followLast steps k passed r) (hup : Step.up ∉ steps) :
    ∀ l ∈ passed, Step.up ∉ l.rest := by
  induction h with
  | done => simp
  | up => simp at hup
  | through _ _ ih => exact ih fun hmem => hup (List.mem_cons_of_mem _ hmem)
  | atFile => simp
  | atLink => simp
  | @follow n rest k r passed target hlink _ _ ih =>
    have hrest : Step.up ∉ rest := fun hmem => hup (List.mem_cons_of_mem _ hmem)
    intro l hl
    rcases List.mem_cons.1 hl with rfl | hl
    · exact hrest
    · exact ih (by simp [hlinks _ _ hlink, hrest]) l hl

/-- A path without any move that leads up is clean but for its spelling. -/
theorem Descends.leads (hp : m.Descends p) (hk : m.resolve p false = .ok k) :
    m.Leads (Passage.Steady k) p k ∧ m.Leads (Passage.Steady k) p.clean k := by
  obtain ⟨passed, hjourney, hlength⟩ := resolve_eq_ok_iff.1 hk
  have hsteady : ∀ l ∈ passed, l.Steady k := fun l hl _ => hjourney.descends hp.2 hp.1 l hl
  refine ⟨⟨passed, hjourney, hlength, hsteady⟩, passed, ?_, hlength, hsteady⟩
  rwa [steps_clean_of_up_notMem hp.1]

end Leading

end ConfinedFs.Memory
