import ConfinedFs.Os.Canonical
import ConfinedFs.Proofs.Os.Presence
import ConfinedFs.Proofs.Path.Steps

/-!
Straight ways down. The canonical path of what a path leads to consists of names that lead
there from the top, each of them found in the one before and none of them a link. Whoever
makes these moves, with whatever `.` between them, comes to the same place.
-/

namespace ConfinedFs

open ConfinedFs.Bytes

namespace Os

/-- The step that a move makes. To stay is none. -/
def Move.step? : Move → Option Step
  | stay => none
  | up => some .up
  | down n => some (.down n)

/-- The steps that moves make. -/
def stepsOf (ms : List Move) : List Step := ms.filterMap Move.step?

@[simp]
theorem stepsOf_append (ms ms' : List Move) : stepsOf (ms ++ ms') = stepsOf ms ++ stepsOf ms' :=
  List.filterMap_append

theorem Move.ofField?_bytes (n : Name) : ofField? n.bytes = some (.down n) := by
  have hdot : n.bytes ≠ [dot] := Component.text_ne_dot (Component.isInner_name n)
  have hdots : n.bytes ≠ [dot, dot] := by
    intro heq
    have hvalid := n.valid
    rw [heq] at hvalid
    cases hvalid
  rw [ofField?, if_neg hdot, if_neg hdots, Name.ofBytes?_bytes]
  rfl

theorem moves_ofNames (names : List Name) : moves (Path.ofNames names) = names.map .down := by
  by_cases hne : names = []
  · subst hne
    rfl
  · have hfirst : Move.ofField? [] = none := rfl
    rw [moves, Path.fields_ofNames _ hne, List.filterMap_cons, hfirst, List.filterMap_map]
    exact (congrArg (List.filterMap · names) (funext Move.ofField?_bytes)).trans
      (congrFun List.filterMap_eq_map' names)

/-- The system reads a path as everyone does. -/
theorem stepsOf_moves (p : Path) : stepsOf (moves p) = p.steps := by
  have hfield : ∀ field, (Move.ofField? field).bind Move.step? =
      (Component.ofField? field).bind Step.ofComponent? := by
    intro field
    unfold Move.ofField? Component.ofField?
    by_cases hdot : field = [dot]
    · subst hdot
      rfl
    · by_cases hdots : field = [dot, dot]
      · subst hdots
        rfl
      · rw [if_neg hdot, if_neg hdots, if_neg hdots]
        cases Name.ofBytes? field <;> rfl
  rw [Path.steps_eq_inner, stepsOf, moves, Path.inner, List.filterMap_filterMap,
    List.filterMap_filterMap]
  exact congrArg (List.filterMap · _) (funext hfield)

section Exact

variable {ms ms' : List Move} {strict : Bool} {n : Name} {p target : Path}

/-- Moves that lead to a name end in it, and the path they belong to may mean a file. -/
def Exact (ms : List Move) (strict : Bool) : Prop :=
  ∀ n, (stepsOf ms).getLast? = some (.down n) → strict = false ∧ ms.getLast? = some (.down n)

theorem Exact.suffix (h : Exact ms strict) (hends : ms' <:+ ms) : Exact ms' strict := by
  obtain ⟨before, rfl⟩ := hends
  intro n hlast
  have hne : ms' ≠ [] := by
    rintro rfl
    cases hlast
  obtain ⟨hstrict, hname⟩ := h n (by simp [List.getLast?_append, hlast])
  obtain ⟨m, hm⟩ := Option.isSome_iff_exists.1 (List.getLast?_isSome.2 hne)
  exact ⟨hstrict, by simpa [List.getLast?_append, hm] using hname⟩

/-- A path that ends in a name does not end in a separator. -/
theorem exact_moves (h : p.EndsInName) : Exact (moves p) (endsInSlash p) := by
  intro n hlast
  rw [stepsOf_moves] at hlast
  have hfield := h n hlast
  obtain ⟨before, hfields⟩ := List.getLast?_eq_some_iff.1 hfield
  refine ⟨?_, ?_⟩
  · rw [endsInSlash, Bool.eq_false_iff]
    intro hslash
    obtain ⟨bytes, hbytes⟩ := List.getLast?_eq_some_iff.1 (beq_iff_eq.1 hslash)
    rw [hbytes, fields_append] at hfield
    have hempty : ([] : Bytes) = n.bytes := by simpa [fields] using hfield
    exact Component.text_ne_nil (Component.isInner_name n) hempty.symm
  · simp [moves, hfields, Move.ofField?_bytes]

theorem Exact.eq_nil (h : Exact (.down n :: ms) strict) (hms : stepsOf ms = []) :
    ms = [] ∧ strict = false := by
  have hlast : (stepsOf (.down n :: ms)).getLast? = some (.down n) := by
    simp [stepsOf, Move.step?, show ms.filterMap Move.step? = [] from hms]
  obtain ⟨hstrict, hname⟩ := h n hlast
  refine ⟨?_, hstrict⟩
  rcases List.eq_nil_or_concat ms with rfl | ⟨ms, m, rfl⟩
  · rfl
  · have hm : m = .down n := by simpa [List.getLast?_cons] using hname
    subst hm
    simp [stepsOf, Move.step?] at hms

/-- At a link the moves of its target come before those that remain. -/
theorem Exact.jump (h : Exact (.down n :: ms) strict) (htarget : target.EndsInName) :
    Exact (moves target ++ ms) (strict || (ms.isEmpty && endsInSlash target)) := by
  by_cases hsteps : stepsOf ms = []
  · obtain ⟨rfl, rfl⟩ := h.eq_nil hsteps
    simpa using exact_moves htarget
  · intro m hlast
    have hne : ms ≠ [] := fun heq => hsteps (by rw [heq]; rfl)
    obtain ⟨step, hstep⟩ := Option.isSome_iff_exists.1 (List.getLast?_isSome.2 hsteps)
    obtain ⟨hstrict, hname⟩ := h.suffix (List.suffix_cons ..) m
      (by simpa [List.getLast?_append, hstep] using hlast)
    exact ⟨by simp [hstrict, hne], by simp [List.getLast?_append, hname]⟩

end Exact

namespace Tree

variable {t : Tree} {base i j k : NodeId} {n : Name} {above : List Name}

theorem link?_eq_none_of_isDir (h : t.isDir i = true) : t.link? i = none := by
  obtain ⟨d, hd⟩ := isDir_iff.1 h
  rw [link?, dir?_eq_some_iff.1 hd]

/-- Names, the last one first, that lead from a directory down to a node: each of them is
found and stands for no link. -/
inductive Leads (t : Tree) (base : NodeId) : List Name → NodeId → Prop where
  | here : Leads t base [] base
  | down {above : List Name} {i j : NodeId} {n : Name} (h : Leads t base above i)
      (hfound : t.lookup i n = .ok j) (hlink : t.link? j = none) : Leads t base (n :: above) j

theorem Leads.trans {below : List Name} (h : t.Leads base above i) (h' : t.Leads i below j) :
    t.Leads base (below ++ above) j := by
  induction h' with
  | here => exact h
  | down _ hfound hlink ih => exact .down ih hfound hlink

namespace Sound

/-- One level up the last name is taken back. -/
theorem leads_up (ht : t.Sound) (h : t.Leads top above i) {d : Directory}
    (hd : t.dir? i = some d) : t.Leads top above.tail d.parent := by
  cases h with
  | here =>
    obtain ⟨d', hd', hparent⟩ := ht.top_dir
    rw [hd] at hd'
    cases hd'
    rw [hparent]
    exact .here
  | down h hfound _ =>
    obtain ⟨d', hd', hentry⟩ := mem_entries_of_lookup hfound
    rw [(ht.entry_parent hd' hentry hd).2]
    exact h

/-- The induction is on the fields of the path. -/
theorem canonicalAdvance_leads (ht : t.Sound) {jump : List Bytes → Spot → Except Errno Spot}
    (hjump : ∀ l s s', t.Leads top s.2 s.1 → jump l s = .ok s' → t.Leads top s'.2 s'.1)
    {l : List Bytes} {s s' : Spot} (hs : t.Leads top s.2 s.1)
    (h : t.canonicalAdvance jump l s = .ok s') : t.Leads top s'.2 s'.1 := by
  induction l generalizing s with
  | nil =>
    cases h
    exact hs
  | cons field rest ih =>
    obtain ⟨i, above⟩ := s
    rw [canonicalAdvance] at h
    split at h
    · exact ih hs h
    · exact ih hs h
    · cases hd : t.dir? i with
      | none =>
        rw [hd] at h
        cases h
      | some d =>
        rw [hd] at h
        exact ih (ht.leads_up hs hd) h
    · next n _ =>
      obtain ⟨_, _, hchecked⟩ := exists_of_bind_eq_ok h
      obtain ⟨child, hfound, hgo⟩ := exists_of_bind_eq_ok hchecked
      cases hlink : t.link? child with
      | some target =>
        rw [hlink] at hgo
        refine hjump _ _ _ ?_ hgo
        split
        · exact .here
        · exact hs
      | none =>
        rw [hlink] at hgo
        simp only at hgo
        split at hgo
        · cases hgo
        · exact ih (.down hs hfound hlink) hgo

theorem canonicalWithin_leads (ht : t.Sound) (links : Nat) {l : List Bytes} {s s' : Spot}
    (hs : t.Leads top s.2 s.1) (h : t.canonicalWithin links l s = .ok s') :
    t.Leads top s'.2 s'.1 := by
  induction links generalizing l s s' with
  | zero => exact ht.canonicalAdvance_leads (fun _ _ _ _ heq => by cases heq) hs h
  | succ links ih => exact ht.canonicalAdvance_leads (fun _ _ _ => ih) hs h

/-- A canonical path consists of names that lead straight down from the top. -/
theorem leads_of_canonical (ht : t.Sound) {p q : Path} (h : t.canonical p = .ok q) :
    ∃ above i, q = Path.ofNames above.reverse ∧ t.Leads top above i := by
  obtain ⟨_, _, hchecked⟩ := exists_of_bind_eq_ok h
  split at hchecked
  · cases hchecked
  · obtain ⟨s, hspot, hdone⟩ := exists_of_bind_eq_ok hchecked
    cases hdone
    exact ⟨s.2, s.1, rfl, ht.canonicalWithin_leads maxLinks .here hspot⟩

end Sound

section Coming

variable {last : LastLink} {ms ms' : List Move} {steps : List Step} {strict : Bool}
  {jump : List Move → NodeId → Bool → Except Errno (Place × Bool)}
  {x : Except Errno (Place × Bool)}

/-- A lookup comes to a node, which is a directory if the path can only mean one. -/
def Comes (t : Tree) (i : NodeId) (x : Except Errno (Place × Bool)) : Prop :=
  ∃ place strict, x = .ok (place, strict) ∧ t.existing place = .ok i ∧
    (strict = true → t.isDir i = true)

theorem comes_here (h : strict = true → t.isDir i = true) :
    t.Comes i (t.advance last jump [] i strict) :=
  ⟨_, _, rfl, rfl, h⟩

theorem existing_of_lookup (h : t.lookup i n = .ok j) : t.existing (.entry i n) = .ok j := by
  simp only [existing, occupant, h]
  rfl

/-- To come to a name is to come to what it stands for. -/
theorem comes_down (hfound : t.lookup i n = .ok j) (hlink : t.link? j = none)
    (h : t.Comes k (t.advance last jump ms j strict)) :
    t.Comes k (t.advance last jump (.down n :: ms) i strict) := by
  rw [advance, hfound]
  simp only [hlink]
  cases ms with
  | nil =>
    obtain ⟨place, strict', heq, hplace, hdir⟩ := h
    cases heq
    cases hplace
    exact ⟨_, _, rfl, existing_of_lookup hfound, hdir⟩
  | cons m ms => exact h

theorem comes_stay {d : Directory} (hd : t.searched i = .ok d)
    (h : t.Comes k (t.advance last jump ms i strict)) :
    t.Comes k (t.advance last jump (.stay :: ms) i strict) := by
  rw [advance, hd]
  exact h

theorem comes_up {d : Directory} (hd : t.searched i = .ok d)
    (h : t.Comes k (t.advance last jump ms d.parent strict)) :
    t.Comes k (t.advance last jump (.up :: ms) i strict) := by
  rw [advance, hd]
  exact h

/-- Moves that make no step come to the directory they start from, if it may be searched. -/
theorem comes_of_stepsOf_eq_nil (hms : stepsOf ms = []) {d : Directory}
    (hd : t.searched i = .ok d) : t.Comes i (t.advance last jump ms i strict) := by
  induction ms with
  | nil => exact comes_here fun _ => isDir_iff.2 ⟨d, (searched_eq_ok_iff.1 hd).1⟩
  | cons m ms ih =>
    cases m with
    | stay => exact comes_stay hd (ih hms)
    | up | down n => cases hms

/-- Moves whose first step is down to a name. -/
theorem comes_next (hms : stepsOf ms = .down n :: steps) (hfound : t.lookup i n = .ok j)
    (hlink : t.link? j = none) : ∃ ms', ms' <:+ ms ∧ stepsOf ms' = steps ∧
      ∀ k, t.Comes k (t.advance last jump ms' j strict) →
        t.Comes k (t.advance last jump ms i strict) := by
  induction ms with
  | nil => cases hms
  | cons m ms ih =>
    cases m with
    | up => cases hms
    | stay =>
      obtain ⟨ms', hends, hsteps, hcomes⟩ := ih hms
      obtain ⟨d, hd, _⟩ := lookup_eq_ok_iff.1 hfound
      exact ⟨ms', hends.trans (List.suffix_cons ..), hsteps,
        fun k hk => comes_stay hd (hcomes k hk)⟩
    | down m =>
      cases hms
      exact ⟨ms, List.suffix_cons .., rfl, fun k hk => comes_down hfound hlink hk⟩

/-- A lookup that starts with names that lead straight down passes through the node they lead
to. The induction is on the names. -/
theorem Leads.comes (h : t.Leads base above i)
    (hms : stepsOf ms = above.reverse.map .down ++ steps) : ∃ ms', ms' <:+ ms ∧
      stepsOf ms' = steps ∧ ∀ k, t.Comes k (t.advance last jump ms' i strict) →
        t.Comes k (t.advance last jump ms base strict) := by
  induction h generalizing steps with
  | here => exact ⟨ms, List.suffix_refl ms, hms, fun k hk => hk⟩
  | @down above i j n _ hfound hlink ih =>
    have hfirst : stepsOf ms = above.reverse.map .down ++ (.down n :: steps) := by
      rw [hms]
      simp
    obtain ⟨ms₁, hends₁, hsteps₁, hcomes₁⟩ := ih hfirst
    obtain ⟨ms₂, hends₂, hsteps₂, hcomes₂⟩ := comes_next hsteps₁ hfound hlink
    exact ⟨ms₂, hends₂.trans hends₁, hsteps₂, fun k hk => hcomes₁ k (hcomes₂ k hk)⟩

theorem checkPath_eq_ok_iff {bytes : Bytes} :
    checkPath bytes = .ok () ↔ 0 ∉ bytes ∧ bytes.length < maxPath := by
  unfold checkPath checkZero checkLength
  by_cases hzero : 0 ∈ bytes
  · simp [hzero, bind, Except.bind]
  · by_cases hlength : bytes.length < maxPath
    · simp [hzero, hlength, bind, Except.bind]
    · simp [hzero, Nat.not_lt.1 hlength, hlength, bind, Except.bind]

theorem find_of_comes {p : Path} (hcheck : checkPath p.bytes = .ok ()) (hempty : p.isEmpty = false)
    (h : t.Comes i (t.resolveWithin last maxLinks (moves p) top (endsInSlash p))) :
    t.find p last = .ok i := by
  obtain ⟨place, strict, hresolve, hplace, hdir⟩ := h
  exact find_eq_ok_iff.2
    ⟨place, strict, resolve_eq_ok_iff.2 ⟨hcheck, hempty, hresolve⟩, hplace, hdir⟩

/-- The system comes to where names lead by the path that consists of them. -/
theorem Sound.find_of_leads (ht : t.Sound) (h : t.Leads top above i)
    (hcheck : checkPath (Path.ofNames above.reverse).bytes = .ok ()) :
    t.find (Path.ofNames above.reverse) .follow = .ok i := by
  have hempty : (Path.ofNames above.reverse).isEmpty = false := by
    rw [← Path.clean_ofNames, Path.isEmpty_clean]
  have hsteps : stepsOf (moves (Path.ofNames above.reverse)) = above.reverse.map .down ++ [] := by
    rw [stepsOf_moves, Path.steps_ofNames, List.append_nil]
  refine find_of_comes hcheck hempty ?_
  obtain ⟨ms, hsuffix, hms, hcomes⟩ := h.comes hsteps
  have hnil : ms = [] := by
    cases ms with
    | nil => rfl
    | cons m ms =>
      have hmem := hsuffix.subset (List.mem_cons_self ..)
      rw [moves_ofNames] at hmem
      obtain ⟨n, _, rfl⟩ := List.mem_map.1 hmem
      cases hms
  subst hnil
  refine hcomes i (comes_here fun hslash => ?_)
  cases h with
  | here =>
    obtain ⟨d, hd, _⟩ := ht.top_dir
    exact isDir_iff.2 ⟨d, hd⟩
  | @down above _ _ n _ _ _ =>
    have hexact := exact_moves (Path.endsInName_ofNames (n :: above).reverse)
    obtain ⟨hnot, _⟩ := hexact n (by simp [stepsOf_moves, Path.steps_ofNames])
    rw [hnot] at hslash
    cases hslash

end Coming

end Tree

end Os

end ConfinedFs
