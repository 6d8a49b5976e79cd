import ConfinedFs.Proofs.Memory.Growing
import ConfinedFs.Proofs.Path.Steps

/-!
A tree in memory with a fence around a place: every link is at the place or below it
and leads to nothing else. Paths that name the place or something below it then stay
there, whatever links they pass, as long as no link goes up: a link that does may be
moved, and what it goes up from is the directory it is found in.
-/

namespace ConfinedFs

open ConfinedFs.Path

namespace Memory

open ConfinedFs.Action (Keeps Triple)

variable {m m' m'' : Memory} {b j k source target : Key} {c : CellId} {p : Path}

/-- Does the target of a link stay behind the fence? An absolute one has to name the
place or something below it. A relative one only goes down, and the link is not the
place itself. -/
def StaysBehind (b k : Key) (target : Path) : Prop :=
  if target.isAbsolute then ∃ names : Key, target.steps = (b ++ names).map .down
  else k ≠ b ∧ ∃ names : Key, target.steps = names.map .down

structure Fenced (b : Key) (m : Memory) : Prop where
  wellFormed : m.WellFormed
  parented : m.Parented b
  links : ∀ {k c}, m.nodeAt k = some ⟨.symlink, c⟩ →
    b <+: k ∧ StaysBehind b k ⟨(m.content c).data⟩

section Resolve

/-- A walk that has steps down to make, of which the last ones are given, ends after
these, and behind the fence if that is where the others lead. -/
def Lands (b last : Key) (walk : List Step → Key → Except FileError Key) : Prop :=
  ∀ names k r, b <+: k ++ names → walk ((names ++ last).map .down) k = .ok r →
    ∃ above, r = above ++ last ∧ b <+: above

theorem lands_error (last : Key) (e : FileError) : Lands b last fun _ _ => .error e :=
  fun _ _ _ _ hr => nomatch hr

/-- A name in the last place is where the walk ends if links are not followed. -/
theorem advance_last (m : Memory) (jump : List Step → Key → Except FileError Key) (n : Name)
    (k : Key) : m.advance false jump [.down n] k = .ok (k ++ [n]) := by
  rw [advance]
  cases m.nodeAt (k ++ [n]) with
  | none => rfl
  | some node =>
    obtain ⟨kind, c⟩ := node
    cases kind <;> rfl

variable {last : Key} {followLast : Bool} {jump : List Step → Key → Except FileError Key}

theorem jump_lands (hjump : Lands b last jump) (h : Fenced b m) {n : Name} {names r : Key}
    (hnode : m.nodeAt (k ++ [n]) = some ⟨.symlink, c⟩) :
    let target : Path := ⟨(m.content c).data⟩
    jump (target.steps ++ (names ++ last).map .down) (if target.isAbsolute then [] else k) = .ok r →
      ∃ above, r = above ++ last ∧ b <+: above := by
  intro target hr
  obtain ⟨hstarts, hstays⟩ := h.links hnode
  unfold StaysBehind at hstays
  split at hstays
  · next habsolute =>
    obtain ⟨inner, hsteps⟩ := hstays
    rw [if_pos habsolute, hsteps, ← List.map_append, ← List.append_assoc] at hr
    have hfrom : b <+: [] ++ (b ++ inner ++ names) := by simp
    exact hjump _ _ _ hfrom hr
  · next hrelative =>
    obtain ⟨hne, inner, hsteps⟩ := hstays
    rw [if_neg hrelative, hsteps, ← List.map_append, ← List.append_assoc] at hr
    have habove : b <+: k := (List.prefix_concat_iff.1 hstarts).resolve_left hne.symm
    exact hjump _ _ _ (habove.trans (List.prefix_append ..)) hr

/-- The induction is on the steps before the last ones. A link on the way hands over to
a walk that lands, with its own steps put before the ones that are left. -/
theorem advance_lands (h : Fenced b m) (hlast : last = [] ∨ followLast = false ∧ ∃ n, last = [n])
    (hjump : Lands b last jump) : Lands b last (m.advance followLast jump) := by
  intro names
  induction names with
  | nil =>
    intro k r hk hr
    rw [List.append_nil] at hk
    refine ⟨k, ?_, hk⟩
    rcases hlast with rfl | ⟨rfl, n, rfl⟩
    · cases hr
      exact (List.append_nil k).symm
    · have hend := advance_last m jump n k
      rw [List.nil_append, List.map_singleton, hend] at hr
      exact (Except.ok.inj hr).symm
  | cons n names ih =>
    intro k r hk hr
    have hon := ih (k ++ [n]) r (by simpa using hk)
    rw [List.cons_append, List.map_cons, advance] at hr
    cases hnode : m.nodeAt (k ++ [n]) with
    | none =>
      rw [hnode] at hr
      exact hon hr
    | some node =>
      obtain ⟨kind, c⟩ := node
      rw [hnode] at hr
      cases kind with
      | directory => exact hon hr
      | file =>
        dsimp only at hr
        split at hr
        · exact hon hr
        · cases hr
      | symlink =>
        dsimp only at hr
        split at hr
        · exact jump_lands hjump h hnode hr
        · exact hon hr

theorem resolveWithin_lands (h : Fenced b m)
    (hlast : last = [] ∨ followLast = false ∧ ∃ n, last = [n]) (links : Nat) :
    Lands b last (m.resolveWithin followLast links) := by
  induction links with
  | zero => exact advance_lands h hlast (lands_error last _)
  | succ links ih => exact advance_lands h hlast ih

/-- What a path behind the fence designates is behind the fence. -/
theorem starts_of_resolve (h : Fenced b m) {names : Key}
    (hk : m.resolve (ofNames (b ++ names)) followLast = .ok k) : b <+: k := by
  rw [resolve, steps_ofNames] at hk
  have hlands : Lands b [] (m.resolveWithin followLast linkLimit) :=
    resolveWithin_lands h (.inl rfl) linkLimit
  obtain ⟨above, rfl, habove⟩ :=
    hlands (b ++ names) [] k (List.prefix_append ..) (by rwa [List.append_nil])
  rwa [List.append_nil]

/-- If the last name is not followed, it is not the fenced place that is designated. -/
theorem ne_of_resolve (h : Fenced b m) {names : Key} (hne : names ≠ [])
    (hk : m.resolve (ofNames (b ++ names)) false = .ok k) : k ≠ b := by
  have hsplit : b ++ names = (b ++ names.dropLast) ++ [names.getLast hne] := by
    rw [List.append_assoc, List.dropLast_concat_getLast hne]
  rw [resolve, steps_ofNames, hsplit] at hk
  have hlands := resolveWithin_lands h (.inr ⟨rfl, names.getLast hne, rfl⟩) linkLimit
  obtain ⟨above, rfl, habove⟩ := hlands _ [] k (List.prefix_append ..) hk
  intro heq
  have hlength := habove.length_le
  have htotal := congrArg List.length heq
  rw [List.length_append, List.length_singleton] at htotal
  omega

end Resolve

section Within

/-- What has been done behind the fence: the tree is fenced as before, and nothing that
is neither the place nor below it has been created, removed, replaced by another node
or changed in what it holds. New nodes have new cells. -/
structure Within (b : Key) (m m' : Memory) : Prop where
  fenced : Fenced b m'
  outside : ∀ k, ¬ b <+: k → m'.nodeAt k = m.nodeAt k
  contents : ∀ k n, ¬ b <+: k → m.nodeAt k = some n → m'.content n.cell = m.content n.cell
  cells : m.cells.length ≤ m'.cells.length
  stored : ∀ {k n}, m'.nodeAt k = some n → (∃ j, m.nodeAt j = some n) ∨ m.cells.length ≤ n.cell

theorem Within.refl (h : Fenced b m) : Within b m m :=
  ⟨h, fun _ _ => rfl, fun _ _ _ _ => rfl, Nat.le_refl _, fun hk => .inl ⟨_, hk⟩⟩

theorem Within.trans (h : Within b m m') (h' : Within b m' m'') : Within b m m'' := by
  refine ⟨h'.fenced, ?_, ?_, Nat.le_trans h.cells h'.cells, ?_⟩
  · intro k hk
    rw [h'.outside k hk, h.outside k hk]
  · intro k n hk hn
    have hn' := (h.outside k hk).trans hn
    rw [h'.contents k n hk hn', h.contents k n hk hn]
  · intro k n hn
    rcases h'.stored hn with ⟨j, hj⟩ | hnew
    · exact h.stored hj
    · exact .inr (Nat.le_trans h.cells hnew)

/-- The places above the fence are outside. -/
theorem not_starts_of_above (hk : k <+: b) (hne : k ≠ b) : ¬ b <+: k :=
  fun hb => hne (hk.eq_of_length_le hb.length_le)

/-- A tree that has grown behind the fence. Its links are those that were there, which
may have been moved but not to the fenced place, and new ones that stay behind. -/
theorem Fenced.grow (h : Fenced b m) (hwf : m'.WellFormed) (hgrows : Grows m m')
    (houtside : ∀ k, ¬ b <+: k → m'.nodeAt k = m.nodeAt k)
    (hlinks : ∀ {k c}, m'.nodeAt k = some ⟨.symlink, c⟩ →
      (∃ j, m.nodeAt j = some ⟨.symlink, c⟩ ∧ b <+: k ∧ (k = b → j = b)) ∨
        b <+: k ∧ StaysBehind b k ⟨(m'.content c).data⟩) : Within b m m' := by
  have hfenced : Fenced b m' := by
    refine ⟨hwf, ?_, ?_⟩
    · intro a ha hne
      obtain ⟨n, hn, hdir⟩ := h.parented a ha hne
      exact ⟨n, (houtside a (not_starts_of_above ha hne)).trans hn, hdir⟩
    · intro k c hk
      rcases hlinks hk with ⟨j, hj, hstarts, hmoved⟩ | hnew
      · refine ⟨hstarts, ?_⟩
        rw [hgrows.content_eq (h.wellFormed.cell_lt_of_nodeAt hj)]
        have hstays := (h.links hj).2
        unfold StaysBehind at hstays ⊢
        split at hstays
        · next habsolute => rwa [if_pos habsolute]
        · next hrelative =>
          rw [if_neg hrelative]
          exact ⟨fun heq => hstays.1 (hmoved heq), hstays.2⟩
      · exact hnew
  refine ⟨hfenced, houtside, ?_, hgrows.cells.length_le, ?_⟩
  · intro k n _ hn
    exact hgrows.content_eq (h.wellFormed.cell_lt_of_nodeAt hn)
  · intro k n hn
    obtain ⟨i, _, hi⟩ := nodeAt_eq_some_iff.1 hn
    rcases hgrows.stored hi with hold | hnew
    · exact .inl (h.wellFormed.nodeAt_of_get? hold)
    · exact .inr hnew

/-- Where a directory is created, nothing else changes. -/
theorem Extends.nodeAt_eq (hextends : Extends m m' k) (h : m.WellFormed) (hj : ¬ j <+: k) :
    m'.nodeAt j = m.nodeAt j := by
  cases hnode : m.nodeAt j with
  | some n => exact hextends.kept hnode
  | none =>
    rw [nodeAt, hextends.other hj, h.find?_eq_none hnode]
    rfl

/-- Directories on the way to a place behind the fence. Those above the fence are there
already. -/
theorem Fenced.extend (h : Fenced b m) (hextends : Extends m m' j) (hgrows : Grows m m')
    (hj : j <+: k) (hk : b <+: k) : Within b m m' := by
  apply h.grow hextends.wellFormed hgrows
  · intro a ha
    by_cases hstarts : a <+: j
    · have habove := (List.prefix_or_prefix_of_prefix (hstarts.trans hj) hk).resolve_right ha
      have hne : a ≠ b := by
        rintro rfl
        exact ha List.prefix_rfl
      obtain ⟨n, hn, _⟩ := h.parented a habove hne
      rw [hn, hextends.kept hn]
    · exact hextends.nodeAt_eq h.wellFormed hstarts
  · intro a c ha
    rcases hextends.added ha with hold | hdir
    · exact .inl ⟨a, hold, (h.links hold).1, id⟩
    · cases hdir

theorem Fenced.addNode (h : Fenced b m) (hk : b <+: k) (hfree : m.nodeAt k = none)
    {kind : NodeKind} {content : Content}
    (hlink : kind = .symlink → StaysBehind b k ⟨content.data⟩)
    (hwf : (m.addNode k kind content).WellFormed) : Within b m (m.addNode k kind content) := by
  have hnodeAt := h.wellFormed.nodeAt_addNode k kind content
  apply h.grow hwf ((Grows.refl h.wellFormed.slots).addNode k kind content)
  · intro a ha
    rw [hnodeAt, if_neg]
    rintro rfl
    exact ha hk
  · intro a c ha
    rw [hnodeAt] at ha
    split at ha
    · next heq =>
      subst heq
      cases ha
      refine .inr ⟨hk, ?_⟩
      rw [content_addNode]
      exact hlink rfl
    · exact .inl ⟨a, ha, (h.links ha).1, id⟩

theorem Fenced.prune (h : Fenced b m) (hk : b <+: k) (hne : k ≠ []) : Within b m (m.prune k) := by
  have hnodeAt := h.wellFormed.nodeAt_prune k
  apply h.grow (h.wellFormed.prune hne) ((Grows.refl h.wellFormed.slots).prune k)
  · intro a ha
    rw [hnodeAt, if_neg fun hstarts => ha (hk.trans hstarts)]
  · intro a c ha
    rw [hnodeAt] at ha
    split at ha
    · cases ha
    · exact .inl ⟨a, ha, (h.links ha).1, id⟩

/-- Nothing is moved to the fenced place: what is moved was below it, where nothing is
stored as long as the place is free. -/
theorem Fenced.transplant (h : Fenced b m) (hsource : b <+: source) (htarget : b <+: target)
    (hfree : ∀ j, target <+: j → m.index.find? j = none)
    (hwf : (m.transplant source target).WellFormed) : Within b m (m.transplant source target) := by
  apply h.grow hwf ((Grows.refl h.wellFormed.slots).transplant source target)
  · intro a ha
    exact WellFormed.nodeAt_transplant_of_not hfree h.wellFormed (fun hp => ha (htarget.trans hp))
      fun hp => ha (hsource.trans hp)
  · intro a c ha
    by_cases hmoved : target <+: a
    · obtain ⟨r, rfl⟩ := hmoved
      rw [WellFormed.nodeAt_transplant_append hfree h.wellFormed] at ha
      refine .inl ⟨source ++ r, ha, htarget.trans (List.prefix_append ..), ?_⟩
      intro heq
      have hshort : target <+: source ++ r := by
        have hle : target <+: b := heq ▸ List.prefix_append target r
        exact (hle.trans hsource).trans (List.prefix_append ..)
      obtain ⟨i, hi, _⟩ := nodeAt_eq_some_iff.1 ha
      rw [hfree _ hshort] at hi
      cases hi
    · by_cases hgone : source <+: a
      · obtain ⟨i, hi, _⟩ := nodeAt_eq_some_iff.1 ha
        rcases WellFormed.find?_transplant_eq_some hfree h.wellFormed hi with ⟨r, rfl, _⟩ | hkept
        · exact absurd (List.prefix_append ..) hmoved
        · exact absurd hgone hkept.2.1
      · rw [WellFormed.nodeAt_transplant_of_not hfree h.wellFormed hmoved hgone] at ha
        exact .inl ⟨a, ha, (h.links ha).1, id⟩

end Within

end Memory

end ConfinedFs
