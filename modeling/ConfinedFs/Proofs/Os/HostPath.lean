import ConfinedFs.Proofs.Os.Descent

/-!
Paths of the host. A directory has a path as long as entries lead to it from the top by the
names of the path. Nothing changes the permissions of a directory, and a new entry never takes
the place of a directory that is not empty. So if a directory has the path that the system
has come to it by, then the system still comes to it by this path, whatever has been done.
-/

namespace ConfinedFs.Os.Tree

variable {t u v : Tree} {i j dir : NodeId} {d : Directory} {n : Name} {above : List Name}

/-- A node has a path, given by its names, the last one first. -/
inductive Named (t : Tree) : List Name → NodeId → Prop where
  | top : Named t [] top
  | entry {above : List Name} {dir i : NodeId} {d : Directory} {n : Name} (h : Named t above dir)
      (hd : t.dir? dir = some d) (hn : d.entries.lookup n = some i) : Named t (n :: above) i

/-- The node that names lead to from a directory on, by entries alone. -/
def descend? (t : Tree) (i : NodeId) : List Name → Option NodeId
  | [] => some i
  | n :: names => ((t.dir? i).bind (·.entries.lookup n)).bind (t.descend? · names)

theorem named_of_descend? {names : List Name} (h : t.Named above i)
    (hd : t.descend? i names = some j) : t.Named (names.reverse ++ above) j := by
  induction names generalizing above i with
  | nil =>
    cases hd
    exact h
  | cons n names ih =>
    obtain ⟨k, hk, hrest⟩ := Option.bind_eq_some_iff.1 hd
    obtain ⟨d, hdir, hn⟩ := Option.bind_eq_some_iff.1 hk
    rw [List.reverse_cons, List.append_assoc]
    exact ih (h.entry hdir hn) hrest

theorem demand_dir (hd : t.dir? i = some d) (a : Access) :
    t.demand a i = if a.allowedBy d.perm then .ok () else .error .accessDenied := by
  rw [demand, dir?_eq_some_iff.1 hd]
  rfl

/-- A name is found in a directory that may be searched and has not been removed. -/
theorem lookup_iff_entry : t.lookup dir n = .ok i ↔ ∃ d, t.dir? dir = some d ∧
    Access.search.allowedBy d.perm = true ∧ d.removed = false ∧ n.bytes.length ≤ maxName ∧
      d.entries.lookup n = some i := by
  rw [lookup_eq_ok_iff]
  apply exists_congr
  intro d
  rw [searched_eq_ok_iff, and_assoc]
  apply and_congr_right
  intro hd
  rw [demand_dir hd]
  cases Access.search.allowedBy d.perm <;> simp

theorem isDir_of_lookup (h : t.lookup dir n = .ok i) : t.isDir dir = true := by
  obtain ⟨d, hd, _⟩ := lookup_iff_entry.1 h
  exact isDir_iff.2 ⟨d, hd⟩

section Named

theorem Named.down (h : t.Named above dir) (hn : t.lookup dir n = .ok i) :
    t.Named (n :: above) i := by
  obtain ⟨d, hd, _, _, _, hentry⟩ := lookup_iff_entry.1 hn
  exact .entry h hd hentry

/-- What names lead down to has these names below those of where they start. -/
theorem Named.leads {below : List Name} (h : t.Named above i) (hl : t.Leads i below j) :
    t.Named (below ++ above) j := by
  induction hl with
  | here => exact h
  | down _ hfound _ ih => exact ih.down hfound

/-- A directory has one path. The induction is on the names. -/
theorem Sound.named_unique (ht : t.Sound) {above' : List Name} (h : t.Named above i)
    (h' : t.Named above' i) (hi : t.isDir i = true) : above = above' := by
  induction h generalizing above' with
  | top =>
    cases h' with
    | top => rfl
    | entry _ hd hn =>
      obtain ⟨s, hs⟩ := isDir_iff.1 hi
      exact absurd rfl (ht.entry_parent hd (Association.mem_of_lookup hn) hs).1
  | @entry above dir i d n _ hd hn ih =>
    obtain ⟨s, hs⟩ := isDir_iff.1 hi
    obtain ⟨htop, hparent⟩ := ht.entry_parent hd (Association.mem_of_lookup hn) hs
    cases h' with
    | top => exact absurd rfl htop
    | @entry _ dir' _ d' m habove hd' hm =>
      have hmem := Association.mem_of_lookup hm
      obtain rfl : dir = dir' := hparent.symm.trans (ht.entry_parent hd' hmem hs).2
      obtain rfl : d = d' := Option.some.inj (hd.symm.trans hd')
      rw [ht.entry_unique hd (Association.mem_of_lookup hn) hmem hs,
        ih habove (isDir_iff.2 ⟨d, hd⟩)]

end Named

section Adds

/-- The directories have kept their permissions and their entries. -/
structure Adds (t u : Tree) : Prop where
  dirs : ∀ {i d}, t.dir? i = some d → ∃ d', u.dir? i = some d' ∧ d'.perm = d.perm ∧
    d'.removed = d.removed ∧ ∀ {n j}, d.entries.lookup n = some j → d'.entries.lookup n = some j

theorem Adds.refl (t : Tree) : t.Adds t := ⟨fun hd => ⟨_, hd, rfl, rfl, id⟩⟩

theorem Adds.trans (h : t.Adds u) (h' : u.Adds v) : t.Adds v := by
  refine ⟨fun hd => ?_⟩
  obtain ⟨d₁, hd₁, hperm₁, hremoved₁, hentries₁⟩ := h.dirs hd
  obtain ⟨d₂, hd₂, hperm₂, hremoved₂, hentries₂⟩ := h'.dirs hd₁
  exact ⟨d₂, hd₂, hperm₂.trans hperm₁, hremoved₂.trans hremoved₁,
    fun hn => hentries₂ (hentries₁ hn)⟩

theorem Adds.isDir (h : t.Adds u) (hi : t.isDir i = true) : u.isDir i = true := by
  obtain ⟨d, hd⟩ := isDir_iff.1 hi
  obtain ⟨d', hd', _⟩ := h.dirs hd
  exact isDir_iff.2 ⟨d', hd'⟩

theorem Adds.lookup (h : t.Adds u) (hn : t.lookup dir n = .ok i) : u.lookup dir n = .ok i := by
  obtain ⟨d, hd, hsearch, hremoved, hlength, hentry⟩ := lookup_iff_entry.1 hn
  obtain ⟨d', hd', hperm, hsame, hentries⟩ := h.dirs hd
  exact lookup_iff_entry.2 ⟨d', hd', hperm ▸ hsearch, hsame.trans hremoved, hlength,
    hentries hentry⟩

theorem Adds.leads (h : t.Adds u) (hl : t.Leads dir above i) (hi : t.isDir i = true) :
    u.Leads dir above i := by
  induction hl with
  | here => exact .here
  | down _ hfound _ ih =>
    exact .down (ih (isDir_of_lookup hfound)) (h.lookup hfound)
      (link?_eq_none_of_isDir (h.isDir hi))

theorem Gains.adds (h : t.Gains u) : t.Adds u := by
  refine ⟨fun hd => ?_⟩
  obtain ⟨d', hd', hgains⟩ := h.dirs hd
  exact ⟨d', hd', hgains.perm, hgains.removed, hgains.kept⟩

end Adds

section Drops

/-- The directories have kept their permissions and got no entries, and the removed ones have
none. -/
structure Drops (t u : Tree) : Prop where
  dirs : ∀ {i d}, t.dir? i = some d → ∃ d', u.dir? i = some d' ∧ d'.perm = d.perm ∧
    (d'.removed = true → d.removed = true ∨ d'.entries = []) ∧ d'.entries ⊆ d.entries ∧
      ∀ {n j}, d'.entries.lookup n = some j → d.entries.lookup n = some j

theorem Drops.refl (t : Tree) : t.Drops t := ⟨fun hd => ⟨_, hd, rfl, .inl, fun _ he => he, id⟩⟩

theorem Drops.trans (h : t.Drops u) (h' : u.Drops v) : t.Drops v := by
  refine ⟨fun hd => ?_⟩
  obtain ⟨d₁, hd₁, hperm₁, hremoved₁, hsubset₁, hentries₁⟩ := h.dirs hd
  obtain ⟨d₂, hd₂, hperm₂, hremoved₂, hsubset₂, hentries₂⟩ := h'.dirs hd₁
  refine ⟨d₂, hd₂, hperm₂.trans hperm₁, ?_, fun _ he => hsubset₁ (hsubset₂ he),
    fun hn => hentries₁ (hentries₂ hn)⟩
  intro hremoved
  rcases hremoved₂ hremoved with hold | hempty
  · refine (hremoved₁ hold).imp id fun hempty => ?_
    rw [hempty] at hsubset₂
    exact List.subset_nil.1 hsubset₂
  · exact .inr hempty

theorem drops_modifyDir (t : Tree) (i : NodeId) {f : Directory → Directory}
    (hf : ∀ d, t.dir? i = some d → (f d).perm = d.perm ∧
      ((f d).removed = true → d.removed = true ∨ (f d).entries = []) ∧
      (f d).entries ⊆ d.entries ∧
      ∀ {n j}, (f d).entries.lookup n = some j → d.entries.lookup n = some j) :
    t.Drops (t.modifyDir i f) := by
  refine ⟨fun {k d} hd => ?_⟩
  by_cases hk : k = i
  · subst hk
    exact ⟨f d, dir?_modifyDir_self hd f, hf d hd⟩
  · exact ⟨d, (dir?_modifyDir_of_ne f hk).trans hd, rfl, .inl, fun _ he => he, id⟩

theorem drops_unlink (t : Tree) (dir : NodeId) (n : Name) : t.Drops (t.unlink dir n) := by
  refine drops_modifyDir t dir fun d _ => ⟨rfl, .inl, ?_, ?_⟩
  · exact fun _ he => (Association.mem_erase.1 he).1
  · exact Association.lookup_of_lookup_erase

/-- Only a directory without entries is removed. -/
theorem drops_retire (t : Tree) {i : NodeId} (h : ∀ d, t.dir? i = some d → d.entries = []) :
    t.Drops (t.retire i) :=
  drops_modifyDir t i fun d hd => ⟨rfl, fun _ => .inr (h d hd), fun _ he => he, id⟩

end Drops

section Remakes

/-- The directories have kept their permissions, only those without entries have been removed,
and a new entry has not taken the place of one for a directory that is not empty. -/
structure Remakes (t u : Tree) : Prop where
  dirs : ∀ {i d}, t.dir? i = some d → ∃ d', u.dir? i = some d' ∧ d'.perm = d.perm ∧
    (d'.removed = true → d.removed = true ∨ d.entries = [] ∨ d'.entries = []) ∧
      ∀ {n j}, d'.entries.lookup n = some j → d.entries.lookup n = some j ∨
        ∀ k s, d.entries.lookup n = some k → t.dir? k = some s → s.entries = []

theorem Drops.remakes (h : t.Drops u) : t.Remakes u := by
  refine ⟨fun hd => ?_⟩
  obtain ⟨d', hd', hperm, hremoved, _, hentries⟩ := h.dirs hd
  exact ⟨d', hd', hperm, fun hr => (hremoved hr).imp id .inr, fun hn => .inl (hentries hn)⟩

theorem entries_eq_nil_of_lookup {l : List (Name × NodeId)} (h : ∀ n, l.lookup n = none) :
    l = [] := by
  cases l with
  | nil => rfl
  | cons e l =>
    have hfirst := h e.1
    rw [List.lookup_cons, beq_self_eq_true] at hfirst
    cases hfirst

theorem Adds.remakes (h : t.Adds u) (h' : u.Remakes v) : t.Remakes v := by
  have hempty : ∀ {d d' : Directory},
      (∀ {n j}, d.entries.lookup n = some j → d'.entries.lookup n = some j) →
      d'.entries = [] → d.entries = [] := by
    intro d d' hkept hnil
    refine entries_eq_nil_of_lookup fun n => ?_
    cases hn : d.entries.lookup n with
    | none => rfl
    | some j =>
      have hfound := hkept hn
      rw [hnil] at hfound
      cases hfound
  refine ⟨fun {i d} hd => ?_⟩
  obtain ⟨d₁, hd₁, hperm₁, hremoved₁, hentries₁⟩ := h.dirs hd
  obtain ⟨d₂, hd₂, hperm₂, hremoved₂, hentries₂⟩ := h'.dirs hd₁
  refine ⟨d₂, hd₂, hperm₂.trans hperm₁, ?_, ?_⟩
  · intro hr
    rw [← hremoved₁]
    exact (hremoved₂ hr).imp id fun hnil => hnil.imp (hempty hentries₁) id
  · intro n j hn
    cases hold : d.entries.lookup n with
    | none => exact .inr nofun
    | some k =>
      rcases hentries₂ hn with hsame | hnew
      · rw [hentries₁ hold] at hsame
        exact .inl hsame
      · refine .inr ?_
        rintro _ s ⟨⟩ hs
        obtain ⟨s₁, hs₁, _, _, hkept⟩ := h.dirs hs
        exact hempty hkept (hnew k s₁ (hentries₁ hold) hs₁)

theorem Remakes.isDir (h : t.Remakes u) (hi : t.isDir i = true) : u.isDir i = true := by
  obtain ⟨d, hd⟩ := isDir_iff.1 hi
  obtain ⟨d', hd', _⟩ := h.dirs hd
  exact isDir_iff.2 ⟨d', hd'⟩

theorem Remakes.demand (h : t.Remakes u) {a : Access} (hi : t.isDir i = true)
    (ha : t.demand a i = .ok ()) : u.demand a i = .ok () := by
  obtain ⟨d, hd⟩ := isDir_iff.1 hi
  obtain ⟨d', hd', hperm, _⟩ := h.dirs hd
  rw [demand_dir hd', hperm, ← demand_dir hd]
  exact ha

/-- Names that led to a directory lead to the same one, or to another node in the place of an
empty one. The induction is on the names. -/
theorem Remakes.leads_or (h : t.Remakes u) (hl : t.Leads top above i) (hi : t.isDir i = true)
    (hnamed : u.Named above j) : (j = i ∧ u.Leads top above i) ∨
      j ≠ i ∧ ∀ d, t.dir? i = some d → d.entries = [] := by
  induction hl generalizing j with
  | here =>
    cases hnamed
    exact .inl ⟨rfl, .here⟩
  | @down above dir i n _ hfound hlink ih =>
    cases hnamed with
    | @entry _ dir' _ d' _ habove hd' hn =>
      obtain ⟨d, hd, hsearch, hremoved, hlength, hentry⟩ := lookup_iff_entry.1 hfound
      rcases ih (isDir_of_lookup hfound) habove with ⟨rfl, hleads⟩ | ⟨_, hempty⟩
      · obtain ⟨d₁, hd₁, hperm, hremoved₁, hentries⟩ := h.dirs hd
        rw [hd'] at hd₁
        cases hd₁
        by_cases hsame : j = i
        · subst hsame
          have hthere : d'.removed = false := by
            rw [Bool.eq_false_iff]
            intro hr
            rcases hremoved₁ hr with hold | hnil | hnil
            · rw [hremoved] at hold
              cases hold
            · rw [hnil] at hentry
              cases hentry
            · rw [hnil] at hn
              cases hn
          refine .inl ⟨rfl, .down hleads ?_ (link?_eq_none_of_isDir (h.isDir hi))⟩
          exact lookup_iff_entry.2 ⟨d', hd', hperm ▸ hsearch, hthere, hlength, hn⟩
        · rcases hentries hn with hold | hnew
          · rw [hentry] at hold
            exact absurd (Option.some.inj hold).symm hsame
          · exact .inr ⟨hsame, fun s hs => hnew _ s hentry hs⟩
      · rw [hempty d hd] at hentry
        cases hentry

/-- A directory that has kept its path is found by it. -/
theorem Remakes.leads (h : t.Remakes u) (hl : t.Leads top above i) (hi : t.isDir i = true)
    (hnamed : u.Named above i) : u.Leads top above i := by
  rcases h.leads_or hl hi hnamed with ⟨_, hleads⟩ | ⟨hne, _⟩
  · exact hleads
  · exact absurd rfl hne

end Remakes

section Canonical

theorem asksForDirectory_names (names : List Name) :
    asksForDirectory (names.map (·.bytes)) = false := by
  cases names with
  | nil => rfl
  | cons n names =>
    rw [List.map_cons, asksForDirectory, Move.ofField?_bytes]

/-- Names that lead down are taken one by one, and nothing else is collected. The induction is
on the names. -/
theorem Leads.canonicalAdvance_eq (h : t.Leads top above i)
    (hlength : (Path.ofNames above.reverse).bytes.length < maxPath)
    (jump : List Bytes → Spot → Except Errno Spot) (names : List Name) :
    t.canonicalAdvance jump ((above.reverse ++ names).map (·.bytes)) (top, []) =
      t.canonicalAdvance jump (names.map (·.bytes)) (i, above) := by
  induction h generalizing names with
  | here => rfl
  | @down above i j n _ hfound hlink ih =>
    rw [List.reverse_cons] at hlength
    have hbefore := Nat.lt_of_le_of_lt (Path.length_ofNames_le above.reverse n) hlength
    have hpath : (spotPath (i, n :: above)).bytes.length < maxPath := by
      rw [spotPath, List.reverse_cons]
      exact hlength
    rw [List.reverse_cons, List.append_assoc, List.singleton_append, ih hbefore, List.map_cons,
      canonicalAdvance, Move.ofField?_bytes]
    simp only [checkLength, Nat.not_le.2 hpath, if_false, hfound, hlink, asksForDirectory_names,
      Bool.false_and, Bool.false_eq_true, bind, Except.bind]

theorem Leads.canonicalWithin_eq (h : t.Leads top above i)
    (hlength : (Path.ofNames above.reverse).bytes.length < maxPath) (links : Nat) :
    t.canonicalWithin links (above.reverse.map (·.bytes)) (top, []) = .ok (i, above) := by
  have hadvance := fun jump => h.canonicalAdvance_eq hlength jump []
  simp only [List.append_nil, List.map_nil] at hadvance
  cases links with
  | zero => exact hadvance _
  | succ links => exact hadvance _

/-- A path by which the system comes straight down to a node is canonical. -/
theorem Leads.canonical_eq (h : t.Leads top above i)
    (hcheck : checkPath (Path.ofNames above.reverse).bytes = .ok ()) :
    t.canonical (Path.ofNames above.reverse) = .ok (Path.ofNames above.reverse) := by
  obtain ⟨hzero, hlength⟩ := checkPath_eq_ok_iff.1 hcheck
  have hempty : (Path.ofNames above.reverse).isEmpty = false := by
    rw [← Path.clean_ofNames, Path.isEmpty_clean]
  have hfields : t.canonicalWithin maxLinks
      (Bytes.fields Bytes.slash (Path.ofNames above.reverse).bytes) (top, []) = .ok (i, above) := by
    rw [← h.canonicalWithin_eq hlength maxLinks]
    by_cases hne : above.reverse = []
    · rw [hne]
      rfl
    · rw [Path.fields_ofNames _ hne]
      rfl
  simp [canonical, checkZero, hzero, hempty, hfields, spotPath, bind, Except.bind, pure,
    Except.pure]

end Canonical

end ConfinedFs.Os.Tree
