import ConfinedFs.Proofs.Os.Failures
import ConfinedFs.Proofs.Os.HostPath
import ConfinedFs.Proofs.Os.Subtree
import Mathlib.Data.List.Nodup

/-!
Directories that are emptied from the bottom up. What is taken away below a directory is an entry of
a file or a link, or that of a directory which has no entries left. So a directory can only lose its
entry when everything below it is gone, and no node is touched but the directories below.
-/

namespace ConfinedFs.Os

open ConfinedFs.Action (Keeps Spares Triple)

/-- What is left of a directory that has been removed. -/
def Directory.cleared (d : Directory) : Directory := { d with entries := [], removed := true }

/-- A directory after a loss of entries. It may have been removed if it has none left. -/
structure Directory.Thinned (d d' : Directory) : Prop where
  perm : d'.perm = d.perm
  parent : d'.parent = d.parent
  created : d'.created = d.created
  entries : d'.entries.Sublist d.entries
  removed : d'.removed = d.removed ∨ d'.removed = true ∧ d'.entries = []

namespace Directory

variable {d d' : Directory}

theorem Thinned.refl (d : Directory) : d.Thinned d := ⟨rfl, rfl, rfl, .refl _, .inl rfl⟩

/-- One more entry is taken away, so it was not removed before. -/
theorem Thinned.erase {n : Name} {i : NodeId} (h : d.Thinned d') (hn : (n, i) ∈ d'.entries) :
    d.Thinned { d' with entries := Association.erase n d'.entries } := by
  refine ⟨h.perm, h.parent, h.created, List.filter_sublist.trans h.entries, .inl ?_⟩
  refine h.removed.resolve_right fun hgone => ?_
  rw [hgone.2] at hn
  exact List.not_mem_nil hn

theorem Thinned.retire (h : d.Thinned d') (hempty : d'.entries = []) :
    d.Thinned { d' with removed := true } :=
  ⟨h.perm, h.parent, h.created, h.entries, .inr ⟨rfl, hempty⟩⟩

/-- A directory that has lost all entries is the one it was, but for the mark of its removal. -/
theorem Thinned.eq_cleared (h : d.Thinned d') (hempty : d'.entries = []) :
    { d' with removed := true } = d.cleared := by
  obtain ⟨perm, parent, entries, created, removed⟩ := d'
  obtain ⟨rfl, rfl, rfl, -, -⟩ := h
  subst hempty
  rfl

end Directory

namespace Tree

variable {t u : Tree} {i j k dir : NodeId} {d : Directory} {n : Name}

/-- Entries have been taken away below a directory, and only there. One for a directory has been
taken away when that directory was empty and was removed. -/
structure Clears (t : Tree) (i : NodeId) (u : Tree) : Prop where
  rest : ∀ j, ¬ (t.Under i j ∧ t.isDir j = true) → u.node? j = t.node? j
  below : ∀ {j d}, t.Under i j → t.dir? j = some d → ∃ d', u.dir? j = some d' ∧ d.Thinned d'
  lost : ∀ {j d d' n k s}, t.Under i j → t.dir? j = some d → u.dir? j = some d' →
    (n, k) ∈ d.entries → (n, k) ∉ d'.entries → t.dir? k = some s → u.dir? k = some s.cleared

theorem Clears.refl (t : Tree) (i : NodeId) : t.Clears i t := by
  refine ⟨fun _ _ => rfl, fun _ hd => ⟨_, hd, .refl _⟩, ?_⟩
  intro j d d' n k s _ hd hd' hn hnot _
  cases hd.symm.trans hd'
  exact absurd hn hnot

/-- There are no other directories than before. -/
theorem Clears.thinned (h : t.Clears i u) {d' : Directory} (hd' : u.dir? j = some d') :
    ∃ d, t.dir? j = some d ∧ d.Thinned d' := by
  by_cases hj : t.Under i j ∧ t.isDir j = true
  · obtain ⟨d, hd⟩ := isDir_iff.1 hj.2
    obtain ⟨d'', hd'', hthinned⟩ := h.below hj.1 hd
    cases hd'.symm.trans hd''
    exact ⟨d, hd, hthinned⟩
  · rw [dir?_congr (h.rest j hj)] at hd'
    exact ⟨d', hd', .refl d'⟩

section Entries

/-- No directory is an entry of itself. -/
theorem Sound.ne_of_entry (ht : t.Sound) (hd : t.dir? dir = some d) (hn : (n, i) ∈ d.entries) :
    i ≠ dir := by
  rintro rfl
  exact ht.not_mem_entries_of_under (isDir_iff.2 ⟨d, hd⟩) .base hd n hn

theorem Sound.entry_eq (ht : t.Sound) (hd : t.dir? dir = some d) (hi : (n, i) ∈ d.entries)
    (hj : (n, j) ∈ d.entries) : i = j :=
  congrArg Prod.snd (List.inj_on_of_nodup_map (ht.names_nodup hd) hi hj rfl)

theorem Sound.lookup_of_mem (ht : t.Sound) (hd : t.dir? dir = some d) (hi : (n, i) ∈ d.entries) :
    d.entries.lookup n = some i := by
  cases hn : d.entries.lookup n with
  | none => exact absurd (List.lookup_eq_none_iff.1 hn (n, i) hi) (by simp)
  | some j => rw [ht.entry_eq hd hi (Association.mem_of_lookup hn)]

theorem dir?_unlink_retire (hne : k ≠ dir) (hd : u.dir? dir = some d) (j : NodeId) :
    ((u.unlink dir n).retire k).dir? j =
      if j = dir then some { d with entries := Association.erase n d.entries }
      else if j = k then (u.dir? k).map fun s => { s with removed := true }
      else u.dir? j := by
  unfold retire unlink
  rw [dir?_modifyDir, dir?_modifyDir, dir?_modifyDir, if_neg hne, hd]
  by_cases hdir : j = dir
  · subst hdir
    rw [if_neg (Ne.symm hne), if_pos rfl, if_pos rfl]
    rfl
  · rw [if_neg hdir, if_neg hdir]

end Entries

section Drop

variable {d' : Directory} (h : t.Clears i u) (ht : t.Sound) (hdir : t.Under i dir)
  (hd : t.dir? dir = some d) (hn : (n, k) ∈ d.entries) (hd' : u.dir? dir = some d')

include h ht hdir hd hn hd'

omit ht in
/-- Nothing but a directory below is touched. -/
theorem Clears.node?_drop (hj : ¬ (t.Under i j ∧ t.isDir j = true)) :
    ((u.unlink dir n).retire k).node? j = t.node? j := by
  have hjdir : j ≠ dir := by
    rintro rfl
    exact hj ⟨hdir, isDir_iff.2 ⟨d, hd⟩⟩
  have hunlinked : (u.unlink dir n).node? j = t.node? j :=
    (node?_modifyDir_of_ne _ hjdir).trans (h.rest j hj)
  by_cases hjk : j = k
  · subst hjk
    have hnone : (u.unlink dir n).dir? j = none := by
      rw [dir?_congr hunlinked, ← Option.not_isSome_iff_eq_none]
      exact fun hsome => hj ⟨.entry hdir hd hn, hsome⟩
    rw [retire, modifyDir_of_dir?_eq_none hnone, hunlinked]
  · exact (node?_modifyDir_of_ne _ hjk).trans hunlinked

variable (hn' : (n, k) ∈ d'.entries) (hempty : ∀ s, u.dir? k = some s → s.entries = [])

include hn' hempty

theorem Clears.thinned_drop {s : Directory} (hj : t.Under i j) (hs : t.dir? j = some s) :
    ∃ s', ((u.unlink dir n).retire k).dir? j = some s' ∧ s.Thinned s' := by
  obtain ⟨s', hs', hpart⟩ := h.below hj hs
  rw [dir?_unlink_retire (n := n) (ht.ne_of_entry hd hn) hd']
  split
  · next heq =>
    subst heq
    cases hd'.symm.trans hs'
    exact ⟨_, rfl, hpart.erase hn'⟩
  · split
    · next heq =>
      subst heq
      rw [hs']
      exact ⟨_, rfl, hpart.retire (hempty s' hs')⟩
    · exact ⟨s', hs', hpart⟩

/-- What was lost before has been removed, and so is what the entry stands for. -/
theorem Clears.lost_drop {s s' e : Directory} {m : Name} {x : NodeId} (hj : t.Under i j)
    (hs : t.dir? j = some s) (hs' : ((u.unlink dir n).retire k).dir? j = some s')
    (hm : (m, x) ∈ s.entries) (hnot : (m, x) ∉ s'.entries) (he : t.dir? x = some e) :
    ((u.unlink dir n).retire k).dir? x = some e.cleared := by
  have hne := ht.ne_of_entry hd hn
  have hdirs := dir?_unlink_retire (n := n) hne hd'
  obtain ⟨s₁, hs₁, hpart⟩ := h.below hj hs
  by_cases hstill : (m, x) ∈ s₁.entries
  · -- It is the entry that has just been taken away.
    have hjdir : j = dir := by
      by_contra hjdir
      rw [hdirs, if_neg hjdir] at hs'
      split at hs'
      · next heq =>
        subst heq
        rw [hempty s₁ hs₁] at hstill
        exact List.not_mem_nil hstill
      · cases hs₁.symm.trans hs'
        exact hnot hstill
    subst hjdir
    rw [hdirs, if_pos rfl] at hs'
    cases hs'
    cases hd'.symm.trans hs₁
    cases hd.symm.trans hs
    have hmn : m = n := by
      by_contra hmn
      exact hnot (Association.mem_erase.2 ⟨hstill, hmn⟩)
    subst hmn
    obtain rfl : x = k := ht.entry_eq hd hm hn
    obtain ⟨e', he', hlast⟩ := h.below (.entry hdir hd hn) he
    rw [hdirs, if_neg hne, if_pos rfl, he', Option.map_some, hlast.eq_cleared (hempty e' he')]
  · have hcleared := h.lost hj hs hs₁ hm hstill he
    rw [hdirs]
    split
    · next heq =>
      subst heq
      cases hd'.symm.trans hcleared
      cases hn'
    · split
      · next heq =>
        subst heq
        rw [hcleared]
        rfl
      · exact hcleared

end Drop

/-- The entry of what is no directory, or of an empty one, is taken away below the directory. -/
theorem Clears.drop (h : t.Clears i u) (ht : t.Sound) (hdir : t.Under i dir)
    (hk : u.lookup dir n = .ok k) (hempty : ∀ s, u.dir? k = some s → s.entries = []) :
    t.Clears i ((u.unlink dir n).retire k) := by
  obtain ⟨d', hd', hn'⟩ := mem_entries_of_lookup hk
  obtain ⟨d, hd, hthinned⟩ := h.thinned hd'
  have hn : (n, k) ∈ d.entries := hthinned.entries.subset hn'
  exact ⟨fun _ => h.node?_drop hdir hd hn hd', h.thinned_drop ht hdir hd hn hd' hn' hempty,
    h.lost_drop ht hdir hd hn hd' hn' hempty⟩

section Uproots

/-- An entry is gone with everything below it. No other entry is, and no node has changed but the
directories that were below. -/
structure Uproots (t : Tree) (dir : NodeId) (n : Name) (i : NodeId) (u : Tree) : Prop where
  entry : u.dir? dir =
    (t.dir? dir).map fun d => { d with entries := Association.erase n d.entries }
  below : ∀ {j d}, t.Under i j → t.dir? j = some d → u.dir? j = some d.cleared
  rest : ∀ {j}, j ≠ dir → ¬ (t.Under i j ∧ t.isDir j = true) → u.node? j = t.node? j

/-- Nothing is below what is no directory. -/
theorem under_eq_of_not_isDir (hi : t.isDir i = false) (hj : t.Under i j) : j = i := by
  induction hj with
  | base => rfl
  | entry _ hd _ ih =>
    subst ih
    rw [isDir, hd] at hi
    cases hi

theorem uproots_unlink (hi : t.isDir i = false) (hdir : t.isDir dir = true) (n : Name) :
    t.Uproots dir n i (t.unlink dir n) := by
  obtain ⟨d, hd⟩ := isDir_iff.1 hdir
  refine ⟨?_, fun {j s} hj hs => ?_, fun hne _ => node?_modifyDir_of_ne _ hne⟩
  · rw [unlink, dir?_modifyDir, if_pos rfl]
  · rw [under_eq_of_not_isDir hi hj] at hs
    rw [isDir, hs] at hi
    cases hi

/-- Once a directory has no entries left, everything below it has been removed. The induction is on
the way down. -/
theorem Clears.emptied (h : t.Clears i u) (hempty : ∀ d, u.dir? i = some d → d.entries = [])
    (hj : t.Under i j) (hd : t.dir? j = some d) :
    ∃ d', u.dir? j = some d' ∧ d'.entries = [] ∧ (j ≠ i → d' = d.cleared) := by
  induction hj generalizing d with
  | base =>
    obtain ⟨d', hd', _⟩ := h.below .base hd
    exact ⟨d', hd', hempty d' hd', fun hne => absurd rfl hne⟩
  | @entry dir s n j hdir hs hn ih =>
    obtain ⟨s', hs', hnil, _⟩ := ih hs
    have hgone : (n, j) ∉ s'.entries := by
      rw [hnil]
      exact List.not_mem_nil
    exact ⟨d.cleared, h.lost hdir hs hs' hn hgone hd, rfl, fun _ => rfl⟩

/-- The directory that an entry is taken away from is not below the entry. -/
theorem Sound.not_under_of_lookup (ht : t.Sound) (hi : t.isDir i = true)
    (hn : t.lookup dir n = .ok i) : ¬ t.Under i dir := by
  obtain ⟨d, hd, hmem⟩ := mem_entries_of_lookup hn
  exact fun hunder => ht.not_mem_entries_of_under hi hunder hd n hmem

/-- The entry of a directory that is being emptied is still there. -/
theorem Clears.lookup_eq (h : t.Clears i u) (ht : t.Sound) (hi : t.isDir i = true)
    (hn : t.lookup dir n = .ok i) : u.lookup dir n = .ok i := by
  have hsame := h.rest dir fun hj => ht.not_under_of_lookup hi hn hj.1
  rw [← hn]
  simp only [lookup, searched, demand, dir?_congr hsame, hsame]

/-- A directory that has been emptied is removed from the directory it lies in. -/
theorem Clears.uproots (h : t.Clears i u) (ht : t.Sound) (hi : t.isDir i = true)
    (hn : t.lookup dir n = .ok i) (hempty : ∀ d, u.dir? i = some d → d.entries = []) :
    t.Uproots dir n i ((u.unlink dir n).retire i) := by
  obtain ⟨d, hd, hmem⟩ := mem_entries_of_lookup hn
  have hout := ht.not_under_of_lookup hi hn
  have hd' : u.dir? dir = some d := (dir?_congr (h.rest dir fun hj => hout hj.1)).trans hd
  have hne : i ≠ dir := ht.ne_of_entry hd hmem
  have hdirs := dir?_unlink_retire (n := n) hne hd'
  refine ⟨?_, fun {j s} hj hs => ?_, fun {j} hjdir hj => ?_⟩
  · rw [hdirs, if_pos rfl, hd]
    rfl
  · have hjdir : j ≠ dir := fun heq => hout (heq ▸ hj)
    obtain ⟨s', hs', hnil, hcleared⟩ := h.emptied hempty hj hs
    rw [hdirs, if_neg hjdir]
    split
    · next heq =>
      subst heq
      obtain ⟨s'', hs'', hthinned⟩ := h.below hj hs
      rw [hs'', Option.map_some, hthinned.eq_cleared (hempty s'' hs'')]
    · next hji => rw [hs', hcleared hji]
  · have hji : j ≠ i := by
      rintro rfl
      exact hj ⟨.base, hi⟩
    exact ((node?_modifyDir_of_ne _ hji).trans (node?_modifyDir_of_ne _ hjdir)).trans (h.rest j hj)

end Uproots

section Paths

variable {above : List Name}

/-- The path leads through an entry of the directory, or to it. -/
def GoesThrough (t : Tree) (dir : NodeId) (n : Name) (above : List Name) : Prop :=
  ∃ way, t.Named way dir ∧ n :: way <:+ above

theorem GoesThrough.below (h : t.GoesThrough dir n above) (m : Name) :
    t.GoesThrough dir n (m :: above) :=
  let ⟨way, hway, hends⟩ := h
  ⟨way, hway, hends.trans (List.suffix_cons ..)⟩

/-- The last step of a path leads through the entry, or one before. -/
theorem GoesThrough.of_cons {m : Name} (h : t.GoesThrough dir n (m :: above)) :
    m = n ∧ t.Named above dir ∨ t.GoesThrough dir n above := by
  obtain ⟨way, hway, hends⟩ := h
  rcases List.suffix_cons_iff.1 hends with heq | hends
  · obtain ⟨rfl, rfl⟩ := List.cons.inj heq
    exact .inl ⟨rfl, hway⟩
  · exact .inr ⟨way, hway, hends⟩

/-- A path leads to one node. -/
theorem Named.unique (h : t.Named above i) (h' : t.Named above j) : i = j := by
  induction h generalizing j with
  | top =>
    cases h'
    rfl
  | entry _ hd hn ih =>
    cases h' with
    | entry habove hd' hn' =>
      obtain rfl := ih habove
      cases hd.symm.trans hd'
      exact Option.some.inj (hn.symm.trans hn')

/-- All paths to a directory that lies below an entry lead through it. The induction is on the way
down. -/
theorem Sound.goesThrough_of_under (ht : t.Sound) (hd : t.dir? dir = some d)
    (hn : (n, i) ∈ d.entries) (hj : t.Under i j) (hdir : t.isDir j = true)
    (h : t.Named above j) : t.GoesThrough dir n above := by
  -- The last name of a path to a directory is that of its only entry.
  have hlast : ∀ {k : NodeId} {above : List Name} {dir : NodeId} {d : Directory} {n : Name},
      t.isDir k = true → t.Named above k → t.dir? dir = some d → (n, k) ∈ d.entries →
      ∃ way, above = n :: way ∧ t.Named way dir := by
    intro k above dir d n hk hnamed hd hn
    obtain ⟨s, hs⟩ := isDir_iff.1 hk
    obtain ⟨htop, hparent⟩ := ht.entry_parent hd hn hs
    cases hnamed with
    | top => exact absurd rfl htop
    | @entry way _ _ d' m hway hd' hm =>
      have hmem := Association.mem_of_lookup hm
      obtain rfl := hparent.symm.trans (ht.entry_parent hd' hmem hs).2
      cases hd.symm.trans hd'
      exact ⟨way, by rw [ht.entry_unique hd hn hmem hs], hway⟩
  induction hj generalizing above with
  | base =>
    obtain ⟨way, rfl, hway⟩ := hlast hdir h hd hn
    exact ⟨way, hway, List.suffix_refl _⟩
  | @entry dir' d' m j _ hd' hm ih =>
    obtain ⟨way, rfl, hway⟩ := hlast hdir h hd' hm
    exact (ih (isDir_iff.2 ⟨d', hd'⟩) hway).below m

/-- No path leads anywhere else than before. -/
theorem Clears.named (h : t.Clears i u) (ht : t.Sound) (hj : u.Named above j) :
    t.Named above j := by
  induction hj with
  | top => exact .top
  | entry _ hd' hn ih =>
    obtain ⟨d, hd, hthinned⟩ := h.thinned hd'
    exact ih.entry hd (ht.lookup_of_mem hd (hthinned.entries.subset (Association.mem_of_lookup hn)))

section Entry

variable (ht : t.Sound) (hd : t.dir? dir = some d) (hn : (n, i) ∈ d.entries)

include ht hd hn

/-- A path that is lost led through the entry. -/
theorem Clears.named_or_goesThrough (h : t.Clears i u) (hj : t.Named above j) :
    u.Named above j ∨ t.GoesThrough dir n above := by
  induction hj with
  | top => exact .inl .top
  | @entry above dir' k d' m hnamed hd' hm ih =>
    rcases ih with hkept | hthrough
    · by_cases hunder : t.Under i dir' ∧ t.isDir dir' = true
      · exact .inr ((ht.goesThrough_of_under hd hn hunder.1 hunder.2 hnamed).below m)
      · exact .inl (hkept.entry ((dir?_congr (h.rest dir' hunder)).trans hd') hm)
    · exact .inr (hthrough.below m)

omit ht hn in
theorem Uproots.dir?_eq (h : t.Uproots dir n i u) :
    u.dir? dir = some { d with entries := Association.erase n d.entries } := by
  rw [h.entry, hd]
  rfl

omit ht hn in
/-- A path that is left was there before, and does not lead through the entry. -/
theorem Uproots.beside (h : t.Uproots dir n i u) (hj : u.Named above j) :
    t.Named above j ∧ ¬ t.GoesThrough dir n above := by
  induction hj with
  | top => exact ⟨.top, fun ⟨way, _, hends⟩ => nomatch List.suffix_nil.1 hends⟩
  | @entry above dir' k s m _ hs hm ih =>
    obtain ⟨hnamed, hnot⟩ := ih
    by_cases hdir : dir' = dir
    · subst hdir
      cases (h.dir?_eq hd).symm.trans hs
      have hmn : m ≠ n := by
        rintro rfl
        rw [Association.lookup_erase, if_pos rfl] at hm
        cases hm
      exact ⟨hnamed.entry hd (Association.lookup_of_lookup_erase hm), fun hthrough =>
        hthrough.of_cons.elim (fun hlast => hmn hlast.1) hnot⟩
    · by_cases hunder : t.Under i dir' ∧ t.isDir dir' = true
      · obtain ⟨s', hs'⟩ := isDir_iff.1 hunder.2
        cases (h.below hunder.1 hs').symm.trans hs
        cases hm
      · rw [dir?_congr (h.rest hdir hunder)] at hs
        exact ⟨hnamed.entry hs hm, fun hthrough =>
          hthrough.of_cons.elim (fun hlast => hdir (hnamed.unique hlast.2)) hnot⟩

/-- A path that does not lead through the entry is left. -/
theorem Uproots.named (h : t.Uproots dir n i u) (hj : t.Named above j)
    (hnot : ¬ t.GoesThrough dir n above) : u.Named above j := by
  induction hj with
  | top => exact .top
  | @entry above dir' k s m hnamed hs hm ih =>
    have hnot' : ¬ t.GoesThrough dir n above := fun hthrough => hnot (hthrough.below m)
    by_cases hdir : dir' = dir
    · subst hdir
      cases hd.symm.trans hs
      have hmn : m ≠ n := by
        rintro rfl
        exact hnot ⟨above, hnamed, List.suffix_refl _⟩
      refine (ih hnot').entry (h.dir?_eq hd) ?_
      rw [Association.lookup_erase, if_neg hmn, hm]
    · have hout : ¬ (t.Under i dir' ∧ t.isDir dir' = true) := fun hunder =>
        hnot' (ht.goesThrough_of_under hd hn hunder.1 hunder.2 hnamed)
      exact (ih hnot').entry ((dir?_congr (h.rest hdir hout)).trans hs) hm

/-- The paths that do not lead through the entry are those that are left. -/
theorem Uproots.named_iff (h : t.Uproots dir n i u) :
    u.Named above j ↔ t.Named above j ∧ ¬ t.GoesThrough dir n above :=
  ⟨h.beside hd, fun hj => h.named ht hd hn hj.1 hj.2⟩

end Entry

end Paths

section NoLinks

/-- An answer that does not blame the number of links. No links are followed by the calls that take
one name in one directory. -/
def FollowsNone {α : Type} (x : Except Errno α) : Prop := x ≠ .error .loop

variable {α β : Type}

theorem FollowsNone.bind {x : Except Errno α} {f : α → Except Errno β} (hx : FollowsNone x)
    (hf : ∀ a, FollowsNone (f a)) : FollowsNone (x >>= f) := by
  cases x with
  | error e => exact fun heq => hx (congrArg Except.error (Except.error.inj heq))
  | ok a => exact hf a

theorem followsNone_ok (a : α) : FollowsNone (.ok a) := nofun

theorem followsNone_error {e : Errno} (he : e ≠ .loop) :
    FollowsNone (.error e : Except Errno α) :=
  fun heq => he (Except.error.inj heq)

theorem followsNone_checkPath (bytes : Bytes) : FollowsNone (checkPath bytes) := by
  have hzero : FollowsNone (checkZero bytes) := by
    unfold checkZero
    split
    · exact followsNone_error (by decide)
    · exact followsNone_ok _
  refine hzero.bind fun _ => ?_
  unfold checkLength
  split
  · exact followsNone_error (by decide)
  · exact followsNone_ok _

theorem followsNone_placeIn_bind {β : Type} {dir : NodeId} {n : Name} {f : Place → Except Errno β}
    (hf : FollowsNone (f (.entry dir n))) :
    FollowsNone ((placeIn dir n).bind f) := by
  unfold placeIn
  have hcheck := followsNone_checkPath n.bytes
  cases h : checkPath n.bytes with
  | ok => exact hf
  | error e =>
    rw [h] at hcheck
    exact followsNone_error fun he => hcheck (congrArg Except.error he)

theorem followsNone_demand (t : Tree) (a : Access) (i : NodeId) : FollowsNone (t.demand a i) := by
  unfold demand
  split
  · split
    · exact followsNone_ok _
    · exact followsNone_error (by decide)
  · exact followsNone_error (by decide)

theorem followsNone_lookup (t : Tree) (dir : NodeId) (n : Name) : FollowsNone (t.lookup dir n) := by
  have hsearched : FollowsNone (t.searched dir) := by
    unfold searched
    split
    · exact (followsNone_demand t .search dir).bind fun _ => followsNone_ok _
    · exact followsNone_error (by decide)
  refine hsearched.bind fun d => ?_
  have hnoEntry : Errno.noEntry ≠ .loop := by decide
  have hnameTooLong : Errno.nameTooLong ≠ .loop := by decide
  dsimp only
  split
  · exact followsNone_error hnoEntry
  · split
    · exact followsNone_error hnameTooLong
    · split
      · exact followsNone_ok _
      · exact followsNone_error hnoEntry

theorem followsNone_demandRemoval (t : Tree) (dir i : NodeId) :
    FollowsNone (t.demandRemoval dir i) := by
  refine (followsNone_demand t .write dir).bind fun _ => ?_
  split
  · exact followsNone_error (by decide)
  · exact followsNone_ok _

theorem followsNone_existing (t : Tree) (dir : NodeId) (n : Name) :
    FollowsNone (t.existing (.entry dir n)) := by
  have hoccupant : FollowsNone (t.occupant (.entry dir n)) := by
    have hlookup := followsNone_lookup t dir n
    unfold occupant
    cases hfound : t.lookup dir n with
    | ok i =>
      dsimp only
      rw [hfound]
      exact followsNone_ok _
    | error e =>
      rw [hfound] at hlookup
      dsimp only
      rw [hfound]
      dsimp only
      split
      · exact followsNone_ok _
      · exact followsNone_error fun he => hlookup (he ▸ rfl)
  refine hoccupant.bind fun found => ?_
  cases found with
  | some i => exact followsNone_ok _
  | none => exact followsNone_error (by decide)

theorem followsNone_statAt (t : Tree) (dir : NodeId) (n : Name) :
    FollowsNone (t.statAt (.entry dir n)) := by
  refine (followsNone_existing t dir n).bind fun i => ?_
  unfold stat report
  cases t.node? i with
  | some node => exact followsNone_ok _
  | none => exact followsNone_error (by decide)

theorem followsNone_readlinkAt (t : Tree) (dir : NodeId) (n : Name) :
    FollowsNone (t.readlinkAt (.entry dir n)) := by
  refine (followsNone_existing t dir n).bind fun i => ?_
  cases t.link? i with
  | some target => exact followsNone_ok _
  | none => exact followsNone_error (by decide)

theorem followsNone_openDirAt (t : Tree) (dir : NodeId) (n : Name) :
    FollowsNone (t.openDirAt (.entry dir n)) := by
  refine (followsNone_existing t dir n).bind fun i => ?_
  unfold openDir
  split
  · exact followsNone_error (by decide)
  · exact (followsNone_demand t .read i).bind fun _ => followsNone_ok _

theorem followsNone_names (t : Tree) (i : NodeId) : FollowsNone (t.names i) := by
  unfold names
  split
  · exact followsNone_ok _
  · exact followsNone_error (by decide)

end NoLinks

end Tree

namespace Call

variable {t u : Tree} {i dir : NodeId} {n : Name}

/-- A file or a link is removed, or nothing is done. -/
theorem triple_unlink (u : Tree) (dir : NodeId) (n : Name) :
    Triple (· = u) (unlink (.entry dir n))
      (fun _ v => ∃ k, u.lookup dir n = .ok k ∧ u.isDir k = false ∧ v = u.unlink dir n)
      fun e v => v = u ∧ e ≠ .loop := by
  refine Triple.query_bind (fun k hk => ?_) fun e he => ⟨rfl, ?_⟩
  · refine Triple.query_bind (fun _ _ => Triple.look_bind ?_) fun e he => ⟨rfl, ?_⟩
    · refine Triple.guarded (fun _ s hs => ⟨hs, by decide⟩) fun hdir => Triple.update ?_
      rintro s rfl
      exact ⟨k, Tree.lookup_of_existing hk, Bool.eq_false_iff.2 hdir, rfl⟩
    · rintro rfl
      exact Tree.followsNone_demandRemoval u dir k he
  · rintro rfl
    exact Tree.followsNone_existing u dir n he

/-- A directory without entries is removed, or nothing is done. -/
theorem triple_rmdir (u : Tree) (dir : NodeId) (n : Name) :
    Triple (· = u) (rmdir (.entry dir n))
      (fun _ v => ∃ k, u.lookup dir n = .ok k ∧ (∀ s, u.dir? k = some s → s.entries = []) ∧
        v = (u.unlink dir n).retire k)
      fun e v => v = u ∧ e ≠ .loop := by
  refine Triple.query_bind (fun k hk => ?_) fun e he => ⟨rfl, ?_⟩
  · refine Triple.query_bind (fun _ _ => Triple.look_bind ?_) fun e he => ⟨rfl, ?_⟩
    · refine Triple.guarded (fun _ s hs => ⟨hs, by decide⟩) fun _ => ?_
      have hdemand : Triple (· = u) (demandEmpty k)
          (fun _ s => s = u ∧ ∀ d, u.dir? k = some d → d.entries = [])
          fun e s => s = u ∧ e ≠ .loop := by
        refine Triple.look_bind (Triple.guarded (fun _ s hs => ⟨hs, by decide⟩) fun hempty => ?_)
        refine Triple.pure fun s hs => ⟨hs, fun d hd => ?_⟩
        simpa [hd] using hempty
      refine Triple.bind hdemand fun _ => Triple.update ?_
      rintro s ⟨rfl, hempty⟩
      exact ⟨k, Tree.lookup_of_existing hk, hempty, rfl⟩
    · rintro rfl
      exact Tree.followsNone_demandRemoval u dir k he
  · rintro rfl
    exact Tree.followsNone_existing u dir n he

/-- What is removed below a directory, one entry at a time. -/
theorem triple_clears_unlink (ht : t.Sound) (hdir : t.Under i dir) (n : Name) :
    Triple (t.Clears i) (unlink (.entry dir n)) (fun _ => t.Clears i)
      fun e v => t.Clears i v ∧ e ≠ .loop := by
  refine Triple.of_fixed fun u hu => (triple_unlink u dir n).weaken (fun _ h => h) ?_ ?_
  · rintro _ _ ⟨k, hk, hnot, rfl⟩
    have hnone : u.dir? k = none := Option.not_isSome_iff_eq_none.1 (Bool.eq_false_iff.1 hnot)
    have hnone' : (u.unlink dir n).dir? k = none :=
      Option.not_isSome_iff_eq_none.1 (Bool.eq_false_iff.1 ((Tree.isDir_modifyDir ..).trans hnot))
    have hdrop := hu.drop ht hdir hk fun s hs => by cases hnone.symm.trans hs
    rwa [Tree.retire, Tree.modifyDir_of_dir?_eq_none hnone'] at hdrop
  · rintro e _ ⟨rfl, he⟩
    exact ⟨hu, he⟩

theorem triple_clears_rmdir (ht : t.Sound) (hdir : t.Under i dir) (n : Name) :
    Triple (t.Clears i) (rmdir (.entry dir n)) (fun _ => t.Clears i)
      fun e v => t.Clears i v ∧ e ≠ .loop := by
  refine Triple.of_fixed fun u hu => (triple_rmdir u dir n).weaken (fun _ h => h) ?_ ?_
  · rintro _ _ ⟨k, hk, hempty, rfl⟩
    exact hu.drop ht hdir hk hempty
  · rintro e _ ⟨rfl, he⟩
    exact ⟨hu, he⟩

end Call

end ConfinedFs.Os
