import ConfinedFs.Memory.Index

/-!
The order of the index. Whatever lies between two places below the same one lies
below it as well. So the run that the index is searched for is the whole of what
is stored below a place.
-/

namespace ConfinedFs

namespace Key

variable {k a b c : Key}

theorem isBelow_iff : a.isBelow k = true ↔ k <+: a ∧ a ≠ k := by
  unfold isBelow
  rw [Bool.and_eq_true, List.isPrefixOf_iff_prefix, decide_eq_true_iff]
  constructor
  · rintro ⟨hstarts, hlt⟩
    refine ⟨hstarts, ?_⟩
    rintro rfl
    exact Nat.lt_irrefl _ hlt
  · rintro ⟨hstarts, hne⟩
    refine ⟨hstarts, Nat.lt_of_le_of_ne hstarts.length_le ?_⟩
    intro hlength
    exact hne (hstarts.eq_of_length hlength).symm

/-- Between two places that start with the same names there are only such
places. -/
theorem prefix_of_between (ha : k <+: a) (hc : k <+: c) (hab : a < b) (hbc : b < c) : k <+: b := by
  induction k generalizing a b c with
  | nil => exact List.nil_prefix
  | cons n k ih =>
    obtain ⟨m, rfl⟩ := ha
    obtain ⟨l, rfl⟩ := hc
    cases b with
    | nil => cases hab
    | cons p b =>
      rw [List.cons_append, List.cons_lt_cons_iff] at hab hbc
      rcases hab with hnp | ⟨rfl, hab⟩
      · rcases hbc with hpn | ⟨rfl, _⟩
        · exact absurd hpn (List.lt_asymm (α := UInt8) hnp)
        · exact absurd hnp (Std.Irrefl.irrefl _)
      · rcases hbc with hpn | ⟨_, hbc⟩
        · exact absurd hpn (Std.Irrefl.irrefl _)
        · have hstarts := ih (List.prefix_append k m) (List.prefix_append k l) hab hbc
          exact List.cons_prefix_cons.2 ⟨rfl, hstarts⟩

theorem isBelow_of_between (ha : a.isBelow k = true) (hc : c.isBelow k = true) (hab : a < b)
    (hbc : b < c) : b.isBelow k = true := by
  rw [isBelow_iff] at ha hc ⊢
  refine ⟨prefix_of_between ha.1 hc.1 hab hbc, ?_⟩
  rintro rfl
  exact absurd hab (List.not_lt.2 ha.1.le)

end Key

namespace Index

variable {x : Index} {k j : Key} {i : Nat} {e e' : Entry}

theorem Entry.ext (hkey : e.key = e'.key) (hnumber : e.number = e'.number) : e = e' := by
  obtain ⟨key, number, depth, hdepth⟩ := e
  obtain ⟨key', number', depth', hdepth'⟩ := e'
  dsimp only at hkey hnumber
  subst hkey hnumber hdepth hdepth'
  rfl

/-- The places are in order, each of them once. -/
def Sorted (x : Index) : Prop := x.entries.Pairwise fun a b => a.key < b.key

theorem sorted_erase (h : x.Sorted) (k : Key) : (x.erase k).Sorted :=
  List.Pairwise.filter _ h

theorem mem_insertEntry {l : List Entry} (h : e ∈ insertEntry k i l) :
    e.key = k ∨ e ∈ l := by
  induction l with
  | nil =>
    rw [List.mem_singleton.1 h]
    exact .inl rfl
  | cons a l ih =>
    rw [insertEntry] at h
    split at h
    · rcases List.mem_cons.1 h with rfl | h
      · exact .inr (List.mem_cons_self ..)
      · rcases ih h with hkey | hmem
        · exact .inl hkey
        · exact .inr (List.mem_cons_of_mem _ hmem)
    · split at h
      · rcases List.mem_cons.1 h with rfl | h
        · exact .inl rfl
        · exact .inr (List.mem_cons_of_mem _ h)
      · rcases List.mem_cons.1 h with rfl | h
        · exact .inl rfl
        · exact .inr h

theorem sorted_insert (h : x.Sorted) (k : Key) (i : Nat) : (x.insert k i).Sorted := by
  obtain ⟨l⟩ := x
  show (insertEntry k i l).Pairwise fun a b => a.key < b.key
  have hl : l.Pairwise fun a b => a.key < b.key := h
  clear h
  induction l with
  | nil => exact List.pairwise_singleton _ _
  | cons a l ih =>
    obtain ⟨ha, hl⟩ := List.pairwise_cons.1 hl
    rw [insertEntry]
    split
    · next hlt =>
      refine List.pairwise_cons.2 ⟨?_, ih hl⟩
      intro b hb
      rcases mem_insertEntry hb with hkey | hmem
      · rw [hkey]
        exact hlt
      · exact ha b hmem
    · next hnot =>
      split
      · next heq =>
        refine List.pairwise_cons.2 ⟨?_, hl⟩
        intro b hb
        rw [← heq]
        exact ha b hb
      · next hne =>
        have hlt : k < a.key := by
          rcases Std.Trichotomous.rel_or_eq_or_rel_swap (r := (· < · : Key → Key → Prop))
            (a := k) (b := a.key) with hlt | heq | hgt
          · exact hlt
          · exact absurd heq.symm hne
          · exact absurd hgt hnot
        refine List.pairwise_cons.2 ⟨?_, List.pairwise_cons.2 ⟨ha, hl⟩⟩
        intro b hb
        rcases List.mem_cons.1 hb with rfl | hb
        · exact hlt
        · exact List.lt_trans hlt (ha b hb)

/-- No place is stored twice. -/
theorem eq_of_key_eq (h : x.Sorted) (he : e ∈ x.entries) (he' : e' ∈ x.entries)
    (hkey : e.key = e'.key) : e = e' := by
  obtain ⟨l⟩ := x
  have hl : l.Pairwise fun a b => a.key < b.key := h
  replace he : e ∈ l := he
  replace he' : e' ∈ l := he'
  clear h
  induction l with
  | nil => cases he
  | cons a l ih =>
    obtain ⟨ha, hl⟩ := List.pairwise_cons.1 hl
    rcases List.mem_cons.1 he with rfl | hmem
    · rcases List.mem_cons.1 he' with rfl | hmem'
      · rfl
      · have hlt := ha e' hmem'
        rw [hkey] at hlt
        exact absurd hlt (List.lt_irrefl _)
    · rcases List.mem_cons.1 he' with rfl | hmem'
      · have hlt := ha e hmem
        rw [hkey] at hlt
        exact absurd hlt (List.lt_irrefl _)
      · exact ih hl hmem hmem'

/-- Looking a place up finds what is stored. -/
theorem find?_eq_some_iff (h : x.Sorted) :
    x.find? k = some i ↔ ({ key := k, number := i } : Entry) ∈ x.entries := by
  rw [find?_eq]
  constructor
  · intro hfind
    obtain ⟨e, he, hnumber⟩ := Option.map_eq_some_iff.1 hfind
    have hkey : e.key = k := by simpa using List.find?_some he
    have hentry : e = { key := k, number := i } := Entry.ext hkey hnumber
    rw [← hentry]
    exact List.mem_of_find?_eq_some he
  · intro hmem
    cases hfind : x.entries.find? fun e => e.key = k with
    | none => simpa using List.find?_eq_none.1 hfind _ hmem
    | some e =>
      have hkey : e.key = k := by simpa using List.find?_some hfind
      have hentry := eq_of_key_eq h (List.mem_of_find?_eq_some hfind) hmem hkey
      rw [hentry, Option.map_some]

theorem find?_of_mem (h : x.Sorted) (he : e ∈ x.entries) : x.find? e.key = some e.number := by
  have hentry : e = { key := e.key, number := e.number } := Entry.ext rfl rfl
  rw [find?_eq_some_iff h, ← hentry]
  exact he

/-- In a list in which nothing that fits comes behind something that does not, what fits stands at
the start. -/
theorem takeWhile_eq_filter {α : Type} {p : α → Bool} {l : List α}
    (h : l.Pairwise fun a b => p b = true → p a = true) :
    l.takeWhile p = l.filter p := by
  induction l with
  | nil => rfl
  | cons a l ih =>
    obtain ⟨ha, hl⟩ := List.pairwise_cons.1 h
    cases hfits : p a with
    | true =>
      rw [List.takeWhile_cons_of_pos hfits, List.filter_cons_of_pos hfits, ih hl]
    | false =>
      have hnone : ∀ b ∈ l, ¬ p b = true := by
        intro b hb hfits'
        rw [ha b hb hfits'] at hfits
        cases hfits
      rw [List.takeWhile_cons_of_neg (by simp [hfits]), List.filter_cons_of_neg (by simp [hfits]),
        List.filter_eq_nil_iff.2 hnone]

/-- In a list in which everything behind something that fits does so, what fits is left when the
start is dropped. -/
theorem dropWhile_eq_filter {α : Type} {p : α → Bool} {l : List α}
    (h : l.Pairwise fun a b => p a = true → p b = true) :
    l.dropWhile (fun a => !p a) = l.filter p := by
  induction l with
  | nil => rfl
  | cons a l ih =>
    obtain ⟨ha, hl⟩ := List.pairwise_cons.1 h
    cases hfits : p a with
    | true =>
      rw [List.dropWhile_cons_of_neg (by simp [hfits]), List.filter_cons_of_pos hfits,
        List.filter_eq_self.2 fun b hb => ha b hb hfits]
    | false =>
      rw [List.dropWhile_cons_of_pos (by simp [hfits]), List.filter_cons_of_neg (by simp [hfits]),
        ih hl]

/-- After a place below another one, the first place that is not below it ends
the run. -/
theorem takeWhile_isBelow {a : Entry} {l : List Entry} (hbelow : a.key.isBelow k = true)
    (ha : ∀ b ∈ l, a.key < b.key) (hl : l.Pairwise fun a b => a.key < b.key) :
    l.takeWhile (·.key.isBelow k) = l.filter (·.key.isBelow k) := by
  refine takeWhile_eq_filter (List.Pairwise.imp_of_mem (fun {b c} hb _ hbc hc => ?_) hl)
  exact Key.isBelow_of_between hbelow hc (ha b hb) hbc

/-- Everything below a place stands in one run, which is all that is looked at. -/
theorem descendants_eq (h : x.Sorted) (k : Key) :
    x.descendants k = x.entries.filter fun e => e.key.isBelow k := by
  obtain ⟨l⟩ := x
  show (l.dropWhile fun e => !e.isUnder k k.length).takeWhile (·.isUnder k k.length) = _
  simp only [Entry.isUnder_length]
  have hl : l.Pairwise fun a b => a.key < b.key := h
  clear h
  induction l with
  | nil => rfl
  | cons a l ih =>
    obtain ⟨ha, hl⟩ := List.pairwise_cons.1 hl
    cases haBelow : a.key.isBelow k with
    | true =>
      rw [List.dropWhile_cons, if_neg (by simp [haBelow]), List.takeWhile_cons, List.filter_cons,
        if_pos haBelow, if_pos haBelow, takeWhile_isBelow haBelow ha hl]
    | false =>
      rw [List.dropWhile_cons, if_pos (by simp [haBelow]), ih hl, List.filter_cons,
        if_neg (Bool.eq_false_iff.1 haBelow)]

theorem mem_descendants_iff (h : x.Sorted) :
    e ∈ x.descendants k ↔ e ∈ x.entries ∧ k <+: e.key ∧ e.key ≠ k := by
  rw [descendants_eq h, List.mem_filter, Key.isBelow_iff]

/-- There is something below a place if some place below it is stored. -/
theorem hasDescendants_iff (h : x.Sorted) :
    x.hasDescendants k = true ↔ ∃ j i, x.find? j = some i ∧ k <+: j ∧ j ≠ k := by
  unfold hasDescendants
  rw [Bool.not_eq_true', List.isEmpty_eq_false_iff_exists_mem]
  constructor
  · rintro ⟨e, he⟩
    obtain ⟨hmem, hbelow⟩ := (mem_descendants_iff h).1 he
    exact ⟨e.key, e.number, find?_of_mem h hmem, hbelow⟩
  · rintro ⟨j, i, hfind, hbelow⟩
    exact ⟨_, (mem_descendants_iff h).2 ⟨(find?_eq_some_iff h).1 hfind, hbelow⟩⟩

/-- The subtree of a place is what is stored there and below. -/
theorem mem_subtree_iff (h : x.Sorted) : e ∈ x.subtree k ↔ e ∈ x.entries ∧ k <+: e.key := by
  unfold subtree
  cases hfind : x.find? k with
  | none =>
    rw [mem_descendants_iff h]
    constructor
    · rintro ⟨hmem, hstarts, _⟩
      exact ⟨hmem, hstarts⟩
    · rintro ⟨hmem, hstarts⟩
      refine ⟨hmem, hstarts, ?_⟩
      rintro rfl
      rw [find?_of_mem h hmem] at hfind
      cases hfind
  | some i =>
    rw [List.mem_cons, mem_descendants_iff h]
    have hhere := (find?_eq_some_iff h).1 hfind
    constructor
    · rintro (rfl | ⟨hmem, hstarts, _⟩)
      · exact ⟨hhere, List.prefix_rfl⟩
      · exact ⟨hmem, hstarts⟩
    · rintro ⟨hmem, hstarts⟩
      by_cases hkey : e.key = k
      · exact .inl (eq_of_key_eq h hmem hhere hkey)
      · exact .inr ⟨hmem, hstarts, hkey⟩

end Index

end ConfinedFs
