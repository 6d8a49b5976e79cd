import ConfinedFs.Proofs.Memory.Observations
import ConfinedFs.Proofs.Path.Names
import Mathlib.Data.List.TakeWhile

/-!
The scan for what is below a place. It starts at the first place behind the given one and stops at
the first that does not start with its names. That is enough because places are ordered name by
name: whatever has a common start stands together, and a place whose last name only goes on with
more bytes comes behind all of it.
-/

namespace ConfinedFs

open ConfinedFs.Path

namespace Key

variable {a d k : Key} {n n' : Name}

/-- Which places are below another one can be told from the components of the paths. -/
theorem components_path_prefix_iff : d.path.components <+: a.path.components ↔ d <+: a := by
  rw [path, path, components_ofNames, components_ofNames, List.cons_prefix_cons,
    List.prefix_map_iff_of_injective fun _ _ => Component.name.inj]
  exact and_iff_right rfl

/-- A place comes before everything below it. -/
theorem lt_of_startsWith (h : d <+: a) (hne : a ≠ d) : d < a := by
  rcases Std.Trichotomous.rel_or_eq_or_rel_swap (r := (· < · : Key → Key → Prop))
    (a := d) (b := a) with hlt | heq | hgt
  · exact hlt
  · exact absurd heq.symm hne
  · exact absurd hgt (List.not_lt.2 h.le)

theorem isBelow_iff_lt : a.isBelow d = true ↔ d <+: a ∧ d < a := by
  rw [isBelow_iff]
  refine and_congr_right fun hstarts => ⟨lt_of_startsWith hstarts, ?_⟩
  rintro hlt rfl
  exact List.lt_irrefl a hlt

/-- A name comes before those that go on with more bytes. -/
theorem name_lt_of_startsWith (h : n.bytes <+: n'.bytes) (hne : n ≠ n') : n < n' := by
  rcases Std.Trichotomous.rel_or_eq_or_rel_swap (r := (· < · : Name → Name → Prop))
    (a := n) (b := n') with hlt | heq | hgt
  · exact hlt
  · exact absurd heq hne
  · exact absurd hgt (List.not_lt.2 h.le)

theorem append_lt_append (k : Key) {l l' : List Name} (h : l < l') : k ++ l < k ++ l' := by
  induction k with
  | nil => exact h
  | cons n k ih => exact List.cons_lt_cons_iff.2 (.inr ⟨rfl, ih⟩)

/-- What goes on with more bytes in the last name comes behind everything below. -/
theorem lt_of_longer (hlonger : n.bytes <+: n'.bytes) (hne : n ≠ n') (ha : k ++ [n] <+: a)
    (rest : List Name) : a < k ++ n' :: rest := by
  obtain ⟨below, rfl⟩ := ha
  rw [List.append_assoc]
  exact append_lt_append k (List.cons_lt_cons_iff.2 (.inl (name_lt_of_startsWith hlonger hne)))

/-- As bytes, the path `/shd!` stands between `/shd` and `/shd/ax`. As a place it comes
behind both. -/
example :
    let shed : Name := ⟨[115, 104, 100], rfl⟩
    let mark : Name := ⟨[115, 104, 100, 33], rfl⟩
    let axe : Name := ⟨[97, 120], rfl⟩
    (path [shed]).bytes < (path [mark]).bytes ∧ (path [mark]).bytes < (path [shed, axe]).bytes ∧
      ([shed, axe] : Key) < [mark] := by
  decide

end Key

namespace Index

variable {x : Index} {d : Key} {e : Entry}

/-- The entries behind a place, in their order. -/
def behind (x : Index) (d : Key) : List Entry := x.entries.dropWhile fun e => !decide (d < e.key)

theorem behind_eq_filter (h : x.Sorted) (d : Key) :
    x.behind d = x.entries.filter fun e => decide (d < e.key) := by
  refine dropWhile_eq_filter (List.Pairwise.imp (fun {a b} hab ha => ?_) h)
  exact decide_eq_true (List.lt_trans (of_decide_eq_true ha) hab)

/-- The scan goes through the entries behind the place and stops at the first that does not start
with its names. -/
theorem descendants_eq_takeWhile (h : x.Sorted) (d : Key) :
    x.descendants d = (x.behind d).takeWhile fun e => d.isPrefixOf e.key := by
  have hrun : (x.behind d).Pairwise fun a b =>
      d.isPrefixOf b.key = true → d.isPrefixOf a.key = true := by
    rw [behind_eq_filter h, List.pairwise_filter]
    refine List.Pairwise.imp (fun {a b} hab ha hb hstarts => ?_) h
    rw [List.isPrefixOf_iff_prefix] at hstarts ⊢
    exact Key.prefix_of_between List.prefix_rfl hstarts (of_decide_eq_true ha) hab
  rw [takeWhile_eq_filter hrun, behind_eq_filter h, List.filter_filter, descendants_eq h]
  refine List.filter_congr fun e _ => ?_
  rw [Bool.eq_iff_iff, Key.isBelow_iff_lt, Bool.and_eq_true, List.isPrefixOf_iff_prefix,
    decide_eq_true_iff]

/-- What is below a place stands in one run. Before it is what does not come behind the place, which
is the last of that if it is stored, and after it is what is not below. -/
theorem descendants_contiguous (h : x.Sorted) (d : Key) : ∃ before after,
    x.entries = before ++ x.descendants d ++ after ∧ (∀ e ∈ before, e.key < d ∨ e.key = d) ∧
      ∀ e ∈ after, d < e.key ∧ ¬ d <+: e.key := by
  have hsplit : x.entries = x.entries.takeWhile (fun e => !decide (d < e.key)) ++
      x.descendants d ++ (x.behind d).dropWhile (fun e => d.isPrefixOf e.key) := by
    rw [descendants_eq_takeWhile h, List.append_assoc, List.takeWhile_append_dropWhile, behind,
      List.takeWhile_append_dropWhile]
  refine ⟨_, _, hsplit, fun e he => ?_, fun e he => ⟨?_, fun hstarts => ?_⟩⟩
  · have hnot : ¬ d < e.key := by simpa using List.mem_takeWhile_imp he
    rcases Std.Trichotomous.rel_or_eq_or_rel_swap (r := (· < · : Key → Key → Prop))
      (a := e.key) (b := d) with hlt | heq | hgt
    · exact .inl hlt
    · exact .inr heq
    · exact absurd hgt hnot
  · have hmem := (List.dropWhile_sublist _).subset he
    rw [behind_eq_filter h] at hmem
    exact of_decide_eq_true (List.mem_filter.1 hmem).2
  · -- An entry below the place would stand in the run as well, and in order no entry comes twice.
    have hmem : e ∈ x.entries := hsplit ▸ List.mem_append_right _ he
    have hbehind := (List.dropWhile_sublist _).subset he
    rw [behind_eq_filter h] at hbehind
    have hlt : d < e.key := of_decide_eq_true (List.mem_filter.1 hbehind).2
    have hne : e.key ≠ d := by
      intro heq
      rw [heq] at hlt
      exact List.lt_irrefl d hlt
    have hrun : e ∈ x.descendants d := (mem_descendants_iff h).2 ⟨hmem, hstarts, hne⟩
    have hsorted : x.entries.Pairwise fun a b => a.key < b.key := h
    rw [hsplit] at hsorted
    have htwice := (List.pairwise_append.1 hsorted).2.2 e (List.mem_append_right _ hrun) e he
    exact List.lt_irrefl e.key htwice

/-- What goes on with more bytes in the last name is not met before the end of the scan. -/
theorem longer_behind_descendants (h : x.Sorted) {k : Key} {n n' : Name} {rest : List Name}
    (hlonger : n.bytes <+: n'.bytes) (hne : n ≠ n') :
    (∀ e ∈ x.descendants (k ++ [n]), e.key < k ++ n' :: rest) ∧
      ¬ k ++ [n] <+: k ++ n' :: rest := by
  refine ⟨fun e he => ?_, fun hstarts => ?_⟩
  · exact Key.lt_of_longer hlonger hne ((mem_descendants_iff h).1 he).2.1 rest
  · have hnames := (List.prefix_append_right_inj k).1 hstarts
    exact hne (List.cons_prefix_cons.1 hnames).1

/-- Removing entries one by one leaves those of other places, in their order. -/
theorem entries_foldl_erase (x : Index) (l : List Entry) :
    (l.foldl (fun x e => x.erase e.key) x).entries =
      x.entries.filter fun e => decide (e.key ∉ l.map (·.key)) := by
  induction l generalizing x with
  | nil => exact (List.filter_eq_self.2 fun e _ => decide_eq_true List.not_mem_nil).symm
  | cons a l ih =>
    rw [List.foldl_cons, ih, erase, List.filter_filter]
    refine List.filter_congr fun e _ => ?_
    rw [Entry.isFor_length]
    by_cases hkey : e.key = a.key <;> simp [hkey]

end Index

namespace Memory

open ConfinedFs.Index (Entry)

variable {m : Memory} {d : Key}

/-- What is left in the index when a place is dropped is what is neither there nor below. -/
theorem entries_prune (h : m.index.Sorted) (d : Key) :
    (m.prune d).index.entries = m.index.entries.filter fun e => !d.isPrefixOf e.key := by
  rw [prune, index_foldl_dropEntry, Index.entries_foldl_erase]
  refine List.filter_congr fun e he => ?_
  have hcontains : m.index.contains e.key = true := by
    rw [Index.contains, Index.find?_of_mem h he]
    rfl
  rw [Bool.eq_iff_iff, decide_eq_true_iff, mem_keys_subtree_iff h, Bool.not_eq_true',
    ← Bool.not_eq_true, List.isPrefixOf_iff_prefix, and_iff_left hcontains]

/-- The scan is exact. What it finds are the entries whose paths start with the components of the
given one and go on, each once and in order. It goes through what is behind the place until the
first entry that does not fit; this is all, as these entries stand in one run, right behind the
place, and entries that only go on with more bytes in the same component come behind the run. So
there is something below a place if anything is found, and dropping a place drops what is there and
below, its slots included, and leaves everything else as it was. -/
theorem scan_exact (h : m.index.Sorted) (d : Key) :
    m.index.descendants d = (m.index.behind d).takeWhile (fun e => d.isPrefixOf e.key) ∧
    m.index.descendants d = m.index.entries.filter (fun e =>
      decide (d.path.components <+: e.key.path.components ∧ e.key ≠ d)) ∧
    (m.index.descendants d).Pairwise (fun a b => a.key < b.key) ∧
    (∃ before after, m.index.entries = before ++ m.index.descendants d ++ after ∧
      (∀ e ∈ before, e.key < d ∨ e.key = d) ∧ ∀ e ∈ after, d < e.key ∧ ¬ d <+: e.key) ∧
    (∀ k n n' rest, d = k ++ [n] → n.bytes <+: n'.bytes → n ≠ n' →
      (∀ e ∈ m.index.descendants d, e.key < k ++ n' :: rest) ∧ ¬ d <+: k ++ n' :: rest) ∧
    (m.hasDescendants d = true ↔ ∃ j i, m.index.find? j = some i ∧ d <+: j ∧ j ≠ d) ∧
    (m.prune d).index.entries = m.index.entries.filter (fun e => !d.isPrefixOf e.key) ∧
    (∀ j i, m.index.find? j = some i → d <+: j → (m.prune d).nodes.get? i = none) ∧
    (∀ i, (∀ j, m.index.find? j = some i → ¬ d <+: j) →
      (m.prune d).nodes.get? i = m.nodes.get? i) ∧
    (m.prune d).cells = m.cells := by
  have hfilter : m.index.descendants d = m.index.entries.filter fun e =>
      decide (d.path.components <+: e.key.path.components ∧ e.key ≠ d) := by
    rw [Index.descendants_eq h]
    refine List.filter_congr fun e _ => ?_
    rw [Bool.eq_iff_iff, Key.isBelow_iff, decide_eq_true_iff, Key.components_path_prefix_iff]
  refine ⟨Index.descendants_eq_takeWhile h d, hfilter, ?_, Index.descendants_contiguous h d, ?_,
    Index.hasDescendants_iff h, entries_prune h d, fun _ _ => get?_prune_eq_none h,
    fun _ => get?_prune_of_forall h, cells_foldl_dropEntry m _⟩
  · rw [hfilter]
    exact List.Pairwise.filter _ h
  · rintro k n n' rest rfl hlonger hne
    exact Index.longer_behind_descendants h hlonger hne

private def standName : Name := ⟨[114, 107], rfl⟩

private def standMarkName : Name := ⟨[114, 107, 33], rfl⟩

private def hookName : Name := ⟨[104, 107], rfl⟩

private def tubName : Name := ⟨[116, 98], rfl⟩

/-- There are `rk`, `rk/hk`, `rk!` and `tb/hk`, but neither `tb` itself nor the top. -/
private def standMemory : Memory where
  nodes := ⟨List.replicate 4 (some ⟨.directory, 0⟩), []⟩
  index := ⟨[{ key := [standName], number := 0 }, { key := [standName, hookName], number := 1 },
    { key := [standMarkName], number := 2 }, { key := [tubName, hookName], number := 3 }]⟩
  cells := [{}]

theorem scan_exact_beside_longer_name :
    standMemory.index.Sorted ∧
    standMemory.index.descendants [standName] = [{ key := [standName, hookName], number := 1 }] ∧
    ([standName, hookName] : Key) < [standMarkName] ∧
    standMemory.hasDescendants [tubName] = true ∧
    (standMemory.prune [standName]).index.entries =
      [{ key := [standMarkName], number := 2 }, { key := [tubName, hookName], number := 3 }] ∧
    (standMemory.prune [standName]).nodes.get? 1 = none ∧
    (standMemory.prune [standName]).nodes.get? 2 = standMemory.nodes.get? 2 := by
  have h : standMemory.index.Sorted := by unfold Index.Sorted; decide
  obtain ⟨-, hfound, -, -, hlonger, -, hleft, hfreed, hkept, -⟩ := scan_exact h [standName]
  obtain ⟨-, -, -, -, -, himplied, -⟩ := scan_exact h [tubName]
  have hrun : standMemory.index.descendants [standName] =
      [{ key := [standName, hookName], number := 1 }] := hfound.trans (by decide)
  refine ⟨h, hrun, ?_, himplied.2 ⟨[tubName, hookName], 3, by decide⟩, hleft.trans (by decide),
    hfreed [standName, hookName] 1 (by decide) (by decide), hkept 2 fun j hj hstarts => ?_⟩
  · exact (hlonger [] standName standMarkName [] rfl (by decide) (by decide)).1 _
      (hrun ▸ List.mem_cons_self ..)
  · have hmem := (Index.find?_eq_some_iff h).1 hj
    have hother : ∀ e ∈ standMemory.index.entries, e.number = 2 → ¬ [standName] <+: e.key := by
      decide
    exact hother _ hmem rfl hstarts

end Memory

end ConfinedFs
