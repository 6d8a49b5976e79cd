import ConfinedFs.Proofs.Layer.WellNamed
import ConfinedFs.Proofs.Path.Remainder
import ConfinedFs.Proofs.Path.Retracing
import ConfinedFs.Rooted.FileSystem

/-!
The paths that are tried for a temporary file of a confined host. The digits at the end are seen in
the last name only, so all of the paths go down to the same directory, and this is at or below the
one that has been asked for. What the file is to be called may put more names in between.
-/

namespace ConfinedFs

open ConfinedFs.BareFileSystem (temporaryName tempCandidate)

variable {p dir rel : Path} {names : List Name} {stem : Bytes}

section Naming

/-- Without steps up, it is by names that a temporary name leads down. -/
theorem exists_inner_temporaryName (h : .parent ∉ (⟨stem⟩ : Path).components) :
    ∃ names : List Name, ∀ word, ∃ n : Name,
      (⟨temporaryName stem word⟩ : Path).inner = (names ++ [n]).map .name := by
  obtain ⟨cs, hcs, hinner⟩ := exists_inner_append_name stem
  obtain ⟨n, hn⟩ := hinner 0
  have hparent : .parent ∉ (⟨temporaryName stem 0⟩ : Path).components := by
    rw [Path.parent_mem_components_iff, hn]
    simpa using fun hmem => h (hcs hmem)
  obtain ⟨names, _, -, rfl, -⟩ :=
    List.map_eq_append_iff.1 ((Path.inner_eq_names hparent).symm.trans hn)
  refine ⟨names, fun word => ?_⟩
  obtain ⟨m, hm⟩ := hinner word
  exact ⟨m, by rw [hm, List.map_append, List.map_singleton]⟩

theorem isAbsolute_temporaryName (stem : Bytes) (word : UInt32) :
    (⟨temporaryName stem word⟩ : Path).isAbsolute = (⟨stem⟩ : Path).isAbsolute := by
  obtain ⟨digits, hname, hslash, -, hne⟩ := exists_digits stem word
  rw [hname, Path.isAbsolute, Path.isAbsolute]
  cases stem with
  | cons b stem => rfl
  | nil =>
    obtain ⟨b, digits, rfl⟩ := List.exists_cons_of_ne_nil hne
    have hb : b ≠ Bytes.slash := fun heq => hslash (heq ▸ List.mem_cons_self ..)
    simpa using hb

end Naming

/-- The path goes down by the names, and to an entry there. -/
structure Path.EntryOf (p : Path) (rooted : Bool) (above : List Name) : Prop where
  isAbsolute : p.isAbsolute = rooted
  noParent : .parent ∉ p.components
  names : ∃ n, p.names = above ++ [n]

/-- The candidates in a directory are entries of one and the same, which is the directory or is
below it. -/
theorem entryOf_tempCandidate (hdir : .parent ∉ dir.components)
    (hstem : .parent ∉ (⟨stem⟩ : Path).components) : ∃ rooted above, dir.names <+: above ∧
      (dir.isAbsolute = true → rooted = true) ∧
      (rooted = true → dir.isAbsolute = true ∨ dir.names = []) ∧
      ∀ draws i, (tempCandidate draws dir stem i).EntryOf rooted above := by
  obtain ⟨names, hnames⟩ := exists_inner_temporaryName hstem
  have hentry : ∀ {q : Path} {rooted above n}, q.isAbsolute = rooted →
      q.inner = (above ++ [n]).map .name → q.clean.EntryOf rooted above := by
    intro q rooted above n habsolute hinner
    have hclean : q.clean.inner = (above ++ [n]).map .name := by
      rw [Path.inner_clean, Path.settled_eq_of_noParent (Path.noParent_of_inner hinner),
        Path.names_of_inner hinner]
    exact ⟨(Path.isAbsolute_clean q).trans habsolute, Path.noParent_of_inner hclean, n,
      Path.names_of_inner hclean⟩
  cases hempty : dir.isEmpty with
  | true =>
    have hnone := Path.names_eq_nil hempty
    refine ⟨(⟨stem⟩ : Path).isAbsolute, names, hnone ▸ List.nil_prefix, fun hrooted => ?_,
      fun _ => .inr hnone, fun draws i => ?_⟩
    · rw [Path.isEmpty_of_isAbsolute hrooted] at hempty
      cases hempty
    · obtain ⟨n, hn⟩ := hnames (draws i)
      rw [tempCandidate, Path.join, if_pos hempty]
      exact hentry (isAbsolute_temporaryName stem _) hn
  | false =>
    refine ⟨dir.isAbsolute, dir.names ++ names, List.prefix_append .., id, .inl, fun draws i => ?_⟩
    obtain ⟨n, hn⟩ := hnames (draws i)
    obtain ⟨q, hq, hinner, habsolute⟩ := Path.join_eq_clean hempty ⟨temporaryName stem (draws i)⟩
    rw [tempCandidate, hq]
    refine hentry habsolute (n := n) ?_
    rw [hinner, hn, Path.inner_eq_names hdir, ← List.map_append, List.append_assoc]

namespace Confined

variable {c : Confined}

/-- What is left of a path below the base. -/
theorem relative_of_isAbsolute (hp : p.isAbsolute = true) (h : c.relative p = .ok rel) :
    c.base.isAbsolute = true ∧ c.base.names <+: p.names ∧
      rel = Path.below (p.names.drop c.base.names.length) := by
  unfold relative at h
  rw [if_pos hp] at h
  cases hrel : c.base.remainder? p with
  | none =>
    rw [hrel] at h
    cases h
  | some q =>
    rw [hrel] at h
    cases h
    have hbase : c.base.isAbsolute = true := (Path.leads_of_remainder? hrel).absolute.symm.trans hp
    rw [Path.remainder?_eq hbase hp] at hrel
    split at hrel
    · next hstarts =>
      cases hrel
      exact ⟨hbase, hstarts, rfl⟩
    · cases hrel

theorem relative_eq_ok (hbase : c.base.isAbsolute = true) (hp : p.isAbsolute = true)
    (hstarts : c.base.names <+: p.names) :
    c.relative p = .ok (Path.below (p.names.drop c.base.names.length)) := by
  unfold relative
  rw [if_pos hp, Path.remainder?_eq hbase hp, if_pos hstarts]

theorem relative_of_not_isAbsolute (hp : p.isAbsolute = false) :
    c.relative p = .ok (if p.isEmpty then Path.here else p) := by
  unfold relative
  rw [if_neg (by rw [hp]; exact Bool.false_ne_true)]
  split
  · rfl
  · rfl

theorem names_of_relative (hp : p.isAbsolute = false) (h : c.relative p = .ok rel) :
    rel.names = p.names := by
  rw [relative_of_not_isAbsolute hp] at h
  cases h
  split
  · next hempty => exact (Path.names_eq_nil hempty).symm
  · rfl

theorem descends_of_relative (h : .parent ∉ p.components) (hrel : c.relative p = .ok rel) :
    rel.Descends := by
  unfold relative at hrel
  split at hrel
  · next habsolute =>
    split at hrel
    · next hremainder =>
      cases hrel
      exact Path.descends_of_remainder? habsolute hremainder
    · cases hrel
  · next hrelative =>
    split at hrel
    · cases hrel
      exact Path.descends_below []
    · cases hrel
      exact ⟨Bool.eq_false_iff.2 hrelative, h⟩

/-- What is left of the names below the base, of which nothing is left anywhere else. -/
def left (c : Confined) (names : List Name) : List Name :=
  if c.base.isAbsolute = true ∧ c.base.names <+: names then names.drop c.base.names.length else []

/-- What is left of an entry is an entry of what is left of its directory. If the base is not
above this directory it can only be the entry itself. -/
theorem dropLast_names_of_relative {above : List Name} {q : Path} (h : p.EntryOf true above)
    (hq : c.relative p = .ok q) : q.names.dropLast = c.left above := by
  obtain ⟨hbase, hstarts, rfl⟩ := relative_of_isAbsolute h.isAbsolute hq
  obtain ⟨n, hn⟩ := h.names
  rw [Path.names_below, hn, left]
  split
  · next hbelow => rw [List.drop_append_of_le_length hbelow.2.length_le, List.dropLast_concat]
  · next hbelow =>
    rw [hn] at hstarts
    have heq := (List.prefix_concat_iff.1 hstarts).resolve_right fun h => hbelow ⟨hbase, h⟩
    rw [heq, List.drop_length, List.dropLast_nil]

theorem left_of_error {above : List Name} {e : FileError} (h : p.EntryOf true above)
    (he : c.relative p = .error e) : c.left above = [] := by
  rw [left, if_neg]
  rintro ⟨hbase, hbelow⟩
  obtain ⟨n, hn⟩ := h.names
  rw [relative_eq_ok hbase h.isAbsolute (hn ▸ hbelow.trans (List.prefix_append ..))] at he
  cases he

/-- The candidates for a temporary file are found in one directory, at or below the one that is
asked for. If some of them are outside of the base there are no directories on the way. -/
theorem exists_above (hdir : .parent ∉ dir.components)
    (hstem : .parent ∉ (⟨stem⟩ : Path).components) (hrel : c.relative dir = .ok rel) :
    ∃ above : List Name, rel.names <+: above ∧ ∀ draws i,
      (∀ e, c.relative (tempCandidate draws dir stem i) = .error e → above = []) ∧
      ∀ q, c.relative (tempCandidate draws dir stem i) = .ok q →
        q.Descends ∧ q.names.dropLast = above := by
  obtain ⟨rooted, above, hstarts, hdown, hup, hentry⟩ := entryOf_tempCandidate hdir hstem
  cases rooted with
  | false =>
    have hrelative : dir.isAbsolute = false := Bool.eq_false_iff.2 fun h => nomatch hdown h
    refine ⟨above, names_of_relative hrelative hrel ▸ hstarts, fun draws i => ⟨?_, ?_⟩⟩
    · intro e he
      rw [relative_of_not_isAbsolute (hentry draws i).isAbsolute] at he
      cases he
    · intro q hq
      obtain ⟨n, hn⟩ := (hentry draws i).names
      refine ⟨descends_of_relative (hentry draws i).noParent hq, ?_⟩
      rw [names_of_relative (hentry draws i).isAbsolute hq, hn, List.dropLast_concat]
  | true =>
    refine ⟨c.left above, ?_, fun draws i => ⟨fun e => left_of_error (hentry draws i), ?_⟩⟩
    · cases habsolute : dir.isAbsolute with
      | false =>
        have hnone := (hup rfl).resolve_left (by rw [habsolute]; exact Bool.false_ne_true)
        rw [names_of_relative habsolute hrel, hnone]
        exact List.nil_prefix
      | true =>
        obtain ⟨hbase, hbelow, rfl⟩ := relative_of_isAbsolute habsolute hrel
        obtain ⟨rest, rfl⟩ := hstarts
        rw [left, if_pos ⟨hbase, hbelow.trans (List.prefix_append ..)⟩, Path.names_below,
          List.drop_append_of_le_length hbelow.length_le]
        exact List.prefix_append ..
    · intro q hq
      exact ⟨descends_of_relative (hentry draws i).noParent hq,
        dropLast_names_of_relative (hentry draws i) hq⟩

end Confined

end ConfinedFs
