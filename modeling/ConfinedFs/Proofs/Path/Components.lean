import ConfinedFs.Path.Lexical

/-!
Paths made of components. The components of such a path are those it was made
of, as long as the top and the place itself stand in first position only.
-/

namespace ConfinedFs

namespace Bytes

variable {separator : UInt8} {field : Bytes} {l m : List Bytes}

theorem fields_eq_singleton (h : separator ∉ field) : fields separator field = [field] := by
  induction field with
  | nil => rfl
  | cons b rest ih =>
    have hne : b ≠ separator := fun heq => h (heq ▸ List.mem_cons_self ..)
    have hrest := ih fun hmem => h (List.mem_cons_of_mem _ hmem)
    rw [fields, if_neg hne, hrest]

/-- A separator ends the first field. -/
theorem fields_append_cons (h : separator ∉ field) (rest : Bytes) :
    fields separator (field ++ separator :: rest) = field :: fields separator rest := by
  induction field with
  | nil => rw [List.nil_append, fields, if_pos rfl]
  | cons b field ih =>
    have hne : b ≠ separator := fun heq => h (heq ▸ List.mem_cons_self ..)
    have hfield := ih fun hmem => h (List.mem_cons_of_mem _ hmem)
    rw [List.cons_append, fields, if_neg hne, hfield]

theorem join_cons_cons (separator : UInt8) (field : Bytes) (l : List Bytes) (h : l ≠ []) :
    join separator (field :: l) = field ++ separator :: join separator l := by
  cases l with
  | nil => exact absurd rfl h
  | cons next rest => rfl

/-- Fields that hold no separator are found again. -/
theorem fields_join (hne : l ≠ []) (hfree : ∀ field ∈ l, separator ∉ field) :
    fields separator (join separator l) = l := by
  induction l with
  | nil => exact absurd rfl hne
  | cons field l ih =>
    have hfield := hfree field (List.mem_cons_self ..)
    cases l with
    | nil => exact fields_eq_singleton hfield
    | cons next rest =>
      have hrest := ih (List.cons_ne_nil _ _) fun f hf => hfree f (List.mem_cons_of_mem _ hf)
      rw [join_cons_cons _ _ _ (List.cons_ne_nil _ _), fields_append_cons hfield, hrest]

/-- The fields of two strings with a separator between them are those of both. -/
theorem fields_append (separator : UInt8) (a b : Bytes) :
    fields separator (a ++ separator :: b) = fields separator a ++ fields separator b := by
  induction a with
  | nil =>
    show fields separator (separator :: b) = [] :: fields separator b
    rw [fields, if_pos rfl]
  | cons c a ih =>
    rw [List.cons_append, fields, fields, ih]
    by_cases hc : c = separator
    · rw [if_pos hc, if_pos hc, List.cons_append]
    · rw [if_neg hc, if_neg hc]
      cases hfields : fields separator a with
      | nil => exact absurd hfields (fields_ne_nil separator a)
      | cons field others => rfl

/-- With one more field a text does not get shorter. -/
theorem length_join_le (separator : UInt8) (l : List Bytes) (field : Bytes) :
    (join separator l).length ≤ (join separator (l ++ [field])).length := by
  induction l with
  | nil => exact Nat.zero_le _
  | cons first l ih =>
    have hne : l ++ [field] ≠ [] := List.append_ne_nil_of_right_ne_nil l (List.cons_ne_nil _ _)
    rw [List.cons_append, join_cons_cons _ _ _ hne]
    cases l with
    | nil => simp [join]
    | cons next rest =>
      rw [join_cons_cons _ _ _ (List.cons_ne_nil _ _)]
      simpa using ih

theorem mem_join_iff {separator b : UInt8} (hb : b ≠ separator) {l : List Bytes} :
    b ∈ join separator l ↔ ∃ field ∈ l, b ∈ field := by
  induction l with
  | nil => simp [join]
  | cons field l ih =>
    cases l with
    | nil => simp [join]
    | cons field' l => simp [join_cons_cons, hb, ih]

end Bytes

namespace Component

open ConfinedFs.Bytes

/-- A component that may stand anywhere in a path. -/
def IsInner (c : Component) : Prop := c ≠ root ∧ c ≠ current

theorem isInner_parent : IsInner parent := ⟨nofun, nofun⟩

theorem isInner_name (n : Name) : IsInner (name n) := ⟨nofun, nofun⟩

theorem slash_not_mem_text (c : Component) : slash ∉ c.text := by
  cases c with
  | root => exact List.not_mem_nil
  | current => decide
  | parent => decide
  | name n =>
    have hvalid := n.valid
    simp only [ConfinedFs.isName, Bool.and_eq_true, Bool.not_eq_true'] at hvalid
    intro hmem
    have hcontains := List.contains_iff_mem.2 hmem
    rw [show (name n).text = n.bytes from rfl, hvalid.1.1.2] at hcontains
    cases hcontains

theorem text_ne_nil {c : Component} (h : c.IsInner) : c.text ≠ [] := by
  cases c with
  | root => exact absurd rfl h.1
  | current => exact absurd rfl h.2
  | parent => exact List.cons_ne_nil _ _
  | name n =>
    intro hnil
    have hvalid := n.valid
    rw [show n.bytes = [] from hnil] at hvalid
    cases hvalid

theorem text_ne_dot {c : Component} (h : c.IsInner) : c.text ≠ [dot] := by
  cases c with
  | root => exact absurd rfl h.1
  | current => exact absurd rfl h.2
  | parent => decide
  | name n =>
    intro hdot
    have hvalid := n.valid
    rw [show n.bytes = [dot] from hdot] at hvalid
    cases hvalid

/-- An inner component is read as it was written. -/
theorem ofField?_text {c : Component} (h : c.IsInner) : ofField? c.text = some c := by
  cases c with
  | root => exact absurd rfl h.1
  | current => exact absurd rfl h.2
  | parent => rfl
  | name n =>
    have hne : n.bytes ≠ [dot, dot] := by
      intro hdots
      have hvalid := n.valid
      rw [hdots] at hvalid
      cases hvalid
    rw [ofField?, show (name n).text = n.bytes from rfl, if_neg hne, Name.ofBytes?_bytes]
    rfl

end Component

namespace Path

open ConfinedFs.Bytes ConfinedFs.Component

/-- The components that the fields of a path stand for, without what the first
one tells. -/
def inner (p : Path) : List Component := (fields slash p.bytes).filterMap ofField?

theorem filterMap_text {cs : List Component} (h : ∀ c ∈ cs, c.IsInner) :
    (cs.map text).filterMap ofField? = cs := by
  induction cs with
  | nil => rfl
  | cons c cs ih =>
    have hrest := ih fun d hd => h d (List.mem_cons_of_mem _ hd)
    rw [List.map_cons, List.filterMap_cons, ofField?_text (h c (List.mem_cons_self ..)), hrest]

theorem fields_join_text {cs : List Component} (h : cs ≠ []) :
    fields slash (Bytes.join slash (cs.map text)) = cs.map text := by
  apply fields_join
  · simpa using h
  · intro field hfield
    obtain ⟨c, _, rfl⟩ := List.mem_map.1 hfield
    exact slash_not_mem_text c

/-- The components are those of the fields, after what the first field tells. -/
theorem components_eq (p : Path) : p.components =
    if p.isAbsolute then .root :: p.inner
    else if (fields slash p.bytes).head? = some [dot] then .current :: p.inner
    else p.inner :=
  rfl

section OfComponents

variable {cs : List Component}

theorem bytes_ofComponents_root (h : cs ≠ []) :
    (ofComponents (.root :: cs)).bytes = slash :: Bytes.join slash (cs.map text) := by
  cases cs with
  | nil => exact absurd rfl h
  | cons c cs => rfl

theorem isAbsolute_ofComponents_root (cs : List Component) :
    (ofComponents (.root :: cs)).isAbsolute = true := by
  cases cs with
  | nil => rfl
  | cons c cs => rfl

theorem inner_ofComponents_root (h : ∀ c ∈ cs, c.IsInner) :
    (ofComponents (.root :: cs)).inner = cs := by
  by_cases hne : cs = []
  · subst hne
    rfl
  · have hfields := fields_join_text hne
    rw [inner, bytes_ofComponents_root hne, fields, if_pos rfl, hfields, List.filterMap_cons]
    exact filterMap_text h

theorem components_ofComponents_root (h : ∀ c ∈ cs, c.IsInner) :
    (ofComponents (.root :: cs)).components = .root :: cs := by
  rw [components_eq, isAbsolute_ofComponents_root, if_pos rfl, inner_ofComponents_root h]

theorem bytes_ofComponents (h : ∀ c ∈ cs, c.IsInner) :
    (ofComponents cs).bytes = Bytes.join slash (cs.map text) := by
  unfold ofComponents
  split
  · exact absurd rfl (h .root (List.mem_cons_self ..)).1
  · rfl

theorem fields_ofComponents (h : ∀ c ∈ cs, c.IsInner) (hne : cs ≠ []) :
    fields slash (ofComponents cs).bytes = cs.map text := by
  rw [bytes_ofComponents h, fields_join_text hne]

theorem inner_ofComponents (h : ∀ c ∈ cs, c.IsInner) : (ofComponents cs).inner = cs := by
  by_cases hne : cs = []
  · subst hne
    rfl
  · rw [inner, fields_ofComponents h hne, filterMap_text h]

theorem isAbsolute_ofComponents (h : ∀ c ∈ cs, c.IsInner) :
    (ofComponents cs).isAbsolute = false := by
  cases cs with
  | nil => rfl
  | cons c cs =>
    have hfields := fields_ofComponents h (List.cons_ne_nil c cs)
    have hne := text_ne_nil (h c (List.mem_cons_self ..))
    -- The first field of an absolute path is empty.
    rw [isAbsolute, beq_eq_false_iff_ne]
    intro hhead
    cases hbytes : (ofComponents (c :: cs)).bytes with
    | nil =>
      rw [hbytes] at hhead
      cases hhead
    | cons b rest =>
      rw [hbytes] at hhead hfields
      rw [fields, if_pos (Option.some.inj hhead)] at hfields
      exact hne (List.cons.inj hfields).1.symm

theorem components_ofComponents (h : ∀ c ∈ cs, c.IsInner) : (ofComponents cs).components = cs := by
  rw [components_eq, isAbsolute_ofComponents h, inner_ofComponents h, if_neg Bool.false_ne_true]
  cases cs with
  | nil => rfl
  | cons c cs =>
    rw [fields_ofComponents h (List.cons_ne_nil c cs), if_neg]
    intro hhead
    exact text_ne_dot (h c (List.mem_cons_self ..)) (Option.some.inj hhead)

end OfComponents

end Path

end ConfinedFs
