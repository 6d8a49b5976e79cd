import ConfinedFs.Proofs.Path.Clean

/-!
The normal form of a path. Where a path leads lexically can be told from its fields, on a stack: a
field is put down, `..` takes one away, and where there is none it counts as one level up, or not at
all from the top. A clean path is this location written down, so two paths have one clean form if
they denote one location, and a path is in this form if nothing in it could be left out.
-/

namespace ConfinedFs

namespace Bytes

/-- The separator is in none of the fields. -/
theorem not_mem_of_mem_fields {separator : UInt8} {data field : Bytes}
    (h : field ∈ fields separator data) : separator ∉ field := by
  induction data generalizing field with
  | nil =>
    rw [List.mem_singleton.1 h]
    exact List.not_mem_nil
  | cons b rest ih =>
    rw [fields] at h
    split at h
    · rcases List.mem_cons.1 h with rfl | hrest
      · exact List.not_mem_nil
      · exact ih hrest
    · next hb =>
      cases hfields : fields separator rest with
      | nil => exact absurd hfields (fields_ne_nil separator rest)
      | cons first others =>
        rw [hfields] at h ih
        rcases List.mem_cons.1 h with rfl | hother
        · intro hmem
          rcases List.mem_cons.1 hmem with heq | hfirst
          · exact hb heq.symm
          · exact ih (List.mem_cons_self ..) hfirst
        · exact ih (List.mem_cons_of_mem _ hother)

end Bytes

namespace Path

open ConfinedFs.Bytes ConfinedFs.Component

variable {rooted : Bool} {kept : List Component} {p q : Path}

/-- A location as a text denotes it: so many levels up, and from there down through the fields, the
last one first. -/
structure Location where
  ups : Nat := 0
  down : List Bytes := []
  deriving DecidableEq

namespace Location

/-- The location after one more field. An empty field and `.` lead nowhere. `..` takes back the
field before it; with none to take back, it is dropped at the top and is a level up elsewhere. -/
def move (rooted : Bool) (l : Location) (field : Bytes) : Location :=
  if field = [] ∨ field = [dot] then l
  else if field = [dot, dot] then
    match l.down with
    | _ :: rest => { l with down := rest }
    | [] => if rooted then l else { l with ups := l.ups + 1 }
  else { l with down := field :: l.down }

end Location

/-- The location that a path denotes, by all of its fields. -/
def location (p : Path) : Location := (fields slash p.bytes).foldl (Location.move p.isAbsolute) {}

/-- The fields of a path as they are written, without the separator it starts with, if it does. -/
def texts (p : Path) : List Bytes :=
  if p = top then []
  else if p.isAbsolute then (fields slash p.bytes).tail
  else fields slash p.bytes

/-- A path in normal form. No field is empty and none is `.`, unless the path is nothing else; `..`
is found at the start only, and not at the top. -/
structure Normal (p : Path) : Prop where
  full : [] ∉ p.texts
  plain : [dot] ∈ p.texts → p = here
  upsFirst : ∃ ups rest, p.texts = List.replicate ups [dot, dot] ++ rest ∧ [dot, dot] ∉ rest
  topmost : p.isAbsolute = true → [dot, dot] ∉ p.texts

section Location

/-- The location that the components kept so far stand for. -/
def Location.ofKept (kept : List Component) : Location where
  ups := kept.count .parent
  down := (kept.filterMap Component.name?).map Name.bytes

theorem Location.ofKept_names (names : List Name) (ups : Nat) :
    ofKept (names.map .name ++ List.replicate ups .parent) = ⟨ups, names.map Name.bytes⟩ := by
  have hcount : (names.map Component.name).count .parent = 0 := by
    apply List.count_eq_zero.2
    simp
  have hnames : (names.map Component.name).filterMap Component.name? = names := by
    rw [List.filterMap_map]
    exact List.filterMap_some
  rw [ofKept, List.count_append, hcount, List.count_replicate_self, Nat.zero_add,
    List.filterMap_append, hnames, List.filterMap_replicate_of_none rfl, List.append_nil]

/-- Settled components are known from where they lead. -/
theorem Location.eq_of_ofKept {rooted' : Bool} {kept' : List Component} (h : IsSettled rooted kept)
    (h' : IsSettled rooted' kept') (heq : ofKept kept = ofKept kept') : kept = kept' := by
  obtain ⟨names, ups, rfl, _⟩ := h
  obtain ⟨names', ups', rfl, _⟩ := h'
  rw [ofKept_names, ofKept_names] at heq
  obtain ⟨rfl, hdown⟩ := Location.mk.inj heq
  rw [(List.map_inj_right fun _ _ => Name.ext).1 hdown]

/-- The texts that stand for no component lead nowhere. -/
theorem ofField?_eq_none_iff {field : Bytes} (hfree : slash ∉ field) :
    ofField? field = none ↔ field = [] ∨ field = [dot] := by
  constructor
  · intro h
    unfold ofField? at h
    split at h
    · cases h
    · next hup =>
      rw [Option.map_eq_none_iff, Name.ofBytes?, dite_eq_right_iff] at h
      have hnot : ¬ ConfinedFs.isName field = true := fun hname => Option.some_ne_none _ (h hname)
      simpa [ConfinedFs.isName, hfree, hup, Decidable.or_iff_not_imp_left] using hnot
  · rintro (rfl | rfl) <;> rfl

/-- A component is written as the field it stands for. -/
theorem text_of_ofField? {field : Bytes} {c : Component} (h : ofField? field = some c) :
    c.IsInner ∧ c.text = field := by
  unfold ofField? at h
  split at h
  · next hup =>
    cases h
    exact ⟨isInner_parent, hup.symm⟩
  · obtain ⟨n, hn, rfl⟩ := Option.map_eq_some_iff.1 h
    unfold Name.ofBytes? at hn
    split at hn
    · cases hn
      exact ⟨isInner_name _, rfl⟩
    · cases hn

/-- A component leads where its field does. -/
theorem Location.ofKept_settle {field : Bytes} {c : Component} (h : IsSettled rooted kept)
    (hc : ofField? field = some c) :
    ofKept (settle rooted kept c) = (ofKept kept).move rooted field := by
  obtain ⟨names, ups, rfl, hups⟩ := h
  obtain ⟨hinner, rfl⟩ := text_of_ofField? hc
  cases c with
  | root => exact absurd rfl hinner.1
  | current => exact absurd rfl hinner.2
  | name n =>
    have hplain : ¬ ((name n).text = [] ∨ (name n).text = [dot]) :=
      not_or.2 ⟨text_ne_nil hinner, text_ne_dot hinner⟩
    have hup : (name n).text ≠ [dot, dot] := by
      intro heq
      have hvalid := n.valid
      rw [show n.bytes = [dot, dot] from heq] at hvalid
      cases hvalid
    have hkept := ofKept_names (n :: names) ups
    rw [ofKept_names, move, if_neg hplain, if_neg hup]
    exact hkept
  | parent =>
    rw [ofKept_names]
    cases names with
    | cons n names => exact ofKept_names names ups
    | nil =>
      cases rooted with
      | true =>
        rw [hups rfl]
        rfl
      | false =>
        have hstep : settle false (List.replicate ups .parent) .parent =
            List.replicate (ups + 1) .parent := by cases ups <;> rfl
        exact (congrArg ofKept hstep).trans (ofKept_names [] (ups + 1))

/-- The induction is on the fields. What has been kept of them stays settled. -/
theorem Location.ofKept_foldl {l : List Bytes} (h : IsSettled rooted kept)
    (hfree : ∀ field ∈ l, slash ∉ field) :
    ofKept ((l.filterMap ofField?).foldl (settle rooted) kept) =
      l.foldl (move rooted) (ofKept kept) := by
  induction l generalizing kept with
  | nil => rfl
  | cons field l ih =>
    have hrest : ∀ f ∈ l, slash ∉ f := fun f hf => hfree f (List.mem_cons_of_mem _ hf)
    cases hc : ofField? field with
    | none =>
      have hskip := (ofField?_eq_none_iff (hfree field (List.mem_cons_self ..))).1 hc
      rw [List.filterMap_cons_none hc, List.foldl_cons, move, if_pos hskip]
      exact ih h hrest
    | some c =>
      rw [List.filterMap_cons_some hc, List.foldl_cons, List.foldl_cons, ← ofKept_settle h hc]
      exact ih (h.settle c) hrest

/-- What remains of a path stands for the location that it denotes. -/
theorem location_eq (p : Path) : p.location = .ofKept p.settled.reverse := by
  have hfold := Location.ofKept_foldl (IsSettled.nil p.isAbsolute)
    fun field (hfield : field ∈ fields slash p.bytes) => not_mem_of_mem_fields hfield
  rw [settled_eq, List.reverse_reverse]
  exact hfold.symm

theorem location_of_settled {ups : Nat} {names : List Name}
    (h : p.settled = List.replicate ups .parent ++ names.map .name) :
    p.location = ⟨ups, (names.map Name.bytes).reverse⟩ := by
  rw [location_eq, h, List.reverse_append, List.reverse_replicate, ← List.map_reverse,
    Location.ofKept_names, List.map_reverse]

/-- A path goes up first, if at all, and then down by names. -/
theorem exists_settled_eq (p : Path) : ∃ (ups : Nat) (names : List Name),
    p.settled = List.replicate ups .parent ++ names.map .name ∧
      (p.isAbsolute = true → ups = 0) := by
  obtain ⟨names, ups, hkept, hups⟩ := isSettled_settled p
  refine ⟨ups, names.reverse, ?_, hups⟩
  rw [← List.reverse_reverse p.settled, hkept, List.reverse_append, List.reverse_replicate,
    List.map_reverse]

theorem settled_eq_iff_location : p.settled = q.settled ↔ p.location = q.location := by
  constructor
  · intro h
    rw [location_eq, location_eq, h]
  · intro h
    rw [location_eq, location_eq] at h
    exact List.reverse_inj.1 (Location.eq_of_ofKept (isSettled_settled p) (isSettled_settled q) h)

theorem location_ups_of_isAbsolute (h : p.isAbsolute = true) : p.location.ups = 0 := by
  obtain ⟨ups, names, hsettled, hups⟩ := exists_settled_eq p
  rw [location_of_settled hsettled, hups h]

end Location

section Clean

/-- A clean path is known from whether it is absolute and from what remains. -/
theorem clean_eq_clean_iff :
    p.clean = q.clean ↔ p.isAbsolute = q.isAbsolute ∧ p.settled = q.settled := by
  constructor
  · intro h
    rw [← isAbsolute_clean, h, isAbsolute_clean, ← settled_clean, h, settled_clean]
    exact ⟨rfl, rfl⟩
  · rintro ⟨habsolute, hsettled⟩
    rw [clean, clean, habsolute, hsettled]

theorem clean_eq_here_iff : p.clean = here ↔ p.isAbsolute = false ∧ p.settled = [] :=
  clean_eq_clean_iff (q := here)

theorem clean_eq_top_iff : p.clean = top ↔ p.isAbsolute = true ∧ p.settled = [] :=
  clean_eq_clean_iff (q := top)

theorem clean_eq_here_iff_location : p.clean = here ↔ p.isAbsolute = false ∧ p.location = {} := by
  have hlocation : p.settled = here.settled ↔ p.location = here.location := settled_eq_iff_location
  exact clean_eq_here_iff.trans (and_congr_right fun _ => hlocation)

theorem texts_clean (p : Path) :
    p.clean.texts = if p.clean = here then [[dot]] else p.settled.map Component.text := by
  have hinner : ∀ c ∈ p.settled, c.IsInner := fun c hc => isInner_of_mem_settled hc
  by_cases hhere : p.clean = here
  · rw [if_pos hhere, hhere]
    rfl
  rw [if_neg hhere, texts]
  by_cases htop : p.clean = top
  · rw [if_pos htop, (clean_eq_top_iff.1 htop).2]
    rfl
  rw [if_neg htop, isAbsolute_clean]
  cases habsolute : p.isAbsolute with
  | true =>
    have hne : p.settled ≠ [] := fun hnil => htop (clean_eq_top_iff.2 ⟨habsolute, hnil⟩)
    rw [if_pos rfl, clean, if_pos habsolute, bytes_ofComponents_root hne, fields, if_pos rfl,
      fields_join_text hne, List.tail_cons]
  | false =>
    have hne : p.settled ≠ [] := fun hnil => hhere (clean_eq_here_iff.2 ⟨habsolute, hnil⟩)
    have hempty : p.settled.isEmpty = false := by simpa using hne
    rw [if_neg Bool.false_ne_true, clean, habsolute, if_neg Bool.false_ne_true, hempty,
      if_neg Bool.false_ne_true, fields_ofComponents hinner hne]

theorem up_not_mem_bytes (names : List Name) : [dot, dot] ∉ names.map Name.bytes := by
  intro hmem
  obtain ⟨n, _, hn⟩ := List.mem_map.1 hmem
  have hvalid := n.valid
  rw [hn] at hvalid
  cases hvalid

/-- To clean is to bring into normal form. -/
theorem normal_clean (p : Path) : p.clean.Normal := by
  have hinner : ∀ c ∈ p.settled, c.IsInner := fun c hc => isInner_of_mem_settled hc
  by_cases hhere : p.clean = here
  · rw [hhere]
    exact ⟨by decide, fun _ => rfl, ⟨0, [[dot]], rfl, by decide⟩, nofun⟩
  obtain ⟨ups, names, hsettled, hups⟩ := exists_settled_eq p
  have htexts : p.clean.texts = p.settled.map Component.text := by rw [texts_clean, if_neg hhere]
  have hsplit : p.clean.texts = List.replicate ups [dot, dot] ++ names.map Name.bytes := by
    rw [htexts, hsettled, List.map_append, List.map_replicate, List.map_map]
    rfl
  refine ⟨?_, ?_, ⟨ups, _, hsplit, up_not_mem_bytes names⟩, fun habsolute => ?_⟩
  · rw [htexts]
    intro hmem
    obtain ⟨c, hc, hnil⟩ := List.mem_map.1 hmem
    exact text_ne_nil (hinner c hc) hnil
  · rw [htexts]
    intro hmem
    obtain ⟨c, hc, hdot⟩ := List.mem_map.1 hmem
    exact absurd hdot (text_ne_dot (hinner c hc))
  · rw [isAbsolute_clean] at habsolute
    rw [hsplit, hups habsolute]
    exact up_not_mem_bytes names

end Clean

section Normal

theorem inner_eq_texts (p : Path) : p.inner = p.texts.filterMap ofField? := by
  by_cases htop : p = top
  · subst htop
    rfl
  rw [texts, if_neg htop, inner]
  split
  · next habsolute =>
    obtain ⟨bytes⟩ := p
    cases bytes with
    | nil => rfl
    | cons b rest =>
      have hb : b = slash := by simpa [isAbsolute] using habsolute
      rw [hb, fields, if_pos rfl, List.filterMap_cons_none rfl, List.tail_cons]
  · rfl

theorem slash_not_mem_of_mem_texts {field : Bytes} (h : field ∈ p.texts) : slash ∉ field := by
  unfold texts at h
  split at h
  · cases h
  · split at h
    · exact not_mem_of_mem_fields (List.mem_of_mem_tail h)
    · exact not_mem_of_mem_fields h

/-- Fields that all count are the texts of components. -/
theorem map_text_filterMap {l : List Bytes} (hfree : ∀ field ∈ l, slash ∉ field)
    (hfull : [] ∉ l) (hplain : [dot] ∉ l) : (l.filterMap ofField?).map Component.text = l := by
  induction l with
  | nil => rfl
  | cons field l ih =>
    rw [List.mem_cons, not_or] at hfull hplain
    have hrest := ih (fun f hf => hfree f (List.mem_cons_of_mem _ hf)) hfull.2 hplain.2
    cases hc : ofField? field with
    | none =>
      rcases (ofField?_eq_none_iff (hfree field (List.mem_cons_self ..))).1 hc with heq | heq
      · exact absurd heq.symm hfull.1
      · exact absurd heq.symm hplain.1
    | some c => rw [List.filterMap_cons_some hc, List.map_cons, hrest, (text_of_ofField? hc).2]

/-- Without steps up, fields stand for names. -/
theorem filterMap_of_up_not_mem {l : List Bytes} (h : [dot, dot] ∉ l) :
    ∃ names : List Name, l.filterMap ofField? = names.map .name := by
  induction l with
  | nil => exact ⟨[], rfl⟩
  | cons field l ih =>
    rw [List.mem_cons, not_or] at h
    obtain ⟨names, hnames⟩ := ih h.2
    cases hc : ofField? field with
    | none => exact ⟨names, by rw [List.filterMap_cons_none hc, hnames]⟩
    | some c =>
      obtain ⟨hinner, rfl⟩ := text_of_ofField? hc
      cases c with
      | root => exact absurd rfl hinner.1
      | current => exact absurd rfl hinner.2
      | parent => exact absurd rfl h.1
      | name n => exact ⟨n :: names, by rw [List.filterMap_cons_some hc, hnames, List.map_cons]⟩

/-- The texts are all that a path is made of. -/
theorem bytes_eq_join_texts (p : Path) : p.bytes =
    if p.isAbsolute then slash :: Bytes.join slash p.texts else Bytes.join slash p.texts := by
  by_cases htop : p = top
  · subst htop
    rfl
  rw [texts, if_neg htop]
  split
  · next habsolute =>
    obtain ⟨bytes⟩ := p
    cases bytes with
    | nil => cases habsolute
    | cons b rest =>
      have hb : b = slash := by simpa [isAbsolute] using habsolute
      rw [hb, fields, if_pos rfl, List.tail_cons, join_fields]
  · exact (join_fields slash p.bytes).symm

theorem eq_of_texts (habsolute : q.isAbsolute = p.isAbsolute) (htexts : q.texts = p.texts) :
    q = p := by
  have hbytes : q.bytes = p.bytes := by
    rw [bytes_eq_join_texts q, bytes_eq_join_texts p, habsolute, htexts]
  exact congrArg Path.mk hbytes

/-- What a path in normal form is made of is settled. -/
theorem Normal.isSettled (h : p.Normal) : IsSettled p.isAbsolute p.inner.reverse := by
  obtain ⟨ups, rest, hsplit, hrest⟩ := h.upsFirst
  obtain ⟨names, hnames⟩ := filterMap_of_up_not_mem hrest
  have hparent : ofField? [dot, dot] = some .parent := rfl
  refine ⟨names.reverse, ups, ?_, fun habsolute => ?_⟩
  · rw [inner_eq_texts, hsplit, List.filterMap_append, List.filterMap_replicate_of_some hparent,
      hnames, List.reverse_append, List.reverse_replicate, List.map_reverse]
  · have hnot := h.topmost habsolute
    rw [hsplit] at hnot
    cases ups with
    | zero => rfl
    | succ ups => exact absurd (List.mem_append_left _ (List.mem_cons_self ..)) hnot

/-- A path in normal form is left as it is. -/
theorem Normal.clean_eq (h : p.Normal) : p.clean = p := by
  by_cases hhere : p = here
  · rw [hhere]
    rfl
  have hplain : [dot] ∉ p.texts := fun hmem => hhere (h.plain hmem)
  have htexts : p.settled.map Component.text = p.texts := by
    rw [settled_eq_self h.isSettled, inner_eq_texts]
    exact map_text_filterMap (fun _ => slash_not_mem_of_mem_texts) h.full hplain
  have hleft : p.clean ≠ here := by
    intro heq
    obtain ⟨hrelative, hnil⟩ := clean_eq_here_iff.1 heq
    have hbytes := bytes_eq_join_texts p
    rw [hrelative, if_neg Bool.false_ne_true, ← htexts, hnil] at hbytes
    have hempty : p = ⟨[]⟩ := congrArg Path.mk hbytes
    exact h.full (hempty ▸ by decide)
  exact eq_of_texts (isAbsolute_clean p) (by rw [texts_clean, if_neg hleft, htexts])

/-- Nothing is to be cleaned in the paths in normal form, and only in these. -/
theorem normal_iff : p.Normal ↔ p.clean = p :=
  ⟨Normal.clean_eq, fun h => h ▸ normal_clean p⟩

end Normal

/-- Cleaning gives a path in normal form, which starts with a separator as the path itself does,
and which is `.` if nothing is left of a relative path. It leaves the paths in this form alone, and
gives two paths the same form if both or none are absolute and if they denote the same location. -/
theorem clean_normalizes (p : Path) :
    (p.clean.bytes.head? = some slash ↔ p.bytes.head? = some slash) ∧
    p.clean.Normal ∧
    (p.clean = here ↔ p.isAbsolute = false ∧ p.location = {}) ∧
    p.clean.clean = p.clean ∧ (p.Normal ↔ p.clean = p) ∧
    ∀ q : Path, p.clean = q.clean ↔ p.isAbsolute = q.isAbsolute ∧ p.location = q.location := by
  have hsame : ∀ q : Path,
      p.clean = q.clean ↔ p.isAbsolute = q.isAbsolute ∧ p.location = q.location := fun q => by
    rw [clean_eq_clean_iff, settled_eq_iff_location]
  have hstarts : ∀ q : Path, q.bytes.head? = some slash ↔ q.isAbsolute = true := fun q => by
    rw [isAbsolute, beq_iff_eq]
  refine ⟨?_, normal_clean p, clean_eq_here_iff_location, clean_clean p, normal_iff, hsame⟩
  rw [hstarts, hstarts, isAbsolute_clean]

/-- The path `a/../../b` leads one level up and from there down to `b`. -/
example : location ⟨[97, 47, 46, 46, 47, 46, 46, 47, 98]⟩ = ⟨1, [[98]]⟩ := by decide

end Path

end ConfinedFs
