/-!
Numbered slots for values. A freed slot is used again before a new one is
made, the last freed one first. Nothing rests on this order: where a table is
used, its laws are all that is known of it.
-/

namespace ConfinedFs

/-- Slots with their values, and the numbers of the free ones, the next to be
used first. -/
structure SlotTable (α : Type) where
  slots : List (Option α) := []
  free : List Nat := []

namespace SlotTable

variable {α : Type}

/-- The value in a slot. -/
def get? (s : SlotTable α) (i : Nat) : Option α := (s.slots[i]?).join

/-- The slot the next value goes to. -/
def nextSlot (s : SlotTable α) : Nat := s.free.headD s.slots.length

/-- No more than the slots that hold nothing are free, and each of them once. -/
def WellFormed (s : SlotTable α) : Prop :=
  s.free.Nodup ∧ ∀ i, i ∈ s.free ↔ s.slots[i]? = some none

theorem WellFormed.empty : (⟨[], []⟩ : SlotTable α).WellFormed := by simp [WellFormed]

/-- Stores a value in the next slot. -/
def insert (s : SlotTable α) (a : α) : SlotTable α :=
  match s.free with
  | [] => { s with slots := s.slots ++ [some a] }
  | i :: rest => ⟨s.slots.set i (some a), rest⟩

theorem WellFormed.insert {s : SlotTable α} (h : s.WellFormed) (a : α) :
    (s.insert a).WellFormed := by
  obtain ⟨hnodup, hfree⟩ := h
  unfold SlotTable.insert
  split
  · next hs =>
    refine ⟨hs ▸ hnodup, fun i => ?_⟩
    rw [hfree, List.getElem?_append]
    split
    · rfl
    · next hi =>
      rw [List.getElem?_eq_none (by omega)]
      cases h : i - s.slots.length <;> simp
  · next i rest hs =>
    rw [hs] at hnodup
    refine ⟨hnodup.of_cons, fun j => ?_⟩
    have := hfree j
    rw [hs, List.mem_cons] at this
    rw [List.getElem?_set]
    by_cases hj : i = j
    · subst hj
      have hi : i ∉ rest := (List.nodup_cons.1 hnodup).1
      simp [hi]
    · simp [hj, ← this, Ne.symm hj]

/-- A stored value is found in the slot that was next, and nothing else is
touched. -/
theorem get?_insert {s : SlotTable α} (h : s.WellFormed) (a : α) (i : Nat) :
    (s.insert a).get? i = if i = s.nextSlot then some a else s.get? i := by
  unfold SlotTable.insert nextSlot
  split
  · next hs =>
    simp only [get?, hs, List.headD_nil, List.getElem?_append]
    split
    · next hi => rw [if_neg (by omega)]
    · next hi =>
      split
      · next hi => simp [hi]
      · rw [List.getElem?_eq_none (by simp; omega), List.getElem?_eq_none (by omega)]
  · next j rest hs =>
    have hj : s.slots[j]? = some none := (h.2 j).1 (by simp [hs])
    have hlt : j < s.slots.length := (List.getElem?_eq_some_iff.1 hj).1
    simp only [get?, hs, List.headD_cons, List.getElem?_set]
    by_cases hi : i = j
    · simp [hi, hlt]
    · simp [hi, Ne.symm hi]

/-- The next slot is a free one. -/
theorem get?_nextSlot {s : SlotTable α} (h : s.WellFormed) : s.get? s.nextSlot = none := by
  unfold get? nextSlot
  cases hfree : s.free with
  | nil => rw [List.headD_nil, List.getElem?_eq_none (Nat.le_refl _)]; rfl
  | cons i rest =>
    have hi : s.slots[i]? = some none := (h.2 i).1 (hfree ▸ List.mem_cons_self ..)
    rw [List.headD_cons, hi]
    rfl

/-- Frees a slot. Nothing happens to one that is free already. -/
def erase (s : SlotTable α) (i : Nat) : SlotTable α :=
  if (s.get? i).isSome then ⟨s.slots.set i none, i :: s.free⟩ else s

theorem get?_erase (s : SlotTable α) (i j : Nat) :
    (s.erase i).get? j = if j = i then none else s.get? j := by
  unfold SlotTable.erase
  split
  · next h =>
    simp only [get?, List.getElem?_set]
    by_cases hj : j = i
    · subst hj
      by_cases hl : j < s.slots.length <;> simp [hl]
    · simp [hj, Ne.symm hj]
  · next h =>
    by_cases hj : j = i
    · subst hj
      simpa using h
    · simp [hj]

theorem WellFormed.erase {s : SlotTable α} (h : s.WellFormed) (i : Nat) :
    (s.erase i).WellFormed := by
  obtain ⟨hnodup, hfree⟩ := h
  unfold SlotTable.erase
  split
  · next hi =>
    have hlt : i < s.slots.length := by
      apply Nat.lt_of_not_le
      intro hle
      simp [get?, List.getElem?_eq_none hle] at hi
    have hnot : i ∉ s.free := by
      intro hm
      simp [get?, (hfree i).1 hm] at hi
    refine ⟨List.nodup_cons.2 ⟨hnot, hnodup⟩, fun j => ?_⟩
    rw [List.mem_cons, hfree, List.getElem?_set]
    by_cases hj : i = j
    · subst hj
      simp [hlt]
    · simp [hj, Ne.symm hj]
  · exact ⟨hnodup, hfree⟩

/-- What a table does, whichever of the free slots it takes next: the slot is free, it is found
to hold what has been stored, and one that is freed is found to hold nothing. All others are left
alone. -/
structure Laws (s : SlotTable α) : Prop where
  next : s.get? s.nextSlot = none
  insert : ∀ a i, (s.insert a).get? i = if i = s.nextSlot then some a else s.get? i
  erase : ∀ i j, (s.erase i).get? j = if j = i then none else s.get? j

/-- The laws hold of every table that is well-formed, and so of all that come of it. -/
theorem WellFormed.laws {s : SlotTable α} (h : s.WellFormed) : s.Laws where
  next := get?_nextSlot h
  insert := get?_insert h
  erase := get?_erase s

end SlotTable

end ConfinedFs
