/-!
Finite maps as lists of pairs, each key in at most one of them. The pairs that
came last stand first.
-/

namespace ConfinedFs.Association

variable {α β : Type} [BEq α] [LawfulBEq α] [DecidableEq α]

/-- The pairs of all other keys. -/
def erase (k : α) (l : List (α × β)) : List (α × β) := l.filter fun e => e.1 ≠ k

/-- The pairs with the one of a key replaced by a new one. -/
def insert (k : α) (v : β) (l : List (α × β)) : List (α × β) := (k, v) :: erase k l

omit [BEq α] [LawfulBEq α] in
theorem erase_cons_self (k : α) (v : β) (l : List (α × β)) : erase k ((k, v) :: l) = erase k l :=
  List.filter_cons_of_neg (by simp)

omit [BEq α] [LawfulBEq α] in
theorem erase_cons_of_ne {k a : α} (h : a ≠ k) (v : β) (l : List (α × β)) :
    erase k ((a, v) :: l) = (a, v) :: erase k l :=
  List.filter_cons_of_pos (by simpa using h)

theorem lookup_erase (l : List (α × β)) (k j : α) :
    (erase k l).lookup j = if j = k then none else l.lookup j := by
  induction l with
  | nil => simp [erase]
  | cons e l ih =>
    obtain ⟨a, v⟩ := e
    by_cases ha : a = k
    · subst ha
      rw [erase_cons_self, ih, List.lookup_cons]
      by_cases h : j = a
      · simp [h]
      · simp [h, beq_false_of_ne h]
    · rw [erase_cons_of_ne ha, List.lookup_cons, List.lookup_cons, ih]
      by_cases h : j = a
      · simp [h, ha]
      · simp [beq_false_of_ne h]

/-- What is still found was there before. -/
theorem lookup_of_lookup_erase {l : List (α × β)} {k j : α} {v : β}
    (h : (erase k l).lookup j = some v) : l.lookup j = some v := by
  rw [lookup_erase] at h
  split at h
  · cases h
  · exact h

theorem lookup_insert (l : List (α × β)) (k : α) (v : β) (j : α) :
    (insert k v l).lookup j = if j = k then some v else l.lookup j := by
  rw [insert, List.lookup_cons]
  by_cases h : j = k
  · simp [h]
  · simp [h, beq_false_of_ne h, lookup_erase]

omit [BEq α] [LawfulBEq α] in
/-- A key that is given two values one after the other has the second one. -/
theorem insert_insert (l : List (α × β)) (k : α) (v w : β) :
    insert k w (insert k v l) = insert k w l := by
  have hagain : erase k (erase k l) = erase k l := by simp [erase]
  rw [insert, insert, erase_cons_self, hagain, insert]

omit [DecidableEq α] in
/-- What is found is stored under the key. -/
theorem mem_of_lookup {l : List (α × β)} {k : α} {v : β} (h : l.lookup k = some v) :
    (k, v) ∈ l := by
  obtain ⟨before, after, rfl, _⟩ := List.lookup_eq_some_iff.1 h
  simp

omit [BEq α] [LawfulBEq α] in
theorem mem_erase {l : List (α × β)} {k : α} {e : α × β} :
    e ∈ erase k l ↔ e ∈ l ∧ e.1 ≠ k := by
  simp [erase]

omit [BEq α] [LawfulBEq α] in
theorem mem_insert {l : List (α × β)} {k : α} {v : β} {e : α × β} :
    e ∈ insert k v l ↔ e = (k, v) ∨ e ∈ l ∧ e.1 ≠ k := by
  rw [insert, List.mem_cons, mem_erase]

omit [BEq α] [LawfulBEq α] in
theorem nodup_keys_erase {l : List (α × β)} (h : (l.map Prod.fst).Nodup) (k : α) :
    ((erase k l).map Prod.fst).Nodup :=
  h.sublist (List.filter_sublist.map Prod.fst)

omit [BEq α] [LawfulBEq α] in
/-- A key never comes to stand in two pairs. -/
theorem nodup_keys_insert {l : List (α × β)} (h : (l.map Prod.fst).Nodup) (k : α) (v : β) :
    ((insert k v l).map Prod.fst).Nodup := by
  rw [insert, List.map_cons, List.nodup_cons]
  refine ⟨?_, nodup_keys_erase h k⟩
  intro hk
  obtain ⟨e, he, hkey⟩ := List.mem_map.1 hk
  exact (mem_erase.1 he).2 hkey

end ConfinedFs.Association
