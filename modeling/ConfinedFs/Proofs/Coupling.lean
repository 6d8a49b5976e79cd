import ConfinedFs.Action

/-!
Two operations run side by side, each on a state of its own. They are coupled if, from the
states they start in, they both succeed with related results or both fail with the same
error, and leave related states. Coupled steps make coupled operations.
-/

namespace ConfinedFs

variable {ε ε' σ τ α β α' β' : Type}

/-- Two outcomes that are both successes, with related results, or the same failure. -/
def Outcomes (Q : α → β → Prop) : Except ε α → Except ε β → Prop
  | .ok a, .ok b => Q a b
  | .error e, .error e' => e = e'
  | _, _ => False

namespace Outcomes

variable {Q : α → β → Prop} {r : Except ε α} {r' : Except ε β}

/-- Only of the results that there are something has to be shown. -/
theorem mono_of_ok {Q' : α → β → Prop} (h : Outcomes Q r r')
    (hQ : ∀ a b, r = .ok a → Q a b → Q' a b) : Outcomes Q' r r' := by
  cases r <;> cases r'
  case error.error => exact h
  case ok.ok => exact hQ _ _ rfl h
  all_goals exact h.elim

theorem mono {Q' : α → β → Prop} (h : Outcomes Q r r') (hQ : ∀ a b, Q a b → Q' a b) :
    Outcomes Q' r r' :=
  h.mono_of_ok fun a b _ => hQ a b

theorem eq {r r' : Except ε α} (h : Outcomes Eq r r') : r = r' := by
  cases r <;> cases r'
  case error.error => exact congrArg Except.error h
  case ok.ok => exact congrArg Except.ok h
  all_goals exact h.elim

theorem refl {Q : α → α → Prop} (hQ : ∀ a, Q a a) (r : Except ε α) : Outcomes Q r r := by
  cases r with
  | error e => rfl
  | ok a => exact hQ a

theorem bind {Q' : α' → β' → Prop} {f : α → Except ε α'} {g : β → Except ε β'}
    (h : Outcomes Q r r') (hf : ∀ a b, Q a b → Outcomes Q' (f a) (g b)) :
    Outcomes Q' (r >>= f) (r' >>= g) := by
  cases r <;> cases r'
  case error.error => exact h
  case ok.ok a b => exact hf a b h
  all_goals exact h.elim

theorem mapError (h : Outcomes Q r r') (f : ε → ε') :
    Outcomes Q (r.mapError f) (r'.mapError f) := by
  cases r <;> cases r'
  case error.error => exact congrArg f h
  case ok.ok => exact h
  all_goals exact h.elim

end Outcomes

namespace Action

/-- From the two states, the operations leave related states and have related outcomes. -/
structure Coupled (S : σ → τ → Prop) (Q : α → β → Prop) (x : Action ε σ α) (y : Action ε τ β)
    (s : σ) (t : τ) : Prop where
  states : S (x s).2 (y t).2
  outcomes : Outcomes Q (x s).1 (y t).1

namespace Coupled

variable {S : σ → τ → Prop} {Q : α → β → Prop} {Q' : α' → β' → Prop} {x : Action ε σ α}
  {y : Action ε τ β} {f : α → Action ε σ α'} {g : β → Action ε τ β'} {s : σ} {t : τ}

theorem refl (x : Action ε σ α) (s : σ) : Coupled Eq Eq x x s s :=
  ⟨rfl, Outcomes.refl (fun _ => rfl) _⟩

theorem pure (h : S s t) {a : α} {b : β} (hQ : Q a b) :
    Coupled S Q (Pure.pure a : Action ε σ α) (Pure.pure b) s t :=
  ⟨h, hQ⟩

theorem throw (h : S s t) (e : ε) :
    Coupled S Q (MonadExcept.throw e : Action ε σ α) (MonadExcept.throw e) s t :=
  ⟨h, rfl⟩

theorem query (h : S s t) {p : σ → Except ε α} {q : τ → Except ε β}
    (hQ : Outcomes Q (p s) (q t)) : Coupled S Q (Action.query p) (Action.query q) s t :=
  ⟨h, hQ⟩

theorem update {p : σ → σ} {q : τ → τ} (h : S (p s) (q t)) :
    Coupled S (fun _ _ => True) (Action.update p : Action ε σ Unit) (Action.update q) s t :=
  ⟨h, trivial⟩

theorem mono {Q' : α → β → Prop} (h : Coupled S Q x y s t) (hQ : ∀ a b, Q a b → Q' a b) :
    Coupled S Q' x y s t :=
  ⟨h.states, h.outcomes.mono hQ⟩

/-- Only what is done from the two states matters. -/
theorem congr {x' : Action ε σ α} {y' : Action ε τ β} (h : Coupled S Q x' y' s t)
    (hx : x s = x' s) (hy : y t = y' t) : Coupled S Q x y s t := by
  refine ⟨?_, ?_⟩
  · rw [hx, hy]
    exact h.states
  · rw [hx, hy]
    exact h.outcomes

/-- After coupled operations that have succeeded both sides go on. -/
theorem bind (hx : Coupled S Q x y s t)
    (hf : ∀ a b s' t', x s = (.ok a, s') → y t = (.ok b, t') → Q a b → S s' t' →
      Coupled S Q' (f a) (g b) s' t') : Coupled S Q' (x >>= f) (y >>= g) s t := by
  obtain ⟨hstates, houtcomes⟩ := hx
  cases hrun : x s with
  | mk r s' =>
    cases hrun' : y t with
    | mk r' t' =>
      rw [hrun, hrun'] at hstates houtcomes
      cases r <;> cases r'
      case error.error e e' =>
        refine ⟨?_, ?_⟩
        · rw [bind_apply_of_error hrun, bind_apply_of_error hrun']
          exact hstates
        · rw [bind_apply_of_error hrun, bind_apply_of_error hrun']
          exact houtcomes
      case ok.ok a b =>
        have hnext := hf a b s' t' hrun hrun' houtcomes hstates
        refine ⟨?_, ?_⟩
        · rw [bind_apply_of_ok hrun, bind_apply_of_ok hrun']
          exact hnext.states
        · rw [bind_apply_of_ok hrun, bind_apply_of_ok hrun']
          exact hnext.outcomes
      all_goals exact houtcomes.elim

/-- After questions with related answers both sides go on in the states they are in. -/
theorem query_bind {p : σ → Except ε α} {q : τ → Except ε β} (h : S s t)
    (hQ : Outcomes Q (p s) (q t))
    (hf : ∀ a b, p s = .ok a → q t = .ok b → Q a b → Coupled S Q' (f a) (g b) s t) :
    Coupled S Q' (Action.query p >>= f) (Action.query q >>= g) s t := by
  refine bind (query h hQ) fun a b s' t' hrun hrun' hab _ => ?_
  obtain ⟨ha, rfl⟩ := Prod.mk.inj hrun
  obtain ⟨hb, rfl⟩ := Prod.mk.inj hrun'
  exact hf a b ha hb hab

theorem look_bind {p : σ → α} {q : τ → β} (h : Coupled S Q' (f (p s)) (g (q t)) s t) :
    Coupled S Q' (Action.look p >>= f) (Action.look q >>= g) s t :=
  ⟨h.states, h.outcomes⟩

theorem update_bind {p : σ → σ} {q : τ → τ} {f : Unit → Action ε σ α'} {g : Unit → Action ε τ β'}
    (h : Coupled S Q' (f ()) (g ()) (p s) (q t)) :
    Coupled S Q' (Action.update p >>= f) (Action.update q >>= g) s t :=
  ⟨h.states, h.outcomes⟩

/-- Both sides take the same branch. -/
theorem ite {c d : Prop} {_ : Decidable c} {_ : Decidable d} {x' : Action ε σ α}
    {y' : Action ε τ β} (hcd : c ↔ d) (hthen : c → d → Coupled S Q x y s t)
    (helse : ¬ c → ¬ d → Coupled S Q x' y' s t) :
    Coupled S Q (if c then x else x') (if d then y else y') s t := by
  by_cases hc : c
  · rw [if_pos hc, if_pos (hcd.1 hc)]
    exact hthen hc (hcd.1 hc)
  · rw [if_neg hc, if_neg fun hd => hc (hcd.2 hd)]
    exact helse hc fun hd => hc (hcd.2 hd)

/-- What comes after a possible failure is reached on both sides or on neither. -/
theorem guarded {c d : Prop} {_ : Decidable c} {_ : Decidable d} {e : ε}
    {f : PUnit → Action ε σ α} {g : PUnit → Action ε τ β} (h : S s t) (hcd : c ↔ d)
    (hf : ¬ c → ¬ d → Coupled S Q (f ⟨⟩) (g ⟨⟩) s t) :
    Coupled S Q (if c then MonadExcept.throw e >>= f else f ⟨⟩)
      (if d then MonadExcept.throw e >>= g else g ⟨⟩) s t :=
  ite hcd (fun _ _ => ⟨h, rfl⟩) hf

theorem mapError (h : Coupled S Q x y s t) (f : ε → ε') :
    Coupled S Q (x.mapError f) (y.mapError f) s t := by
  refine ⟨?_, ?_⟩
  · rw [mapError_apply, mapError_apply]
    exact h.states
  · rw [mapError_apply, mapError_apply]
    exact h.outcomes.mapError f

end Coupled

/-- From related states the operation has one outcome, and it leaves related states. -/
def Respects (S : σ → σ → Prop) (x : Action ε σ α) : Prop := ∀ s t, S s t → Coupled S Eq x x s t

namespace Respects

variable {S : σ → σ → Prop} {x y : Action ε σ α} {f : α → Action ε σ β}

theorem pure (a : α) : Respects S (Pure.pure a : Action ε σ α) := fun _ _ h => Coupled.pure h rfl

theorem query {p : σ → Except ε α} (hp : ∀ s t, S s t → p s = p t) :
    Respects S (Action.query p) :=
  fun s t h => Coupled.query h (hp s t h ▸ Outcomes.refl (fun _ => rfl) _)

theorem look {p : σ → α} (hp : ∀ s t, S s t → p s = p t) :
    Respects S (Action.look p : Action ε σ α) :=
  fun s t h => ⟨h, hp s t h⟩

theorem update {p : σ → σ} (hp : ∀ s t, S s t → S (p s) (p t)) :
    Respects S (Action.update p : Action ε σ Unit) :=
  fun s t h => ⟨hp s t h, rfl⟩

theorem bind (hx : Respects S x) (hf : ∀ a, Respects S (f a)) : Respects S (x >>= f) := by
  intro s t h
  refine (hx s t h).bind ?_
  rintro a _ s' t' - - rfl h'
  exact hf a s' t' h'

theorem guarded {c : Prop} {_ : Decidable c} {e : ε} {f : PUnit → Action ε σ α}
    (hf : Respects S (f ⟨⟩)) :
    Respects S (if c then MonadExcept.throw e >>= f else f ⟨⟩) :=
  fun s t h => Coupled.guarded h Iff.rfl fun _ _ => hf s t h

theorem mapError (hx : Respects S x) (f : ε → ε') : Respects S (x.mapError f) :=
  fun s t h => (hx s t h).mapError f

end Respects

end Action

end ConfinedFs
