import ConfinedFs.Action

/-!
Assertions about operations that may fail. A failure keeps what was done before
it, so a triple says what holds of the state after a success and after a
failure.
-/

namespace ConfinedFs

/-- What is there after two steps has come of what was there after the first. -/
theorem exists_of_bind_eq_ok {ε α β : Type} {x : Except ε α} {f : α → Except ε β} {b : β}
    (h : x >>= f = .ok b) : ∃ a, x = .ok a ∧ f a = .ok b := by
  cases x with
  | error e => cases h
  | ok a => exact ⟨a, rfl, h⟩

/-- Other errors make no results. -/
theorem ok_of_mapError {ε ε' α : Type} {x : Except ε α} {f : ε → ε'} {a : α}
    (h : x.mapError f = .ok a) : x = .ok a := by
  cases x with
  | error e => cases h
  | ok b =>
    cases h
    rfl

theorem eq_ok_of_toOption {ε α : Type} {x : Except ε α} {a : α} (h : x.toOption = some a) :
    x = .ok a := by
  cases x with
  | ok b => exact congrArg Except.ok (Option.some.inj h)
  | error e => cases h

namespace Action

variable {ε ε' σ α β : Type} {P P' : σ → Prop} {Q : α → σ → Prop} {R : β → σ → Prop}
  {F : ε → σ → Prop}

/-- What succeeds has done so step by step. -/
theorem exists_of_bind {x : Action ε σ α} {f : α → Action ε σ β} {s s' : σ} {b : β}
    (h : (x >>= f) s = (.ok b, s')) : ∃ a s₁, x s = (.ok a, s₁) ∧ f a s₁ = (.ok b, s') := by
  cases hxs : x s with
  | mk r s₁ =>
    cases r with
    | error e =>
      rw [bind_apply_of_error hxs] at h
      cases h
    | ok a =>
      rw [bind_apply_of_ok hxs] at h
      exact ⟨a, s₁, rfl, h⟩

/-- The outcome is that of the operation itself. -/
theorem run_of_outcome {x : Action ε σ α} {s s' : σ} {r : Except ε α}
    (h : (x.outcome : Action ε' σ _) s = (.ok r, s')) : x s = (r, s') := by
  obtain ⟨hr, hs⟩ := Prod.mk.inj h
  exact Prod.ext (Except.ok.inj hr) hs

theorem outcome_of_run {x : Action ε σ α} {s s' : σ} {r : Except ε α} (h : x s = (r, s')) :
    (x.outcome : Action ε' σ _) s = (.ok r, s') := by
  unfold Action.outcome
  rw [h]

/-- From a state with `P` the operation ends in a state with `Q` of its result, or
fails and leaves a state with `F` of the error. -/
def Triple (P : σ → Prop) (x : Action ε σ α) (Q : α → σ → Prop) (F : ε → σ → Prop) : Prop :=
  ∀ s, P s → match x s with
    | (.ok a, s') => Q a s'
    | (.error e, s') => F e s'

namespace Triple

theorem pure {a : α} (h : ∀ s, P s → Q a s) :
    Triple P (Pure.pure a : Action ε σ α) Q F :=
  fun s hs => h s hs

theorem throw {e : ε} (h : ∀ s, P s → F e s) :
    Triple P (MonadExcept.throw e : Action ε σ α) Q F :=
  fun s hs => h s hs

theorem bind {x : Action ε σ α} {f : α → Action ε σ β} (hx : Triple P x Q F)
    (hf : ∀ a, Triple (Q a) (f a) R F) : Triple P (x >>= f) R F := by
  intro s hs
  have hrun := hx s hs
  cases hxs : x s with
  | mk r s' =>
    rw [hxs] at hrun
    cases r with
    | error e =>
      rw [bind_apply_of_error hxs]
      exact hrun
    | ok a =>
      rw [bind_apply_of_ok hxs]
      exact hf a s' hrun

theorem query {f : σ → Except ε α} (hok : ∀ s a, P s → f s = .ok a → Q a s)
    (herror : ∀ s e, P s → f s = .error e → F e s) : Triple P (Action.query f) Q F := by
  intro s hs
  rw [query_apply]
  cases hf : f s with
  | error e => exact herror s e hs hf
  | ok a => exact hok s a hs hf

theorem look {f : σ → α} (h : ∀ s, P s → Q (f s) s) :
    Triple P (Action.look f : Action ε σ α) Q F :=
  fun s hs => h s hs

theorem update {f : σ → σ} {Q : Unit → σ → Prop} (h : ∀ s, P s → Q () (f s)) :
    Triple P (Action.update f : Action ε σ Unit) Q F :=
  fun s hs => h s hs

theorem ofExcept {r : Except ε α} (hok : ∀ s a, P s → r = .ok a → Q a s)
    (herror : ∀ s e, P s → r = .error e → F e s) : Triple P (Action.ofExcept r) Q F := by
  cases r with
  | error e => exact throw fun s hs => herror s e hs rfl
  | ok a => exact pure fun s hs => hok s a hs rfl

theorem mapError {x : Action ε σ α} {f : ε → ε'} {F : ε' → σ → Prop}
    (hx : Triple P x Q fun e => F (f e)) : Triple P (x.mapError f) Q F := by
  intro s hs
  have hrun := hx s hs
  unfold Action.mapError
  cases hxs : x s with
  | mk r s' =>
    rw [hxs] at hrun
    cases r with
    | error e => exact hrun
    | ok a => exact hrun

theorem outcome {x : Action ε σ α} {F' : ε' → σ → Prop} (hx : Triple P x Q F) :
    Triple P (x.outcome : Action ε' σ _)
      (fun r s => match r with | .ok a => Q a s | .error e => F e s) F' := by
  intro s hs
  have hrun := hx s hs
  unfold Action.outcome
  cases hxs : x s with
  | mk r s' =>
    rw [hxs] at hrun
    cases r with
    | error e => exact hrun
    | ok a => exact hrun

theorem weaken {x : Action ε σ α} {Q' : α → σ → Prop} {F' : ε → σ → Prop}
    (hx : Triple P x Q F) (hP : ∀ s, P' s → P s) (hQ : ∀ a s, Q a s → Q' a s)
    (hF : ∀ e s, F e s → F' e s) : Triple P' x Q' F' := by
  intro s hs
  have hrun := hx s (hP s hs)
  cases hxs : x s with
  | mk r s' =>
    rw [hxs] at hrun
    cases r with
    | error e => exact hF e s' hrun
    | ok a => exact hQ a s' hrun

/-- More is asked of the state before. -/
theorem onStart {x : Action ε σ α} (hx : Triple P x Q F) (hP : ∀ s, P' s → P s) :
    Triple P' x Q F := hx.weaken hP (fun _ _ hs => hs) fun _ _ hs => hs

/-- Less is told of a failure. -/
theorem onError {x : Action ε σ α} {F' : ε → σ → Prop} (hx : Triple P x Q F)
    (hF : ∀ e s, F e s → F' e s) : Triple P x Q F' :=
  hx.weaken (fun _ hs => hs) (fun _ _ hs => hs) hF

/-- What is known whatever the operation does. -/
theorem always {x : Action ε σ α} (hQ : ∀ a s, Q a s) (hF : ∀ e s, F e s) : Triple P x Q F := by
  intro s _
  cases x s with
  | mk r s' =>
    cases r with
    | error e => exact hF e s'
    | ok a => exact hQ a s'

/-- Two things that are known of the same operation. -/
theorem and {x : Action ε σ α} {Q' : α → σ → Prop} {F' : ε → σ → Prop} (hx : Triple P x Q F)
    (hx' : Triple P x Q' F') :
    Triple P x (fun a s => Q a s ∧ Q' a s) fun e s => F e s ∧ F' e s := by
  intro s hs
  have hrun := hx s hs
  have hrun' := hx' s hs
  cases hxs : x s with
  | mk r s' =>
    rw [hxs] at hrun hrun'
    cases r with
    | error e => exact ⟨hrun, hrun'⟩
    | ok a => exact ⟨hrun, hrun'⟩

theorem throw_bind {e : ε} {f : α → Action ε σ β} (h : ∀ s, P s → F e s) :
    Triple P (MonadExcept.throw e >>= f) R F :=
  bind (Q := fun _ _ => False) (throw h) fun _ _ hs => hs.elim

theorem ite {c : Prop} {_ : Decidable c} {x y : Action ε σ α} (hx : c → Triple P x Q F)
    (hy : ¬ c → Triple P y Q F) : Triple P (if c then x else y) Q F := by
  split
  · next hc => exact hx hc
  · next hc => exact hy hc

/-- A first operation that is done on a condition only, and what follows in
either case. -/
theorem when {c : Prop} {_ : Decidable c} {x : Action ε σ PUnit} {f : PUnit → Action ε σ β}
    {Q : PUnit → σ → Prop} (hx : c → Triple P x Q F) (hthen : c → Triple (Q ⟨⟩) (f ⟨⟩) R F)
    (helse : ¬ c → Triple P (f ⟨⟩) R F) : Triple P (if c then x >>= f else f ⟨⟩) R F := by
  split
  · next hc => exact bind (hx hc) fun _ => hthen hc
  · next hc => exact helse hc

/-- Failing on a condition, and what follows otherwise. -/
theorem guarded {c : Prop} {_ : Decidable c} {e : ε} {f : PUnit → Action ε σ β}
    (hfail : c → ∀ s, P s → F e s) (helse : ¬ c → Triple P (f ⟨⟩) R F) :
    Triple P (if c then MonadExcept.throw e >>= f else f ⟨⟩) R F :=
  when (Q := fun _ _ => False) (fun hc => throw (hfail hc))
    (fun _ _ hs => hs.elim) helse

/-- What each round of a loop leaves as it finds it, whatever else is known of a failure. -/
theorem forM {γ : Type} {f : γ → Action ε σ PUnit} {l : List γ}
    (hf : ∀ c ∈ l, Triple P (f c) (fun _ => P) F) : Triple P (l.forM f) (fun _ => P) F := by
  induction l with
  | nil => exact pure fun _ hs => hs
  | cons c l ih =>
    show Triple P (f c >>= fun _ => l.forM f) (fun _ => P) F
    exact bind (hf c (List.mem_cons_self ..)) fun _ =>
      ih fun c' hc' => hf c' (List.mem_cons_of_mem _ hc')

/-- What is known after a success. -/
theorem of_ok {x : Action ε σ α} (hx : Triple P x Q F) {s s' : σ} {a : α} (hs : P s)
    (hrun : x s = (.ok a, s')) : Q a s' := by
  have hpost := hx s hs
  rw [hrun] at hpost
  exact hpost

/-- What is known after a success and after a failure alike. -/
theorem apply {x : Action ε σ α} (hx : Triple P x (fun _ => P') fun _ => P') {s : σ} (hs : P s) :
    P' (x s).2 := by
  have hpost := hx s hs
  cases hxs : x s with
  | mk r s' =>
    rw [hxs] at hpost
    cases r <;> exact hpost

/-- What never succeeds fails. -/
theorem exists_error {x : Action ε σ α} (hx : Triple P x (fun _ _ => False) F) {s : σ}
    (hs : P s) : ∃ e, (x s).1 = .error e := by
  have hpost := hx s hs
  cases hxs : x s with
  | mk r s' =>
    rw [hxs] at hpost
    cases r with
    | error e => exact ⟨e, rfl⟩
    | ok a => exact hpost.elim

section FixedState

variable {t : σ}

/-- It is enough to start from one state at a time. -/
theorem of_fixed {x : Action ε σ α} (h : ∀ t, P t → Triple (· = t) x Q F) : Triple P x Q F :=
  fun s hs => h s hs s rfl

/-- What is known from all states with a property on is known from each of them on. -/
theorem fix {x : Action ε σ α} (hx : Triple P x Q F) (ht : P t) : Triple (· = t) x Q F := by
  rintro _ rfl
  exact hx _ ht

/-- From one state on, what is asked about it is known afterwards. -/
theorem query_bind {f : σ → Except ε α} {g : α → Action ε σ β}
    (hok : ∀ a, f t = .ok a → Triple (· = t) (g a) R F) (herror : ∀ e, f t = .error e → F e t) :
    Triple (· = t) (Action.query f >>= g) R F := by
  apply bind (Q := fun a s => s = t ∧ f t = .ok a)
  · apply query
    · rintro s a rfl ha
      exact ⟨rfl, ha⟩
    · rintro s e rfl he
      exact herror e he
  · rintro a s ⟨rfl, ha⟩
    exact hok a ha s rfl

theorem look_bind {f : σ → α} {g : α → Action ε σ β} (h : Triple (· = t) (g (f t)) R F) :
    Triple (· = t) (Action.look f >>= g) R F := by
  rintro s rfl
  rw [bind_apply_of_ok (look_apply f s)]
  exact h s rfl

/-- From one state on, after an operation whose run is known. -/
theorem bind_of_run {x : Action ε σ α} {f : α → Action ε σ β} {t' : σ} {a : α}
    (hrun : x t = (.ok a, t')) (h : Triple (· = t') (f a) R F) : Triple (· = t) (x >>= f) R F := by
  rintro s rfl
  rw [bind_apply_of_ok hrun]
  exact h t' rfl

/-- A failure changes nothing. -/
theorem guarded_fixed {c : Prop} {_ : Decidable c} {e : ε} {f : PUnit → Action ε σ β}
    (h : ¬ c → Triple (· = t) (f ⟨⟩) R fun _ s => s = t) :
    Triple (· = t) (if c then MonadExcept.throw e >>= f else f ⟨⟩) R fun _ s => s = t :=
  guarded (fun _ _ hs => hs) h

end FixedState

end Triple

/-- The operation keeps a property of the state, whether it succeeds or fails. -/
def Keeps (P : σ → Prop) (x : Action ε σ α) : Prop := Triple P x (fun _ => P) fun _ => P

namespace Keeps

theorem of_fixed {x : Action ε σ α}
    (hx : ∀ t, P t → Triple (· = t) x (fun _ => P) fun _ => P) : Keeps P x :=
  Triple.of_fixed hx

/-- Asking changes nothing. -/
theorem query (f : σ → Except ε α) : Keeps P (Action.query f) :=
  Triple.query (fun _ _ hs _ => hs) fun _ _ hs _ => hs

theorem look (f : σ → α) : Keeps P (Action.look f : Action ε σ α) := Triple.look fun _ hs => hs

theorem update {f : σ → σ} (h : ∀ s, P s → P (f s)) :
    Keeps P (Action.update f : Action ε σ Unit) :=
  Triple.update h

theorem throw (e : ε) : Keeps P (MonadExcept.throw e : Action ε σ α) :=
  Triple.throw fun _ hs => hs

theorem pure (a : α) : Keeps P (Pure.pure a : Action ε σ α) := Triple.pure fun _ hs => hs

theorem ofExcept (r : Except ε α) : Keeps P (Action.ofExcept r : Action ε σ α) :=
  Triple.ofExcept (fun _ _ hs _ => hs) fun _ _ hs _ => hs

theorem bind {x : Action ε σ α} {f : α → Action ε σ β} (hx : Keeps P x)
    (hf : ∀ a, Keeps P (f a)) : Keeps P (x >>= f) :=
  Triple.bind hx hf

theorem mapError {x : Action ε σ α} {f : ε → ε'} (hx : Keeps P x) : Keeps P (x.mapError f) :=
  Triple.mapError hx

/-- Whatever comes of it. -/
theorem outcome {x : Action ε σ α} (hx : Keeps P x) : Keeps P (x.outcome : Action ε' σ _) := by
  refine Triple.weaken (Triple.outcome hx) (fun _ hs => hs) ?_ fun _ _ hs => hs
  intro r s hs
  cases r <;> exact hs

theorem ite {c : Prop} {_ : Decidable c} {x y : Action ε σ α} (hx : Keeps P x)
    (hy : Keeps P y) : Keeps P (if c then x else y) :=
  Triple.ite (fun _ => hx) fun _ => hy

theorem when {c : Prop} {_ : Decidable c} {x : Action ε σ PUnit} {f : PUnit → Action ε σ β}
    (hx : Keeps P x) (hf : Keeps P (f ⟨⟩)) : Keeps P (if c then x >>= f else f ⟨⟩) :=
  Triple.when (fun _ => hx) (fun _ => hf) fun _ => hf

/-- Which operation is done may depend on the state. -/
theorem of_state {f : σ → Action ε σ α} (hf : ∀ s, Keeps P (f s)) :
    Keeps P (fun s => f s s : Action ε σ α) :=
  fun s hs => hf s s hs

/-- An operation on a part keeps what holds of the whole, if that is about the part
only. -/
theorem within {τ : Type} {part : Part σ τ} {T : τ → Prop} {x : Action ε τ α} (hx : Keeps T x)
    (hget : ∀ s, P s → T (part.get s)) (hput : ∀ s t, P s → T t → P (part.set t s)) :
    Keeps P (x.within part) := by
  intro s hs
  have hrun := hx (part.get s) (hget s hs)
  unfold Action.within
  cases hxs : x (part.get s) with
  | mk r t =>
    rw [hxs] at hrun
    cases r with
    | error e => exact hput s t hs hrun
    | ok a => exact hput s t hs hrun

/-- A first operation that keeps what holds, and what follows. -/
theorem andThen {x : Action ε σ α} {f : α → Action ε σ β} (hx : Keeps P x)
    (herror : ∀ e s, P s → F e s) (hf : ∀ a, Triple P (f a) R F) : Triple P (x >>= f) R F :=
  Triple.bind (Triple.onError hx herror) hf

theorem whenThen {c : Prop} {_ : Decidable c} {x : Action ε σ PUnit} {f : PUnit → Action ε σ β}
    (hx : Keeps P x) (herror : ∀ e s, P s → F e s) (hf : Triple P (f ⟨⟩) R F) :
    Triple P (if c then x >>= f else f ⟨⟩) R F :=
  Triple.when (fun _ => Triple.onError hx herror) (fun _ => hf) fun _ => hf

/-- A loop keeps what each of its rounds keeps. -/
theorem forM {γ : Type} {f : γ → Action ε σ PUnit} {l : List γ}
    (hf : ∀ c ∈ l, Keeps P (f c)) : Keeps P (l.forM f) :=
  Triple.forM hf

/-- What holds of all states. -/
theorem always (h : ∀ s, P s) (x : Action ε σ α) : Keeps P x :=
  Triple.always (fun _ => h) fun _ => h

/-- What an operation that changes nothing has given, it gives again. -/
theorem again {x : Action ε σ α} {t : σ} (hx : Keeps (· = t) x) :
    Triple (· = t) x (fun a s => s = t ∧ x t = (.ok a, t)) fun _ s => s = t := by
  rintro s rfl
  have hrun := hx s rfl
  cases hxs : x s with
  | mk r s' =>
    rw [hxs] at hrun
    cases r with
    | error e => exact hrun
    | ok a =>
      cases hrun
      exact ⟨rfl, rfl⟩

/-- What is kept holds afterwards. -/
theorem apply {x : Action ε σ α} (hx : Keeps P x) {s : σ} (hs : P s) : P (x s).2 :=
  Triple.apply hx hs

/-- What is kept holds where a run has led to. -/
theorem of_run {x : Action ε σ α} (hx : Keeps P x) {s s' : σ} (hs : P s) {r : Except ε α}
    (hrun : x s = (r, s')) : P s' := by
  have hleft := hx.apply hs
  rwa [hrun] at hleft

end Keeps

/-- Whatever the operation gives as its result has the property. -/
def Yields (x : Action ε σ α) (Q : α → Prop) : Prop := ∀ s a s', x s = (.ok a, s') → Q a

/-- What is known of the operation, and what it gives as its result. -/
theorem Triple.yielding {P : σ → Prop} {x : Action ε σ α} {Q : α → σ → Prop} {F : ε → σ → Prop}
    {R : α → Prop} (hx : Triple P x Q F) (hyields : Yields x R) :
    Triple P x (fun a s => Q a s ∧ R a) F := by
  intro s hs
  have hrun := hx s hs
  cases hxs : x s with
  | mk r s' =>
    rw [hxs] at hrun
    cases r with
    | error e => exact hrun
    | ok a => exact ⟨hrun, hyields s a s' hxs⟩

namespace Yields

variable {Q : α → Prop} {R : β → Prop}

theorem pure {a : α} (h : Q a) : Yields (Pure.pure a : Action ε σ α) Q := by
  rintro s _ _ ⟨⟩
  exact h

theorem throw (e : ε) : Yields (MonadExcept.throw e : Action ε σ α) Q := nofun

theorem query {f : σ → Except ε α} (h : ∀ s a, f s = .ok a → Q a) : Yields (Action.query f) Q :=
  fun s a _ hrun => h s a (Prod.mk.inj hrun).1

theorem bind {x : Action ε σ α} {f : α → Action ε σ β} (hx : Yields x Q)
    (hf : ∀ a, Q a → Yields (f a) R) : Yields (x >>= f) R := by
  intro s b s' hrun
  obtain ⟨a, t, hxs, hrest⟩ := exists_of_bind hrun
  exact hf a (hx s a t hxs) t b s' hrest

/-- What comes last decides. -/
theorem after {x : Action ε σ α} {f : α → Action ε σ β} (hf : ∀ a, Yields (f a) R) :
    Yields (x >>= f) R :=
  bind (Q := fun _ => True) (fun _ _ _ _ => trivial) fun a _ => hf a

theorem ite {c : Prop} {_ : Decidable c} {x y : Action ε σ α} (hx : c → Yields x Q)
    (hy : ¬ c → Yields y Q) : Yields (if c then x else y) Q := by
  split
  · next hc => exact hx hc
  · next hc => exact hy hc

theorem when {c : Prop} {_ : Decidable c} {x : Action ε σ PUnit} {f : PUnit → Action ε σ β}
    (hf : Yields (f ⟨⟩) R) : Yields (if c then x >>= f else f ⟨⟩) R :=
  ite (fun _ => after fun _ => hf) fun _ => hf

theorem mapError {x : Action ε σ α} {f : ε → ε'} (hx : Yields x Q) : Yields (x.mapError f) Q := by
  intro s a s' hrun
  unfold Action.mapError at hrun
  cases hxs : x s with
  | mk r t =>
    rw [hxs] at hrun
    cases r with
    | error e => cases hrun
    | ok b =>
      cases hrun
      exact hx s _ _ hxs

theorem outcome {x : Action ε σ α} (hx : Yields x Q) :
    Yields (x.outcome : Action ε' σ _) fun r => ∀ a, r = .ok a → Q a := by
  rintro s r s' hrun a rfl
  unfold Action.outcome at hrun
  cases hxs : x s with
  | mk r t =>
    rw [hxs] at hrun
    obtain ⟨hr, _⟩ := Prod.mk.inj hrun
    rw [Except.ok.inj hr] at hxs
    exact hx s a t hxs

theorem within {τ : Type} {part : Part σ τ} {x : Action ε τ α} (hx : Yields x Q) :
    Yields (x.within part) Q := by
  intro s a s' hrun
  rw [within_apply] at hrun
  exact hx (part.get s) a _ (Prod.ext (Prod.mk.inj hrun).1 rfl)

end Yields

section Congruence

variable {s : σ}

/-- After the same first operation only its outcomes count. -/
theorem bind_congr {x : Action ε σ α} {f g : α → Action ε σ β}
    (h : ∀ a s', x s = (.ok a, s') → g a s' = f a s') : (x >>= g) s = (x >>= f) s := by
  cases hrun : x s with
  | mk r s' =>
    cases r with
    | error e => rw [bind_apply_of_error hrun, bind_apply_of_error hrun]
    | ok a =>
      rw [bind_apply_of_ok hrun, bind_apply_of_ok hrun]
      exact h a s' hrun

theorem bind_congr_left {x y : Action ε σ α} {f : α → Action ε σ β} (h : y s = x s) :
    (y >>= f) s = (x >>= f) s := by
  show andThen y f s = andThen x f s
  rw [andThen, andThen, h]

/-- Loops whose rounds do the same on every state that the rounds lead to do the
same. -/
theorem forM_congr {γ : Type} {f g : γ → Action ε σ PUnit} {l : List γ}
    (h : ∀ c s, P s → g c s = f c s) (hf : ∀ c, Keeps P (f c)) (hs : P s) :
    l.forM g s = l.forM f s := by
  induction l generalizing s with
  | nil => rfl
  | cons c l ih =>
    show (g c >>= fun _ => l.forM g) s = (f c >>= fun _ => l.forM f) s
    rw [bind_congr_left (h c s hs)]
    refine bind_congr fun _ s' hrun => ih ?_
    have hkeeps := (hf c).apply hs
    rwa [hrun] at hkeeps

end Congruence

end Action

end ConfinedFs
