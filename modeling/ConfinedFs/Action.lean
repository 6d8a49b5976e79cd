/-!
Operations on a state that may fail. A failure does not take back what the
operation has done to the state before it.
-/

namespace ConfinedFs

/-- An operation on a state `σ` with a result in `α` or an error in `ε`. -/
def Action (ε σ α : Type) : Type := σ → Except ε α × σ

/-- A part `τ` of a state `σ`. -/
structure Part (σ τ : Type) where
  get : σ → τ
  set : τ → σ → σ

namespace Part

/-- The whole as a part of itself. -/
def whole : Part σ σ := ⟨id, fun s _ => s⟩

/-- The second component of a pair. -/
def second : Part (α × σ) σ := ⟨Prod.snd, fun s p => (p.1, s)⟩

end Part

namespace Action

variable {ε ε' σ τ α β : Type}

/-- Succeeds and leaves the state alone. -/
def done (a : α) : Action ε σ α := fun s => (.ok a, s)

/-- Fails and leaves the state alone. -/
def fail (e : ε) : Action ε σ α := fun s => (.error e, s)

/-- The first operation and then, if it succeeds, the second. -/
def andThen (x : Action ε σ α) (f : α → Action ε σ β) : Action ε σ β := fun s =>
  match x s with
  | (.ok a, s') => f a s'
  | (.error e, s') => (.error e, s')

instance : Monad (Action ε σ) where
  pure := done
  bind := andThen

instance : LawfulMonad (Action ε σ) :=
  LawfulMonad.mk' _
    (fun x => by
      funext s
      show andThen x (done ∘ id) s = x s
      unfold andThen
      cases x s with
      | mk r s' => cases r <;> rfl)
    (fun _ _ => rfl)
    (fun x f g => by
      funext s
      show andThen (andThen x f) g s = andThen x (fun a => andThen (f a) g) s
      unfold andThen
      cases x s with
      | mk r s' => cases r <;> rfl)

@[simp]
theorem pure_apply (a : α) (s : σ) : (pure a : Action ε σ α) s = (.ok a, s) := rfl

/-- After a success the second operation goes on from the state the first one
has left. -/
theorem bind_apply_of_ok {x : Action ε σ α} {f : α → Action ε σ β} {s s' : σ} {a : α}
    (h : x s = (.ok a, s')) : (x >>= f) s = f a s' := by
  show andThen x f s = f a s'
  rw [andThen, h]

/-- After a failure the second operation is left out. -/
theorem bind_apply_of_error {x : Action ε σ α} {f : α → Action ε σ β} {s s' : σ} {e : ε}
    (h : x s = (.error e, s')) : (x >>= f) s = (.error e, s') := by
  show andThen x f s = (.error e, s')
  rw [andThen, h]

/-- What is done with the result of an operation need not know of the state. -/
theorem bind_pure_apply (x : Action ε σ α) (g : α → β) (s : σ) :
    (x >>= fun a => pure (g a)) s = ((x s).1.map g, (x s).2) := by
  cases hx : x s with
  | mk r s' =>
    cases r with
    | error e => rw [bind_apply_of_error hx]; rfl
    | ok a => rw [bind_apply_of_ok hx]; rfl

/-- The operation and then, if it fails, what is to be done about the error. -/
def orElse (x : Action ε σ α) (f : ε → Action ε σ α) : Action ε σ α := fun s =>
  match x s with
  | (.ok a, s') => (.ok a, s')
  | (.error e, s') => f e s'

instance : MonadExceptOf ε (Action ε σ) where
  throw := fail
  tryCatch := orElse

@[simp]
theorem throw_apply (e : ε) (s : σ) : (throw e : Action ε σ α) s = (.error e, s) := rfl

/-- The outcome of an operation as a value. -/
def outcome (x : Action ε σ α) : Action ε' σ (Except ε α) := fun s =>
  match x s with
  | (r, s') => (.ok r, s')

/-- Looks at the state. -/
def look (f : σ → α) : Action ε σ α := fun s => (.ok (f s), s)

/-- Looks at the state and may fail. -/
def query (f : σ → Except ε α) : Action ε σ α := fun s => (f s, s)

@[simp]
theorem look_apply (f : σ → α) (s : σ) : (look f : Action ε σ α) s = (.ok (f s), s) := rfl

@[simp]
theorem query_apply (f : σ → Except ε α) (s : σ) : query f s = (f s, s) := rfl

/-- Changes the state. -/
def update (f : σ → σ) : Action ε σ Unit := fun s => (.ok (), f s)

@[simp]
theorem update_apply (f : σ → σ) (s : σ) : (update f : Action ε σ Unit) s = (.ok (), f s) := rfl

/-- The outcome of a computation that needs no state. -/
def ofExcept : Except ε α → Action ε σ α
  | .ok a => done a
  | .error e => fail e

@[simp]
theorem ofExcept_apply (r : Except ε α) (s : σ) : (ofExcept r : Action ε σ α) s = (r, s) := by
  cases r <;> rfl

/-- The same operation with errors of another type. -/
def mapError (f : ε → ε') (x : Action ε σ α) : Action ε' σ α := fun s =>
  match x s with
  | (.ok a, s') => (.ok a, s')
  | (.error e, s') => (.error (f e), s')

theorem mapError_apply (f : ε → ε') (x : Action ε σ α) (s : σ) :
    x.mapError f s = ((x s).1.mapError f, (x s).2) := by
  unfold mapError
  cases x s with
  | mk r s' => cases r <;> rfl

/-- The operation on a part of a larger state. -/
def within (part : Part σ τ) (x : Action ε τ α) : Action ε σ α := fun s =>
  match x (part.get s) with
  | (r, t) => (r, part.set t s)

/-- What an operation on a part changes is the part. -/
theorem within_apply (part : Part σ τ) (x : Action ε τ α) (s : σ) :
    x.within part s = ((x (part.get s)).1, part.set (x (part.get s)).2 s) := rfl

end Action

end ConfinedFs
