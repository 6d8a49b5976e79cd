import ConfinedFs.Proofs.Layer.Dialog
import ConfinedFs.World

/-!
Two filesystems side by side, each with a state and handles of its own. Whatever one of
them is asked to do, and whatever is done with a file of one of them, it depends on
this one's state only and leaves the other one's alone.
-/

namespace ConfinedFs

variable {ρ σ τ H K ε α : Type}

/-- The first component of a pair. -/
def Part.first : Part (σ × τ) σ := ⟨Prod.fst, fun s p => (s, p.2)⟩

/-- An operation on a handle of either kind. -/
def onEither (onFirst : Action ε (H × σ) α) (onSecond : Action ε (K × τ) α) :
    Action ε ((H ⊕ K) × (σ × τ)) α := fun r =>
  match r with
  | (.inl h, s, t) =>
    let done := onFirst (h, s)
    (done.1, .inl done.2.1, done.2.2, t)
  | (.inr k, s, t) =>
    let done := onSecond (k, t)
    (done.1, .inr done.2.1, s, done.2.2)

instance Device.either [Device σ H] [Device τ K] : Device (σ × τ) (H ⊕ K) where
  read n := onEither (read n) (read n)
  readRest := onEither readRest readRest
  write data := onEither (write data) (write data)
  flush := onEither flush flush
  seek target := onEither (seek target) (seek target)
  readAt n offset := onEither (readAt n offset) (readAt n offset)
  writeAt data offset := onEither (writeAt data offset) (writeAt data offset)
  truncate size := onEither (truncate size) (truncate size)
  metadata p := onEither (metadata p) (metadata p)
  lock := onEither lock lock
  unlock := onEither unlock unlock
  close := onEither close close

theorem FileOperation.onDevice_either [Device σ H] [Device τ K] (op : FileOperation ε α)
    (name : Path) :
    op.onDevice (H := H ⊕ K) (σ := σ × τ) name = onEither (op.onDevice name) (op.onDevice name) := by
  cases op <;> rfl

/-- What a handle tells about its file is the same under every name, but for the name. -/
class Device.Renames (σ : Type) {H : Type} [Device σ H] : Prop where
  metadata_eq : ∀ (p q : Path) (s : H × σ),
    metadata p s = ((metadata q s).1.map (·.named p), (metadata q s).2)

/-- What a file tells about itself, under another name. -/
def FileOperation.relabelled (p : Path) : FileOperation ε α → α → α
  | metadata, m => m.named p
  | _, a => a

theorem FileOperation.onDevice_name [Device σ H] [Device.Renames σ] (op : FileOperation ε α)
    (p q : Path) (s : H × σ) :
    op.onDevice p s = ((op.onDevice q s).1.map (op.relabelled p), (op.onDevice q s).2) := by
  have hsame : ∀ r : Except ε α × H × σ, r = (r.1.map fun a => a, r.2) := by
    rintro ⟨r, s'⟩
    cases r <;> rfl
  cases op with
  | metadata => exact Device.Renames.metadata_eq p q s
  | _ => exact hsame _

section Backends

/-- Where the ends of two operations differ by a change of the result, so do the whole
operations after the same start. -/
theorem Action.bind_apply_of_map {β γ : Type} {x : Action ε σ α} {f : α → Action ε σ β}
    {g : α → Action ε σ γ} {change : γ → β}
    (h : ∀ a s, f a s = ((g a s).1.map change, (g a s).2)) (s : σ) :
    (x >>= f) s = (((x >>= g) s).1.map change, ((x >>= g) s).2) := by
  cases hx : x s with
  | mk r s' =>
    cases r with
    | error e =>
      rw [bind_apply_of_error hx, bind_apply_of_error hx]
      rfl
    | ok a =>
      rw [bind_apply_of_ok hx, bind_apply_of_ok hx]
      exact h a s'

instance : Device.Renames Memory where
  metadata_eq p q s := by
    simp only [Device.metadata, Memory.Handle.metadata]
    apply Action.bind_apply_of_map
    exact fun _ _ => rfl

instance : Device.Renames Os.Tree where
  metadata_eq p q s := by
    simp only [Device.metadata]
    apply Action.bind_apply_of_map
    exact fun _ _ => rfl

instance : Device.Renames World where
  metadata_eq p q s := by
    obtain ⟨handle, w⟩ := s
    cases handle with
    | memory i h =>
      have hmemory := Device.Renames.metadata_eq p q (h, (World.memory i).get w)
      simp only [Device.metadata, Handle.dispatch] at hmemory ⊢
      rw [hmemory]
    | host h =>
      have hhost := Device.Renames.metadata_eq p q (h, w.tree)
      simp only [Device.metadata, Handle.dispatch] at hhost ⊢
      rw [hhost]

instance [Device σ H] [Device τ K] [Device.Renames σ] [Device.Renames τ] :
    Device.Renames (σ × τ) where
  metadata_eq p q s := by
    obtain ⟨handle, s, t⟩ := s
    cases handle with
    | inl h =>
      have hfirst := Device.Renames.metadata_eq p q (h, s)
      simp only [Device.metadata, onEither] at hfirst ⊢
      rw [hfirst]
    | inr k =>
      have hsecond := Device.Renames.metadata_eq p q (k, t)
      simp only [Device.metadata, onEither] at hsecond ⊢
      rw [hsecond]

end Backends

/-- What is done with the handles of one kind depends on a part of the state only, and
what is done with others leaves that part alone. -/
structure Device.Separates [Device ρ H] (part : Part ρ σ) (mine : H → Bool) : Prop where
  agree : ∀ {ε α : Type} (op : FileOperation ε α) (name : Path) (h : H) (s s' : ρ),
    mine h = true → part.get s = part.get s' →
    (op.onDevice name (h, s)).1 = (op.onDevice name (h, s')).1 ∧
    (op.onDevice name (h, s)).2.1 = (op.onDevice name (h, s')).2.1 ∧
    mine (op.onDevice name (h, s)).2.1 = true ∧
    part.get (op.onDevice name (h, s)).2.2 = part.get (op.onDevice name (h, s')).2.2
  frame : ∀ {ε α : Type} (op : FileOperation ε α) (name : Path) (h : H) (s : ρ),
    mine h = false →
    mine (op.onDevice name (h, s)).2.1 = false ∧
    part.get (op.onDevice name (h, s)).2.2 = part.get s

theorem separates_first [Device σ H] [Device τ K] :
    Device.Separates (Part.first : Part (σ × τ) σ) (Sum.isLeft : H ⊕ K → Bool) := by
  constructor
  · rintro ε α op name (h | k) ⟨s, t⟩ ⟨s', t'⟩ hmine hget
    · have hsame : s = s' := hget
      subst hsame
      rw [FileOperation.onDevice_either]
      exact ⟨rfl, rfl, rfl, rfl⟩
    · cases hmine
  · rintro ε α op name (h | k) ⟨s, t⟩ hmine
    · cases hmine
    · rw [FileOperation.onDevice_either]
      exact ⟨rfl, rfl⟩

theorem separates_second [Device σ H] [Device τ K] :
    Device.Separates (Part.second : Part (σ × τ) τ) (Sum.isRight : H ⊕ K → Bool) := by
  constructor
  · rintro ε α op name (h | k) ⟨s, t⟩ ⟨s', t'⟩ hmine hget
    · cases hmine
    · have hsame : t = t' := hget
      subst hsame
      rw [FileOperation.onDevice_either]
      exact ⟨rfl, rfl, rfl, rfl⟩
  · rintro ε α op name (h | k) ⟨s, t⟩ hmine
    · rw [FileOperation.onDevice_either]
      exact ⟨rfl, rfl⟩
    · cases hmine

namespace FileSystem

variable {part : Part ρ σ} {mine : H → Bool} {fs : FileSystem ρ H}

/-- Everything the filesystem does depends on a part of the state and is done to it. -/
structure ActsOn (fs : FileSystem ρ H) (part : Part ρ σ) (mine : H → Bool) : Prop where
  agree : ∀ {α : Type} (op : Operation H α) (s s' : ρ), part.get s = part.get s' →
    (fs.perform op s).1 = (fs.perform op s').1 ∧
    part.get (fs.perform op s).2 = part.get (fs.perform op s').2
  opened : ∀ {α : Type} (op : Operation H α) (s : ρ) (a : α) (f : OpenFile H),
    (fs.perform op s).1 = .ok a → op.opened a = some f → mine f.handle = true

/-- Nothing the filesystem does is done to a part of the state. -/
structure Spares (fs : FileSystem ρ H) (part : Part ρ σ) (mine : H → Bool) : Prop where
  frame : ∀ {α : Type} (op : Operation H α) (s : ρ), part.get (fs.perform op s).2 = part.get s
  opened : ∀ {α : Type} (op : Operation H α) (s : ρ) (a : α) (f : OpenFile H),
    (fs.perform op s).1 = .ok a → op.opened a = some f → mine f.handle = false

section Within

variable {wrap : K → H} {inner : FileSystem σ K}

theorem within_bind_pure {β : Type} (x : Action ε σ α) (g : α → β) :
    (x.within part >>= fun a => pure (g a)) = (x >>= fun a => pure (g a)).within part := by
  funext s
  rw [Action.within_apply]
  cases hx : x (part.get s) with
  | mk r t =>
    have hwithin : x.within part s = (r, part.set t s) := by rw [Action.within_apply, hx]
    cases r with
    | error e => rw [Action.bind_apply_of_error hwithin, Action.bind_apply_of_error hx]
    | ok a => rw [Action.bind_apply_of_ok hwithin, Action.bind_apply_of_ok hx]; rfl

/-- The whole of what a filesystem on a part does is done on the part. -/
theorem perform_within (inner : FileSystem σ K) (part : Part ρ σ) (wrap : K → H)
    (op : Operation H α) :
    ∃ x : Action FileError σ α, (inner.within part wrap).perform op = x.within part := by
  cases op with
  | openFile p o | tempFile draws dir stem => exact ⟨_, within_bind_pure _ _⟩
  | _ => exact ⟨_, rfl⟩

/-- The files that a filesystem on a part hands out have wrapped handles. -/
theorem handle_within {op : Operation H α} {s : ρ} {a : α} {f : OpenFile H}
    (ha : ((inner.within part wrap).perform op s).1 = .ok a) (hf : op.opened a = some f) :
    ∃ k, f.handle = wrap k := by
  have hopened : ∀ x : Action FileError ρ (OpenFile K),
      ((x >>= fun g => pure (g.withHandle (wrap g.handle)) :
        Action FileError ρ (OpenFile H)) s).1 = .ok f → ∃ k, f.handle = wrap k := by
    intro x hrun
    cases hx : x s with
    | mk r t =>
      cases r with
      | error e =>
        rw [Action.bind_apply_of_error hx] at hrun
        cases hrun
      | ok g =>
        rw [Action.bind_apply_of_ok hx] at hrun
        exact ⟨g.handle, congrArg OpenFile.handle (Except.ok.inj hrun).symm⟩
  cases op with
  | openFile p o | tempFile draws dir stem =>
    cases hf
    exact hopened _ ha
  | _ => cases hf

theorem actsOn_within (hget : ∀ t s, part.get (part.set t s) = t)
    (hwrap : ∀ k, mine (wrap k) = true) : (inner.within part wrap).ActsOn part mine := by
  constructor
  · intro α op s s' hs
    obtain ⟨x, hx⟩ := perform_within inner part wrap op
    rw [hx, Action.within_apply, Action.within_apply, hget, hget, hs]
    exact ⟨rfl, rfl⟩
  · intro α op s a f ha hf
    obtain ⟨k, hk⟩ := handle_within ha hf
    rw [hk, hwrap]

theorem spares_within {other : Part ρ τ} (hget : ∀ t s, other.get (part.set t s) = other.get s)
    (hwrap : ∀ k, mine (wrap k) = false) : (inner.within part wrap).Spares other mine := by
  constructor
  · intro α op s
    obtain ⟨x, hx⟩ := perform_within inner part wrap op
    rw [hx, Action.within_apply, hget]
  · intro α op s a f ha hf
    obtain ⟨k, hk⟩ := handle_within ha hf
    rw [hk, hwrap]

end Within

end FileSystem

end ConfinedFs
