import ConfinedFs.Proofs.Os.Enclosure

/-!
Operations run on two trees that look the same inside of an enclosure. One that
asks only about the inside and changes only the inside has the same result on
both trees and leaves them looking the same inside. This is shown for the calls
of the system first, and it carries over to whatever is put together from them.
-/

namespace ConfinedFs.Os.Enclosure

variable {ε ε' α β : Type} {E : Enclosure} {t t' u u' : Tree} {Q : α → Prop} {R : β → Prop}

/-- On both trees the operation has the same result, which has a property if it
is a success, and what it changes is inside. -/
structure Agree (E : Enclosure) (x : Action ε Tree α) (Q : α → Prop) (t t' : Tree) : Prop where
  result : (x t').1 = (x t).1
  twin : E.Twin (x t).2 (x t').2
  first : E.Local t (x t).2
  second : E.Local t' (x t').2
  property : ∀ a, (x t).1 = .ok a → Q a

/-- The operation agrees on any two trees that look the same inside. -/
def Confines (E : Enclosure) (x : Action ε Tree α) (Q : α → Prop) : Prop :=
  ∀ t t', E.Twin t t' → E.Agree x Q t t'

/-- A result about which nothing needs to be known. -/
abbrev Any : α → Prop := fun _ => True

namespace Agree

theorem pure (h : E.Twin t t') {a : α} (hq : Q a) :
    E.Agree (Pure.pure a : Action ε Tree α) Q t t' := by
  refine ⟨rfl, h, .refl E t, .refl E t', ?_⟩
  intro b hb
  cases hb
  exact hq

theorem throw (h : E.Twin t t') (e : ε) :
    E.Agree (MonadExcept.throw e : Action ε Tree α) Q t t' := by
  refine ⟨rfl, h, .refl E t, .refl E t', ?_⟩
  intro b hb
  cases hb

/-- A question that has the same answer on both sides. -/
theorem query (h : E.Twin t t') {f : Tree → Except ε α} (heq : f t' = f t)
    (hq : ∀ a, f t = .ok a → Q a) : E.Agree (Action.query f) Q t t' :=
  ⟨heq, h, .refl E t, .refl E t', hq⟩

theorem look (h : E.Twin t t') {f : Tree → α} (heq : f t' = f t) (hq : Q (f t)) :
    E.Agree (Action.look f : Action ε Tree α) Q t t' := by
  refine ⟨congrArg Except.ok heq, h, .refl E t, .refl E t', ?_⟩
  intro b hb
  cases hb
  exact hq

theorem update {f : Tree → Tree} (h : E.Twin (f t) (f t')) (hfirst : E.Local t (f t))
    (hsecond : E.Local t' (f t')) :
    E.Agree (Action.update f : Action ε Tree Unit) Any t t' :=
  ⟨rfl, h, hfirst, hsecond, fun _ _ => trivial⟩

/-- After the same result and the same changes both sides go on in the same
way. -/
theorem bind {x : Action ε Tree α} {f : α → Action ε Tree β} (hx : E.Agree x Q t t')
    (hf : ∀ a u u', x t = (.ok a, u) → x t' = (.ok a, u') → Q a → E.Twin u u' →
      E.Agree (f a) R u u') : E.Agree (x >>= f) R t t' := by
  obtain ⟨hresult, htwin, hfirst, hsecond, hproperty⟩ := hx
  cases hrun : x t with
  | mk r u =>
    cases hrun' : x t' with
    | mk r' u' =>
      rw [hrun, hrun'] at hresult htwin
      rw [hrun] at hfirst hproperty
      rw [hrun'] at hsecond
      cases hresult
      cases r with
      | error e =>
        have hleft := Action.bind_apply_of_error (f := f) hrun
        have hright := Action.bind_apply_of_error (f := f) hrun'
        refine ⟨?_, ?_, ?_, ?_, ?_⟩
        · rw [hleft, hright]
        · rw [hleft, hright]
          exact htwin
        · rw [hleft]
          exact hfirst
        · rw [hright]
          exact hsecond
        · intro b hb
          rw [hleft] at hb
          cases hb
      | ok a =>
        obtain ⟨hresult, htwin', hfirst', hsecond', hproperty'⟩ :=
          hf a u u' hrun hrun' (hproperty a rfl) htwin
        have hleft := Action.bind_apply_of_ok (f := f) hrun
        have hright := Action.bind_apply_of_ok (f := f) hrun'
        refine ⟨?_, ?_, ?_, ?_, ?_⟩
        · rw [hleft, hright, hresult]
        · rw [hleft, hright]
          exact htwin'
        · rw [hleft]
          exact hfirst.trans hfirst'
        · rw [hright]
          exact hsecond.trans hsecond'
        · intro b hb
          rw [hleft] at hb
          exact hproperty' b hb

/-- What the operation does on other trees does not count. -/
theorem congr {x y : Action ε Tree α} (hx : E.Agree x Q t t') (h : y t = x t) (h' : y t' = x t') :
    E.Agree y Q t t' := by
  obtain ⟨hresult, htwin, hfirst, hsecond, hproperty⟩ := hx
  rw [← h] at hresult htwin hfirst hproperty
  rw [← h'] at hresult htwin hsecond
  exact ⟨hresult, htwin, hfirst, hsecond, hproperty⟩

/-- A question after which the tree is the same. -/
theorem query_bind {f : Tree → Except ε α} {g : α → Action ε Tree β} (h : E.Twin t t')
    (heq : f t' = f t) (hg : ∀ a, f t = .ok a → E.Agree (g a) R t t') :
    E.Agree (Action.query f >>= g) R t t' := by
  refine bind (Q := fun a => f t = .ok a) (query h heq fun _ ha => ha) ?_
  intro a u u' hrun hrun' ha _
  obtain rfl : t = u := (Prod.mk.inj hrun).2
  obtain rfl : t' = u' := (Prod.mk.inj hrun').2
  exact hg a ha

theorem look_bind {f : Tree → α} {g : α → Action ε Tree β} (heq : f t' = f t)
    (hg : E.Agree (g (f t)) R t t') : E.Agree (Action.look f >>= g) R t t' := by
  refine hg.congr (Action.bind_apply_of_ok (Action.look_apply f t)) ?_
  rw [← heq]
  exact Action.bind_apply_of_ok (Action.look_apply f t')

/-- Looking at a node inside. What is done with the node must not depend on what
it says about the directory above it. -/
theorem node?_bind {i : NodeId} {g : Option Inode → Action ε Tree β} (h : E.Twin t t')
    (hi : E.inside i)
    (hg : ∀ d above, g (some (.directory { d with parent := above })) = g (some (.directory d)))
    (hnode : E.Agree (g (t.node? i)) R t t') :
    E.Agree (Action.look (Tree.node? · i) >>= g) R t t' := by
  refine hnode.congr (Action.bind_apply_of_ok (Action.look_apply _ t)) ?_
  rw [Action.bind_apply_of_ok (Action.look_apply _ t')]
  rcases h.node?_cases hi with ⟨_, heq⟩ | ⟨_, d, above, hd, hd'⟩
  · rw [heq]
  · rw [hd, hd', hg]

theorem mapError {x : Action ε Tree α} (hx : E.Agree x Q t t') (f : ε → ε') :
    E.Agree (x.mapError f) Q t t' := by
  obtain ⟨hresult, htwin, hfirst, hsecond, hproperty⟩ := hx
  have hrun := Action.mapError_apply f x
  refine ⟨?_, ?_, ?_, ?_, ?_⟩
  · rw [hrun, hrun, hresult]
  · rw [hrun, hrun]
    exact htwin
  · rw [hrun]
    exact hfirst
  · rw [hrun]
    exact hsecond
  · intro a ha
    rw [hrun] at ha
    cases hok : (x t).1 with
    | error e =>
      rw [hok] at ha
      cases ha
    | ok b =>
      rw [hok] at ha
      cases ha
      exact hproperty a hok

theorem outcome {x : Action ε Tree α} (hx : E.Agree x Q t t') :
    E.Agree (x.outcome : Action ε' Tree _) Any t t' :=
  ⟨congrArg Except.ok hx.result, hx.twin, hx.first, hx.second, fun _ _ => trivial⟩

theorem weaken {x : Action ε Tree α} (hx : E.Agree x Q t t') {Q' : α → Prop}
    (h : ∀ a, Q a → Q' a) : E.Agree x Q' t t' :=
  ⟨hx.result, hx.twin, hx.first, hx.second, fun a ha => h a (hx.property a ha)⟩

end Agree

namespace Confines

theorem pure {a : α} (hq : Q a) : E.Confines (Pure.pure a : Action ε Tree α) Q :=
  fun _ _ h => .pure h hq

theorem throw (e : ε) : E.Confines (MonadExcept.throw e : Action ε Tree α) Q :=
  fun _ _ h => .throw h e

theorem bind {x : Action ε Tree α} {f : α → Action ε Tree β} (hx : E.Confines x Q)
    (hf : ∀ a, Q a → E.Confines (f a) R) : E.Confines (x >>= f) R :=
  fun t t' h => (hx t t' h).bind fun a u u' _ _ ha hu => hf a ha u u' hu

theorem mapError {x : Action ε Tree α} (hx : E.Confines x Q) (f : ε → ε') :
    E.Confines (x.mapError f) Q :=
  fun t t' h => (hx t t' h).mapError f

theorem outcome {x : Action ε Tree α} (hx : E.Confines x Q) :
    E.Confines (x.outcome : Action ε' Tree _) Any :=
  fun t t' h => (hx t t' h).outcome

theorem ofExcept {r : Except ε α} (hq : ∀ a, r = .ok a → Q a) :
    E.Confines (Action.ofExcept r : Action ε Tree α) Q := by
  intro t t' h
  cases r with
  | error e => exact .throw h e
  | ok a => exact .pure h (hq a rfl)

/-- What would come after a failure does not matter. -/
theorem throw_bind (e : ε) (f : α → Action ε Tree β) :
    E.Confines (MonadExcept.throw e >>= f) R :=
  bind (throw (Q := fun _ => False) e) fun _ h => h.elim

/-- A first operation that is done on a condition only, and what follows in
either case. -/
theorem when {c : Prop} {_ : Decidable c} {x : Action ε Tree PUnit} {f : PUnit → Action ε Tree β}
    (hx : E.Confines x Any) (hf : E.Confines (f ⟨⟩) R) :
    E.Confines (if c then x >>= f else f ⟨⟩) R := by
  split
  · exact bind hx fun _ _ => hf
  · exact hf

end Confines

/-- What comes after a possible failure is reached on both sides or on neither. -/
theorem Agree.guarded {c : Prop} {_ : Decidable c} {e : ε} {f : PUnit → Action ε Tree α}
    (h : E.Twin t t') (hf : ¬ c → E.Agree (f ⟨⟩) Q t t') :
    E.Agree (if c then MonadExcept.throw e >>= f else f ⟨⟩) Q t t' := by
  split
  · exact Confines.throw_bind e f t t' h
  · next hc => exact hf hc

/-- What needs no tree is known before the run. -/
theorem Agree.ofExcept_bind {r : Except ε α} {g : α → Action ε Tree β} (h : E.Twin t t')
    (hg : ∀ a, r = .ok a → E.Agree (g a) R t t') : E.Agree (Action.ofExcept r >>= g) R t t' := by
  cases r with
  | error e => exact Confines.throw_bind e g t t' h
  | ok a => exact (hg a rfl).congr rfl rfl

/-- A loop whose rounds are confined is confined. -/
theorem Confines.forM {γ : Type} {f : γ → Action ε Tree PUnit} {l : List γ}
    (hf : ∀ c ∈ l, E.Confines (f c) Any) : E.Confines (l.forM f) Any := by
  induction l with
  | nil => exact .pure trivial
  | cons c l ih =>
    show E.Confines (f c >>= fun _ => l.forM f) Any
    exact .bind (hf c (List.mem_cons_self ..)) fun _ _ =>
      ih fun c' hc' => hf c' (List.mem_cons_of_mem _ hc')

end ConfinedFs.Os.Enclosure
