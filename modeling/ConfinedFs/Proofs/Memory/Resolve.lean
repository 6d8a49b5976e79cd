import ConfinedFs.Memory.Resolve
import ConfinedFs.Proofs.Memory.WellFormed

/-!
Where paths lead in a tree in memory. Only the last place on the way may hold a
file or a link, so that directories can be created at all places above it.
-/

namespace ConfinedFs.Memory

/-- At the place and above it there are only directories and free places. -/
def Enterable (m : Memory) (k : Key) : Prop :=
  ∀ a n, a <+: k → m.nodeAt a = some n → n.isDir = true

/-- A walk ends at a place with nothing but directories and free places above it,
or fails for another reason than a missing entry. -/
def Arrives (m : Memory) : Except FileError Key → Prop
  | .ok k => m.Passable k
  | .error e => e ≠ .entityNotFound

variable {m : Memory} {k : Key} {n : Name}

theorem Enterable.passable (h : m.Enterable k) : m.Passable k := fun a node ha _ => h a node ha

theorem Enterable.parent (h : m.Enterable k) : m.Enterable k.parent :=
  fun a node ha => h a node (ha.trans (List.dropLast_prefix k))

theorem Enterable.passable_concat (h : m.Enterable k) : m.Passable (k ++ [n]) := by
  intro a node ha hne hnode
  rcases List.prefix_concat_iff.1 ha with heq | hstarts
  · exact absurd heq hne
  · exact h a node hstarts hnode

theorem Enterable.concat (h : m.Enterable k)
    (hn : ∀ node, m.nodeAt (k ++ [n]) = some node → node.isDir = true) :
    m.Enterable (k ++ [n]) := by
  intro a node ha hnode
  rcases List.prefix_concat_iff.1 ha with heq | hstarts
  · exact hn node (heq ▸ hnode)
  · exact h a node hstarts hnode

theorem WellFormed.enterable_top (h : m.WellFormed) : m.Enterable [] := by
  intro a node ha hnode
  obtain ⟨top, htop, hdir⟩ := h.nodeAt_top
  rw [List.prefix_nil.1 ha, htop] at hnode
  cases hnode
  exact hdir

/-- Walking from an enterable place on, as long as the walks that take over at
links arrive. -/
theorem advance_arrives (h : m.WellFormed) (followLast : Bool)
    {jump : List Step → Key → Except FileError Key}
    (hjump : ∀ steps k, m.Enterable k → m.Arrives (jump steps k)) (steps : List Step)
    (hk : m.Enterable k) : m.Arrives (m.advance followLast jump steps k) := by
  induction steps generalizing k with
  | nil => exact hk.passable
  | cons step rest ih =>
    cases step with
    | up => exact ih hk.parent
    | down n =>
      -- Nothing comes after a file, or after a link that is not followed.
      have hlast : rest.isEmpty = true →
          m.Arrives (m.advance followLast jump rest (k ++ [n])) := by
        intro hrest
        rw [List.isEmpty_iff.1 hrest]
        exact hk.passable_concat
      rw [advance]
      cases hnode : m.nodeAt (k ++ [n]) with
      | none =>
        apply ih
        apply hk.concat
        intro node hsome
        rw [hnode] at hsome
        cases hsome
      | some node =>
        obtain ⟨kind, cell⟩ := node
        cases kind with
        | directory =>
          apply ih
          apply hk.concat
          intro node hsome
          rw [hnode] at hsome
          cases hsome
          rfl
        | file =>
          dsimp only
          split
          · next hrest => exact hlast hrest
          · exact fun heq => nomatch heq
        | symlink =>
          dsimp only
          split
          · apply hjump
            split
            · exact h.enterable_top
            · exact hk
          · next hfollow =>
            apply hlast
            cases hrest : rest.isEmpty with
            | true => rfl
            | false =>
              rw [hrest, Bool.not_false, Bool.or_true] at hfollow
              exact absurd rfl hfollow

theorem resolveWithin_arrives (h : m.WellFormed) (followLast : Bool) (links : Nat)
    (steps : List Step) (hk : m.Enterable k) :
    m.Arrives (m.resolveWithin followLast links steps k) := by
  induction links generalizing steps k with
  | zero =>
    apply advance_arrives h followLast _ steps hk
    intro steps k _ heq
    cases heq
  | succ links ih => exact advance_arrives h followLast (fun steps _ hk => ih steps hk) steps hk

theorem resolve_arrives (h : m.WellFormed) (p : Path) (followLast : Bool) :
    m.Arrives (m.resolve p followLast) :=
  resolveWithin_arrives h followLast linkLimit p.steps h.enterable_top

theorem passable_of_resolve (h : m.WellFormed) {p : Path} {followLast : Bool}
    (hk : m.resolve p followLast = .ok k) : m.Passable k := by
  have harrives := resolve_arrives h p followLast
  rw [hk] at harrives
  exact harrives

end ConfinedFs.Memory
