import ConfinedFs.Host.FileSystem
import ConfinedFs.Proofs.Path.LastName
import ConfinedFs.Proofs.Path.NormalForm
import ConfinedFs.Proofs.Path.Steps
import ConfinedFs.Proofs.Triple

/-!
The laws of joining. A path that is joined is settled from where the base has led, and what has been
settled before has the same effect as what it was settled from. So it does not matter which of two
joins is made first, and a path that does not climb only adds names to its base. An empty base is
the exception: an absolute path that is joined to it stays absolute.
-/

namespace ConfinedFs

open ConfinedFs.Os

namespace Path

open ConfinedFs.Bytes ConfinedFs.Component

variable {rooted : Bool} {kept cs : List Component} {base base' p q : Path} {n : Name}

section Settling

/-- One more component has the same effect, whether it is settled before or after. -/
theorem foldl_settle_settle (rooted : Bool) (kept left : List Component) (c : Component) :
    (settle false left c).reverse.foldl (settle rooted) kept =
      settle rooted (left.reverse.foldl (settle rooted) kept) c := by
  have hput : ∀ d, (d :: left).reverse.foldl (settle rooted) kept =
      settle rooted (left.reverse.foldl (settle rooted) kept) d := by
    intro d
    rw [List.reverse_cons, List.foldl_append]
    rfl
  cases c with
  | root => rfl
  | current => rfl
  | name n => exact hput (.name n)
  | parent =>
    cases left with
    | nil => exact hput .parent
    | cons d left =>
      cases d with
      | root => exact hput .parent
      | current => exact hput .parent
      | parent => exact hput .parent
      | name n =>
        -- The step up takes back the name, whatever that has been put on.
        rw [List.reverse_cons, List.foldl_append]
        rfl

/-- What is left of components has the effect of all of them, wherever they are settled from. The
induction is on the components. -/
theorem foldl_settle_foldl (rooted : Bool) (kept left cs : List Component) :
    (cs.foldl (settle false) left).reverse.foldl (settle rooted) kept =
      cs.foldl (settle rooted) (left.reverse.foldl (settle rooted) kept) := by
  induction cs generalizing left with
  | nil => rfl
  | cons c cs ih => rw [List.foldl_cons, ih, foldl_settle_settle, List.foldl_cons]

theorem IsSettled.of_name (h : IsSettled rooted (.name n :: kept)) : IsSettled rooted kept := by
  obtain ⟨names, ups, heq, hups⟩ := h
  cases names with
  | nil => cases ups <;> cases heq
  | cons m names =>
    cases heq
    exact ⟨names, ups, rfl, hups⟩

end Settling

section Join

theorem join_eq_join_iff : base.join p = base'.join q ↔
    (base.join p).isAbsolute = (base'.join q).isAbsolute ∧
      (base.join p).settled = (base'.join q).settled := by
  rw [← clean_eq_clean_iff, clean_joined, clean_joined]

/-- Of three paths the first two or the last two may be joined first, unless the one in the middle
is absolute or empty. -/
theorem join_assoc (a : Path) {b : Path} (hempty : b.isEmpty = false)
    (hrelative : b.isAbsolute = false) (c : Path) :
    (a.join b).join c = a.join (b.join c) := by
  have hfirst : (a.join b).isEmpty = false := clean_joined a b ▸ isEmpty_clean _
  have hlast : (b.join c).isAbsolute = false := (isAbsolute_joined (.inl hempty)).trans hrelative
  have hinner : (b.join c).inner = ((b.inner ++ c.inner).foldl (settle false) []).reverse := by
    rw [← clean_joined, inner_clean, settled_join (.inl hempty), settled_eq, List.reverse_reverse,
      hrelative, List.foldl_append]
  rw [join_eq_join_iff]
  constructor
  · rw [isAbsolute_joined (.inl hfirst), isAbsolute_joined (.inr hrelative),
      isAbsolute_joined (.inr hlast)]
  · rw [settled_join (.inl hfirst), settled_join (.inr hrelative), settled_join (.inr hlast),
      isAbsolute_joined (.inr hrelative), hinner, foldl_settle_foldl, List.reverse_reverse,
      List.foldl_append]
    rfl

theorem clean_join_left (h : base.isEmpty = false ∨ p.isAbsolute = false) :
    base.clean.join p = base.join p := by
  have hclean : base.clean.isEmpty = false ∨ p.isAbsolute = false := .inl (isEmpty_clean base)
  rw [join_eq_join_iff, isAbsolute_joined hclean, isAbsolute_joined h, settled_join hclean,
    settled_join h, isAbsolute_clean, settled_clean]
  exact ⟨rfl, rfl⟩

theorem parts_join_name (base : Path) (n : Name) :
    (base.join ⟨n.bytes⟩).clean.parts = base.clean.parts ++ [.name n] := by
  have habsolute : (base.join ⟨n.bytes⟩).isAbsolute = base.isAbsolute :=
    isAbsolute_join_below base [n]
  rw [parts_clean, parts_clean, habsolute, settled_join_name]
  split
  · rfl
  · rfl

/-- Names that are joined one after the other stay below the base. -/
theorem parts_foldl_join (base : Path) (names : List Name) :
    (names.foldl (fun p n => p.join ⟨n.bytes⟩) base).clean.parts =
      base.clean.parts ++ names.map .name := by
  induction names generalizing base with
  | nil => exact (List.append_nil _).symm
  | cons n names ih =>
    rw [List.foldl_cons, ih, parts_join_name, List.append_assoc]
    rfl

end Join

section LastElement

/-- Without its last name a path leads where the components before it do. -/
theorem dirName_of_settled (h : p.settled = cs ++ [.name n]) :
    p.dirName.isAbsolute = p.isAbsolute ∧ p.dirName.settled = cs := by
  have hkept : IsSettled p.isAbsolute cs.reverse := by
    have hall := isSettled_settled p
    rw [h, List.reverse_append] at hall
    exact hall.of_name
  have hinner : ∀ c ∈ cs, c.IsInner := fun c hc => hkept.isInner (List.mem_reverse.2 hc)
  have hne : p.settled ≠ [] := by simp [h]
  obtain ⟨habsolute, hdir⟩ : p.dirName.isAbsolute = p.isAbsolute ∧ p.dirName.inner = cs := by
    unfold dirName
    dsimp only
    rw [getLast?_components_clean h, components_clean, if_neg hne, h]
    cases habsolute : p.isAbsolute with
    | true =>
      rw [if_pos rfl, ← List.cons_append, List.dropLast_concat]
      exact ⟨isAbsolute_ofComponents_root cs, inner_ofComponents_root hinner⟩
    | false =>
      rw [if_neg nofun, List.dropLast_concat]
      cases cs with
      | nil => exact ⟨rfl, rfl⟩
      | cons c cs => exact ⟨isAbsolute_ofComponents hinner, inner_ofComponents hinner⟩
  refine ⟨habsolute, ?_⟩
  rw [← hdir, settled_eq_self]
  rwa [habsolute, hdir]

/-- The last element below what comes before it gives the path again, unless it is a step up. -/
theorem join_dirName_baseName (h : p.clean.components.getLast? ≠ some .parent) :
    p.dirName.join p.baseName = p.clean := by
  rcases List.eq_nil_or_concat p.settled with hnil | ⟨cs, c, hsettled⟩
  · cases habsolute : p.isAbsolute with
    | true =>
      have hclean := clean_eq_top_iff.2 ⟨habsolute, hnil⟩
      simp only [dirName, baseName, hclean]
      rfl
    | false =>
      have hclean := clean_eq_here_iff.2 ⟨habsolute, hnil⟩
      simp only [dirName, baseName, hclean]
      rfl
  · rw [List.concat_eq_append] at hsettled
    have hc : c.IsInner := isInner_of_mem_settled (hsettled ▸ List.mem_concat_self)
    cases c with
    | root => exact absurd rfl hc.1
    | current => exact absurd rfl hc.2
    | parent => exact absurd (getLast?_components_clean hsettled) h
    | name n =>
      obtain ⟨habsolute, hdir⟩ := dirName_of_settled hsettled
      rw [baseName_of_settled hsettled, ← clean_joined, clean_eq_clean_iff, settled_join_name, hdir,
        hsettled]
      exact ⟨(isAbsolute_join_below _ [n]).trans habsolute, rfl⟩

end LastElement

end Path

namespace Host

variable {p : Path} {t u : Tree} {h : Host}

/-- A canonical path is made of names, whatever the tree. -/
theorem exists_ofNames_of_canonical {q : Path} (hq : t.canonical p = .ok q) :
    ∃ names, q = Path.ofNames names := by
  obtain ⟨_, -, hchecked⟩ := exists_of_bind_eq_ok hq
  split at hchecked
  · cases hchecked
  · obtain ⟨s, -, hdone⟩ := exists_of_bind_eq_ok hchecked
    cases hdone
    exact ⟨_, rfl⟩

theorem exists_ofNames_of_withRoot (hrun : withRoot p t = (.ok h, u)) :
    ∃ names, h.root = Path.ofNames names := by
  obtain ⟨root, t', hcanonical, hrest⟩ := Action.exists_of_bind hrun
  have hroot : t.canonical p = .ok root := by
    rw [ask_apply] at hcanonical
    exact ok_of_mapError (congrArg Prod.fst hcanonical)
  obtain ⟨isDir, t', -, hdone⟩ := Action.exists_of_bind hrest
  cases isDir with
  | false => cases hdone
  | true =>
    cases hdone
    exact exists_ofNames_of_canonical hroot

/-- The host is asked about nothing that is not below the root. -/
theorem components_place {names : List Name} (hroot : h.root = Path.ofNames names) (q : Path) :
    h.root.components <+: (h.place q).components := by
  rw [place, hroot, Path.fromTop_eq, Path.join_ofNames, Path.components_ofNames,
    Path.components_ofNames, List.map_append]
  exact List.cons_prefix_cons.2 ⟨rfl, List.prefix_append ..⟩

end Host

/-- What comes of joining. Of three paths any two neighbours may be joined first if the one in the
middle is relative and not empty; a path that does not climb adds its names to those of the base,
unless it is absolute and the base is empty, in which case it stays as it is; names lead further
and further below the base, and every path of a host below its root; and a path is what comes before
its last element joined to that, unless it is a step up. -/
theorem join_laws :
    (∀ a b c : Path, b.isEmpty = false → b.isAbsolute = false →
      (a.join b).join c = a.join (b.join c)) ∧
    (∀ base q : Path, q.climbsOut = false → base.isEmpty = false ∨ q.isAbsolute = false →
      (base.join q.clean).parts =
        base.clean.parts ++ q.clean.components.filter Component.isName) ∧
    (∀ base q : Path, base.isEmpty = true → q.isAbsolute = true → base.join q.clean = q.clean) ∧
    (∀ (base : Path) (names : List Name),
      (names.foldl (fun p n => p.join ⟨n.bytes⟩) base).clean.parts =
        base.clean.parts ++ names.map .name) ∧
    (∀ h : Host, h = Host.whole ∨ (∃ p t u, Host.withRoot p t = (.ok h, u)) →
      ∀ q : Path, h.root.components <+: (h.place q).components) ∧
    ∀ p : Path, p.clean.components.getLast? ≠ some .parent →
      p.dirName.join p.baseName = p.clean := by
  refine ⟨fun a b c hempty hrelative => Path.join_assoc a hempty hrelative c,
    fun base q hstays hbase => ?_, fun base q hempty _ => ?_, Path.parts_foldl_join,
    fun h hh q => ?_, fun p hp => Path.join_dirName_baseName hp⟩
  · rw [← Path.parts_join_clean base hstays, Path.clean_join_left]
    rwa [Path.isAbsolute_clean]
  · rw [Path.join, if_pos hempty, Path.clean_clean]
  · rcases hh with rfl | ⟨p, t, u, hrun⟩
    · have htop : Host.whole.root = Path.ofNames [] := rfl
      exact Host.components_place htop q
    · obtain ⟨names, hroot⟩ := Host.exists_ofNames_of_withRoot hrun
      exact Host.components_place hroot q

/-- Below an empty base an absolute path stays absolute. -/
theorem join_absolute_below_nothing :
    (⟨[47, 120]⟩ : Path).climbsOut = false ∧
    ((⟨[]⟩ : Path).join (Path.clean ⟨[47, 120]⟩)).parts ≠
      (Path.clean ⟨[]⟩).parts ++ (Path.clean ⟨[47, 120]⟩).components.filter Component.isName := by
  decide

/-- From `/a` by `../b` and `../c`, from `d` by `/x/../y`, and from nothing by `/x`. A host at `/d`
is not left by `../e`, and `/a/../b` is `b` below the top. -/
theorem join_laws_sideways :
    let a : Path := ⟨[47, 97]⟩
    let b : Path := ⟨[46, 46, 47, 98]⟩
    let c : Path := ⟨[46, 46, 47, 99]⟩
    let p : Path := ⟨[47, 97, 47, 46, 46, 47, 98]⟩
    let t := (Host.mkdir ⟨[47, 100]⟩ 0o755 .fresh).2
    (a.join b).join c = a.join (b.join c) ∧ a.join (b.join c) = ⟨[47, 99]⟩ ∧
    (Path.join ⟨[100]⟩ (Path.clean ⟨[47, 120, 47, 46, 46, 47, 121]⟩)).parts =
      Path.components ⟨[100, 47, 121]⟩ ∧
    Path.join ⟨[]⟩ (Path.clean ⟨[47, 120]⟩) = ⟨[47, 120]⟩ ∧
    (∃ h, Host.withRoot ⟨[47, 46, 47, 100]⟩ t = (.ok h, t) ∧
      h.root.components <+: (h.place ⟨[46, 46, 47, 101]⟩).components) ∧
    p.dirName.join p.baseName = p.clean ∧ p.clean = ⟨[47, 98]⟩ := by
  intro a b c p t
  obtain ⟨hassoc, hadded, hnothing, -, hhost, hlast⟩ := join_laws
  have hrun : Host.withRoot ⟨[47, 46, 47, 100]⟩ t = (.ok ⟨⟨[47, 100]⟩⟩, t) := rfl
  refine ⟨hassoc a b c (by decide) (by decide), by decide, ?_, hnothing _ _ (by decide) (by decide),
    ⟨_, hrun, hhost _ (.inr ⟨_, _, _, hrun⟩) _⟩, hlast p (by decide), by decide⟩
  exact (hadded _ _ (by decide) (.inl (by decide))).trans (by decide)

end ConfinedFs
