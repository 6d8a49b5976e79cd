import ConfinedFs.Proofs.Memory.Listing

/-!
The walk over a subtree. What it reports in each directory are the entries and what is below them,
so that in the end it has reported what is stored below the place it started from, in the order of
the index. Its paths stay on the way that it has come, so that they lead to the entries.
-/

namespace ConfinedFs

namespace Action

variable {ε σ α β : Type} {s : σ} {R : α → β → Prop}

/-- Rounds that succeed and leave the state alone give their results in order. -/
theorem mapM_of_forall {f : α → Action ε σ β} {l : List α}
    (h : ∀ a ∈ l, ∃ b, f a s = (.ok b, s) ∧ R a b) :
    ∃ bs, l.mapM f s = (.ok bs, s) ∧ List.Forall₂ R l bs := by
  induction l with
  | nil => exact ⟨[], rfl, .nil⟩
  | cons a l ih =>
    obtain ⟨b, hb, hab⟩ := h a (List.mem_cons_self ..)
    obtain ⟨bs, hbs, hl⟩ := ih fun a' ha' => h a' (List.mem_cons_of_mem _ ha')
    refine ⟨b :: bs, ?_, .cons hab hl⟩
    rw [List.mapM_cons, bind_apply_of_ok hb, bind_apply_of_ok hbs, pure_apply]

end Action

namespace Memory

open ConfinedFs.Path

variable {m : Memory} {k r r' : Key} {n : Name} {p : Path} {node : Node} {d : Metadata}
  {levels : Nat}

section Below

/-- Nothing is below what is not a directory. -/
theorem waysDown_eq_nil (h : m.WellFormed) (hnode : m.nodeAt k = some node)
    (hleaf : node.isDir = false) : m.waysDown k = [] := by
  rw [List.eq_nil_iff_forall_not_mem]
  intro r hr
  obtain ⟨hne, below, hbelow⟩ := (mem_waysDown_iff h).1 hr
  obtain ⟨above, habove, hdir⟩ := h.parented_of_nodeAt hbelow k (List.prefix_append k r) (by simpa)
  obtain rfl := Option.some.inj (habove.symm.trans hnode)
  rw [hleaf] at hdir
  cases hdir

theorem eq_of_below_leaf (h : m.WellFormed) (hnode : m.nodeAt (k ++ r) = some node)
    (hleaf : node.isDir = false) (hr' : r' ∈ m.waysDown k) (hstarts : r <+: r') : r' = r := by
  obtain ⟨rest, rfl⟩ := hstarts
  by_cases hrest : rest = []
  · rw [hrest, List.append_nil]
  · have hstored := ((mem_waysDown_iff h).1 hr').2
    rw [← List.append_assoc] at hstored
    have hbelow : rest ∈ m.waysDown (k ++ r) := (mem_waysDown_iff h).2 ⟨hrest, hstored⟩
    rw [waysDown_eq_nil h hnode hleaf] at hbelow
    cases hbelow

/-- The ways down by way of one entry: to the entry, and on from there. -/
def waysThrough (m : Memory) (k : Key) (n : Name) : List Key :=
  [n] :: (m.waysDown (k ++ [n])).map (n :: ·)

theorem mem_waysThrough_iff (h : m.WellFormed) : r ∈ m.waysThrough k n ↔
    ∃ r', r = n :: r' ∧ (r' = [] ∨ ∃ node, m.nodeAt (k ++ r) = some node) := by
  rw [waysThrough, List.mem_cons, List.mem_map]
  constructor
  · rintro (rfl | ⟨r', hr', rfl⟩)
    · exact ⟨[], rfl, .inl rfl⟩
    · obtain ⟨-, hstored⟩ := (mem_waysDown_iff h).1 hr'
      rw [List.append_assoc] at hstored
      exact ⟨r', rfl, .inr hstored⟩
  · rintro ⟨r', rfl, hlast⟩
    by_cases hr' : r' = []
    · exact .inl (by rw [hr'])
    · have hstored := hlast.resolve_left hr'
      rw [List.append_cons] at hstored
      exact .inr ⟨r', (mem_waysDown_iff h).2 ⟨hr', hstored⟩, rfl⟩

theorem sorted_waysThrough (h : m.WellFormed) (k : Key) (n : Name) :
    (m.waysThrough k n).Pairwise (· < ·) := by
  rw [waysThrough, List.pairwise_cons, List.pairwise_map]
  constructor
  · intro r hr
    obtain ⟨r', hr', rfl⟩ := List.mem_map.1 hr
    obtain ⟨b, r', rfl⟩ := List.exists_cons_of_ne_nil ((mem_waysDown_iff h).1 hr').1
    exact List.cons_lt_cons_iff.2 (.inr ⟨rfl, List.nil_lt_cons b r'⟩)
  · exact (sorted_waysDown h _).imp fun hlt => List.cons_lt_cons_iff.2 (.inr ⟨rfl, hlt⟩)

/-- The ways down from a directory, in order, are those by way of its entries. -/
theorem waysDown_eq_flatMap (h : m.WellFormed) (k : Key) :
    m.waysDown k = (m.children k).flatMap (m.waysThrough k) := by
  refine List.Pairwise.eq_of_mem_iff (sorted_waysDown h k) ?_ fun r => ?_
  · refine List.pairwise_flatMap.2 ⟨fun n _ => sorted_waysThrough h k n, ?_⟩
    refine (sorted_children h k).imp fun {n n'} hlt r hr r' hr' => ?_
    obtain ⟨rest, rfl, -⟩ := (mem_waysThrough_iff h).1 hr
    obtain ⟨rest', rfl, -⟩ := (mem_waysThrough_iff h).1 hr'
    exact List.cons_lt_cons_iff.2 (.inl hlt)
  · rw [mem_waysDown_iff h, List.mem_flatMap]
    constructor
    · rintro ⟨hne, node, hnode⟩
      obtain ⟨n, hn, rest, hrest⟩ :=
        h.exists_child hnode (List.prefix_append k r) (by simpa using hne)
      obtain rfl : n :: rest = r := by simpa using hrest
      exact ⟨n, hn, (mem_waysThrough_iff h).2 ⟨rest, rfl, .inr ⟨node, hnode⟩⟩⟩
    · rintro ⟨n, hn, hr⟩
      obtain ⟨rest, rfl, hlast⟩ := (mem_waysThrough_iff h).1 hr
      refine ⟨List.cons_ne_nil _ _, ?_⟩
      rcases hlast with rfl | hstored
      · exact h.mem_children_iff.1 hn
      · exact hstored

end Below

section Walk

/-- What is reported is the path that goes on from the root of the walk, which leads to the place,
and what is known about the entry there. A link is described and not followed. -/
structure Reports (m : Memory) (p : Path) (k r : Key) (found : Path × Metadata) : Prop where
  path : found.1 = p.join (below r)
  leads : m.resolve found.1 false = .ok (k ++ r)
  metadata : fileSystem.lstat (k ++ r).path m = (.ok found.2, m)

/-- What is reported below an entry is reported below its directory. -/
theorem Reports.of_child {found : Path × Metadata}
    (h : m.Reports (p.join ⟨n.bytes⟩) (k ++ [n]) r found) : m.Reports p k (n :: r) found := by
  have hplace := List.append_cons k n r
  refine ⟨?_, ?_, ?_⟩
  · rw [h.path]
    exact join_below_append p [n] r
  · rw [h.leads, hplace]
  · rw [hplace, h.metadata]

theorem resolve_join_name (hk : m.resolve p.clean false = .ok k) (hway : m.sight k = .way)
    (n : Name) : m.resolve (p.join ⟨n.bytes⟩) false = .ok (k ++ [n]) := by
  have hleads : m.Leads (fun _ => True) p.clean k := leads_of_resolve hk fun _ _ _ => trivial
  exact (hleads.child hway (fun _ _ _ => trivial) n).resolve

theorem reports_child (h : m.WellFormed) (hk : m.resolve p.clean false = .ok k)
    (hway : m.sight k = .way) (hchild : m.describe (k ++ [n]) n.bytes = .ok d) :
    m.Reports p k [n] (p.join ⟨n.bytes⟩, d) := by
  have hplace := resolve_path h hk
  exact ⟨rfl, resolve_join_name hk hway n, Prod.ext ((lstat_child hplace hway n).trans hchild) rfl⟩

theorem walkWithin_of_leaf (hleaf : d.isDir = false) :
    fileSystem.walkWithin (levels + 1) p d m = (.ok [(p, d)], m) := by
  rw [FileSystem.walkWithin, hleaf]
  rfl

/-- A directory is reported before its entries, which are walked over one after the other. -/
theorem walkWithin_of_dir (hs : m.resolve p true = .ok k) (hnode : m.nodeAt k = some node)
    (hdir : node.isDir = true) (hd : d.isDir = true) {R : Name → List (Path × Metadata) → Prop}
    (hentries : ∀ n ∈ m.children k, ∃ d' found, m.describe (k ++ [n]) n.bytes = .ok d' ∧
      fileSystem.walkWithin levels (p.join ⟨n.bytes⟩) d' m = (.ok found, m) ∧ R n found) :
    ∃ found, fileSystem.walkWithin (levels + 1) p d m = (.ok ((p, d) :: found.flatten), m) ∧
      List.Forall₂ R (m.children k) found := by
  have hrounds : ∀ n ∈ m.children k, ∃ found, (do
      fileSystem.walkWithin levels (p.join ⟨n.bytes⟩)
        (← Action.ofExcept (m.describe (k ++ [n]) n.bytes))) m = (.ok found, m) ∧ R n found := by
    intro n hn
    obtain ⟨d', found, hd', hfound, hn⟩ := hentries n hn
    refine ⟨found, ?_, hn⟩
    rw [Action.bind_apply_of_ok (a := d') (by rw [hd', Action.ofExcept_apply]), hfound]
  obtain ⟨found, hfound, hall⟩ := Action.mapM_of_forall hrounds
  refine ⟨found, ?_, hall⟩
  rw [FileSystem.walkWithin, hd, if_pos rfl, Action.bind_apply_of_ok (readDir_of_dir hs hnode hdir),
    List.mapM_map]
  simp only [Function.comp_def, DirEntry.fileName, fileName?_push, Option.getD_some]
  rw [Action.bind_apply_of_ok hfound, Action.pure_apply]

/-- With enough levels a walk reports what is stored below. The induction is on the levels, each of
which is one name deeper. -/
theorem walkWithin_of_stored (h : m.WellFormed) (hk : m.resolve p false = .ok k)
    (hclean : m.resolve p.clean false = .ok k) (hnode : m.nodeAt k = some node)
    (hd : d.isDir = node.isDir) (hlevels : m.index.entries.length ≤ k.length + levels) :
    ∃ found, fileSystem.walkWithin levels p d m = (.ok ((p, d) :: found), m) ∧
      List.Forall₂ (m.Reports p k) (m.waysDown k) found := by
  induction levels generalizing p k node d with
  | zero => exact absurd (h.length_lt hnode) (Nat.not_lt_of_le hlevels)
  | succ levels ih =>
    cases hdir : node.isDir with
    | false =>
      rw [waysDown_eq_nil h hnode hdir]
      exact ⟨[], walkWithin_of_leaf (hd.trans hdir), .nil⟩
    | true =>
      have hway : m.sight k = .way := sight_of_dir hnode hdir
      have hend := noLinkAt_of_dir hnode hdir
      have hentries : ∀ n ∈ m.children k, ∃ d' found,
          m.describe (k ++ [n]) n.bytes = .ok d' ∧
          fileSystem.walkWithin levels (p.join ⟨n.bytes⟩) d' m = (.ok found, m) ∧
          List.Forall₂ (m.Reports p k) (m.waysThrough k n) found := by
        intro n hn
        obtain ⟨child, hchild⟩ := h.mem_children_iff.1 hn
        obtain ⟨d', hd', hkind⟩ := exists_describe hchild n.bytes
        have hreached := resolve_join_name hclean hway n
        have hdeeper : m.index.entries.length ≤ (k ++ [n]).length + levels := by
          rw [List.length_append, List.length_singleton]
          omega
        obtain ⟨found, hfound, hbelow⟩ :=
          ih hreached (by rwa [clean_joined]) hchild hkind hdeeper
        refine ⟨d', _, hd', hfound, .cons (reports_child h hclean hway hd') ?_⟩
        exact List.forall₂_map_left_iff.2 (hbelow.imp fun _ _ => Reports.of_child)
      obtain ⟨found, hfound, hall⟩ :=
        walkWithin_of_dir (resolve_followed hk hend) hnode hdir (hd.trans hdir) hentries
      refine ⟨found.flatten, hfound, ?_⟩
      rw [waysDown_eq_flatMap h]
      exact List.rel_flatten (List.forall₂_map_left_iff.2 hall)

end Walk

/-- After any calls, a walk from a path that does not lead up succeeds if the path is described. It
reports the path itself and then, in order, each place of the index below the one that the path
leads to, once. Nothing is below a link, nor below anything else that is not a directory. -/
theorem run_walk (calls : List Call) {p : Path} (hparent : .parent ∉ p.components) :
    let m := (Session.run calls).memory
    ∀ d m', fileSystem.lstat p m = (.ok d, m') → ∃ (k : Key) (ways : List Key)
        (found : List (Path × Metadata)), m.resolve p false = .ok k ∧
      fileSystem.walk p m = (.ok ((p, d) :: found), m) ∧
      List.Forall₂ (m.Reports p k) ways found ∧
      ways.Pairwise (· < ·) ∧
      (∀ r, r ∈ ways ↔ r ≠ [] ∧ m.index.contains (k ++ r) = true) ∧
      ∀ r node, m.nodeAt (k ++ r) = some node → node.isDir = false →
        ∀ r' ∈ ways, r <+: r' → r' = r := by
  intro m d m' hlstat
  have h : m.WellFormed := Session.wellFormed_run calls
  obtain ⟨hd, rfl⟩ : m.lstat p = .ok d ∧ m = m' := Prod.mk.inj hlstat
  obtain ⟨k, hk, hdescribed⟩ := exists_of_bind_eq_ok hd
  obtain ⟨node, hnode⟩ : ∃ node, m.nodeAt k = some node := by
    cases hnode : m.nodeAt k with
    | none => cases (describe_of_free h hnode _).symm.trans hdescribed
    | some node => exact ⟨node, rfl⟩
  obtain ⟨d', hd', hkind⟩ := exists_describe hnode p.baseName.bytes
  obtain rfl := Except.ok.inj (hd'.symm.trans hdescribed)
  have hclean : m.resolve p.clean false = .ok k := by
    have hup : Step.up ∉ p.steps := by
      rw [steps_eq_names hparent]
      simp
    rw [resolve, steps_clean_of_up_notMem hup]
    exact hk
  have hlevels : m.index.entries.length ≤ k.length + (m.index.entries.length + 1) := by omega
  obtain ⟨found, hfound, hreports⟩ := walkWithin_of_stored h hk hclean hnode hkind hlevels
  refine ⟨k, m.waysDown k, found, hk, ?_, hreports, sorted_waysDown h k, fun r => ?_, ?_⟩
  · rw [FileSystem.walk, Action.bind_apply_of_ok hlstat]
    exact hfound
  · rw [mem_waysDown_iff h, h.contains_iff]
  · exact fun r node hnode hleaf r' hr' hstarts => eq_of_below_leaf h hnode hleaf hr' hstarts

private def sillName : Name := ⟨[110], rfl⟩

private def ledgeName : Name := ⟨[101], rfl⟩

private def latchName : Name := ⟨[111], rfl⟩

/-- A walk starts from a directory that is reached by way of a link. The link in it is reported,
although it leads to the top. -/
theorem run_walk_by_link :
    let m := (Session.run [.createDirAll ⟨[110, 47, 101, 47, 102]⟩ 0o755,
      .symlink ⟨[47]⟩ ⟨[110, 47, 101, 47, 111]⟩, .symlink ⟨[110]⟩ ⟨[113]⟩]).memory
    ∃ d found e, fileSystem.walk ⟨[113, 47, 101]⟩ m = (.ok ((⟨[113, 47, 101]⟩, d) :: found), m) ∧
      e ∈ found ∧ e.1 = ⟨[113, 47, 101, 47, 111]⟩ ∧
      fileSystem.lstat ⟨[47, 110, 47, 101, 47, 111]⟩ m = (.ok e.2, m) := by
  intro m
  obtain ⟨d, hd⟩ : ∃ d, fileSystem.lstat ⟨[113, 47, 101]⟩ m = (.ok d, m) := ⟨_, rfl⟩
  obtain ⟨k, ways, found, hk, hwalk, hreports, -, hways, -⟩ := run_walk _ (by decide) d m hd
  have hroot : m.resolve ⟨[113, 47, 101]⟩ false = .ok [sillName, ledgeName] := rfl
  obtain rfl := Except.ok.inj (hroot.symm.trans hk)
  have hlink : [latchName] ∈ ways := (hways _).2 ⟨List.cons_ne_nil _ _, rfl⟩
  obtain ⟨i, hi, hget⟩ := List.getElem_of_mem hlink
  have hi' : i < found.length := hreports.length_eq ▸ hi
  have hreport := hreports.get hi hi'
  rw [List.get_eq_getElem, hget] at hreport
  exact ⟨d, found, _, hwalk, List.get_mem found ⟨i, hi'⟩, hreport.path, hreport.metadata⟩

end Memory

end ConfinedFs
