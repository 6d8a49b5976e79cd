import ConfinedFs.Proofs.Memory.Removing

/-!
Removing an entry and everything below it. The entries of a directory are asked for under the
cleaned path with their names after it, so what is removed is below the place that the path leads to
if the cleaned path leads there as well. Both have to do so to the end, when links below the place
that they go by have been removed.
-/

namespace ConfinedFs.Memory

open ConfinedFs.Action (Keeps Triple)
open ConfinedFs.Path

variable {m m' m₁ m₂ : Memory} {j k r s : Key} {p : Path} {n : Name} {node : Node} {levels : Nat}

section Frame

/-- One round of the removal, in a tree that may have been thinned out already. If it succeeds the
entry is gone, or there was nothing where the path leads now. -/
theorem triple_removeAllWithin (h : Thinned m k m₁) (hr : k <+: r)
    (hs : m₁.resolve p false = .ok s) (hends : Ends k r m₁ s)
    (hdir : m₁.isDir s = true → m.Leads (Passage.Steady k) p r ∧
      ∀ n : Name, Keeps (Thinned m k) (fileSystem.removeAllWithin levels (p.join ⟨n.bytes⟩))) :
    Triple (· = m₁) (fileSystem.removeAllWithin (levels + 1) p)
      (fun _ m' => Thinned m k m' ∧ ((∀ j, r <+: j → m'.nodeAt j = none) ∨ m₁.nodeAt s = none))
      fun _ m' => Thinned m k m' := by
  have hremove : ∀ m₂ s₂, Thinned m k m₂ → m₂.resolve p false = .ok s₂ → Ends k r m₂ s₂ →
      Triple (· = m₂) (remove p) (fun _ m' => Thinned m k m' ∧
        ((∀ j, r <+: j → m'.nodeAt j = none) ∨ m₁.nodeAt s = none)) fun _ m' => Thinned m k m' :=
    fun m₂ s₂ h₂ hs₂ hends₂ => (triple_remove_thinned h₂ hr hs₂ hends₂).weaken (fun _ hm => hm)
      (fun _ _ hdone => ⟨hdone.1, .inl hdone.2⟩) fun _ _ hm => hm
  rintro m₁ rfl
  cases hnode : m₁.nodeAt s with
  | none =>
    rw [removeAllWithin_of_free h.wellFormed hs hnode]
    exact ⟨h, .inr rfl⟩
  | some node =>
    rw [hnode] at hremove
    cases hkind : node.isDir with
    | false =>
      rw [removeAllWithin_of_leaf hs hnode hkind]
      exact hremove m₁ s h hs hends m₁ rfl
    | true =>
      obtain ⟨hleads, hround⟩ := hdir (h.wellFormed.isDir_iff.2 ⟨node, hnode, hkind⟩)
      rw [removeAllWithin_of_dir hs hnode hkind]
      have hloop : Keeps (Thinned m k) ((m₁.children s).forM fun n =>
          fileSystem.removeAllWithin levels (p.join ⟨n.bytes⟩)) := Keeps.forM fun n _ => hround n
      refine hloop.andThen (fun _ _ hm => hm) (fun _ => Triple.of_fixed fun m₂ h₂ => ?_) m₁ h
      obtain ⟨s₂, hs₂, hends₂⟩ := hleads.resolve_thinned h₂
      exact hremove m₂ s₂ h₂ hs₂ hends₂

theorem leads_child (h : m.WellFormed) (hdir : m.isDir r = true)
    (hclean : m.Leads (Passage.Steady k) p.clean r) (n : Name) :
    m.Leads (Passage.Steady k) (p.join ⟨n.bytes⟩) (r ++ [n]) := by
  obtain ⟨node, hnode, hkind⟩ := h.isDir_iff.1 hdir
  exact hclean.child (sight_of_dir hnode hkind) (fun l n hl => hl.longer n) n

/-- Only entries at and below the place are removed, if the path leads there to the end and so does
the cleaned path to a directory. The induction is on the levels; the entries of a directory are
reached by way of the same links as the directory. -/
theorem keeps_removeAllWithin (h : m.WellFormed) (hr : k <+: r)
    (hp : m.Leads (Passage.Steady k) p r)
    (hclean : m.isDir r = true → m.Leads (Passage.Steady k) p.clean r) :
    Keeps (Thinned m k) (fileSystem.removeAllWithin levels p) := by
  induction levels generalizing p r with
  | zero => exact Keeps.throw _
  | succ levels ih =>
    refine Keeps.of_fixed fun m₁ h₁ => ?_
    obtain ⟨s, hs, hends⟩ := hp.resolve_thinned h₁
    refine (triple_removeAllWithin h₁ hr hs hends fun hdir => ⟨hp, fun n => ?_⟩).weaken
      (fun _ hm => hm) (fun _ _ hdone => hdone.1) fun _ _ hm => hm
    have hdir₀ : m.isDir r = true := by
      obtain ⟨node, hnode, hkind⟩ := h₁.wellFormed.isDir_iff.1 hdir
      obtain rfl := hends.eq_of_stored hnode
      exact h.isDir_iff.2 ⟨node, h₁.nodeAt_eq_some hnode, hkind⟩
    have hchild := leads_child h hdir₀ (hclean hdir₀) n
    refine ih (hr.trans (List.prefix_append ..)) hchild fun _ => ?_
    rwa [clean_joined]

end Frame

section Success

/-- A loop over the entries of a directory leaves nothing of them, if each round removes one. -/
theorem clears_forM {round : Name → Action FileError Memory PUnit} {names : List Name}
    (hround : ∀ n ∈ names, ∀ m₁, Thinned m k m₁ → m₁.nodeAt k = m.nodeAt k →
      ∃ m₂, round n m₁ = (.ok ⟨⟩, m₂) ∧ Thinned m₁ (k ++ [n]) m₂ ∧
        ∀ j, k ++ [n] <+: j → m₂.nodeAt j = none)
    (h₁ : Thinned m k m₁) (hk₁ : m₁.nodeAt k = m.nodeAt k) :
    ∃ m₂, names.forM round m₁ = (.ok ⟨⟩, m₂) ∧ Thinned m₁ k m₂ ∧ m₂.nodeAt k = m.nodeAt k ∧
      ∀ n ∈ names, ∀ j, k ++ [n] <+: j → m₂.nodeAt j = none := by
  induction names generalizing m₁ with
  | nil => exact ⟨m₁, rfl, .refl h₁.wellFormed k, hk₁, by simp⟩
  | cons n names ih =>
    obtain ⟨m₂, hrun, hbelow, hgone⟩ := hround n (List.mem_cons_self ..) m₁ h₁ hk₁
    have hthinned := hbelow.mono (List.prefix_append k [n])
    have hk₂ : m₂.nodeAt k = m.nodeAt k := by
      rw [(hbelow.outside k fun hstarts => absurd hstarts.length_le (by simp)).2, hk₁]
    obtain ⟨m₃, hrest, hthinned₃, hk₃, hgone₃⟩ :=
      ih (fun n' hn' => hround n' (List.mem_cons_of_mem _ hn')) (h₁.trans hthinned) hk₂
    refine ⟨m₃, ?_, hthinned.trans hthinned₃, hk₃, fun n' hn' j hj => ?_⟩
    · show (round n >>= fun _ => names.forM round) m₁ = _
      rw [Action.bind_apply_of_ok hrun, hrest]
    · rcases List.mem_cons.1 hn' with rfl | hn'
      · exact hthinned₃.nodeAt_eq_none (hgone j hj)
      · exact hgone₃ n' hn' j hj

/-- A removal that goes by way of no link at or below the place removes everything there, with as
many levels as there are below the place. Only the top itself stays. -/
theorem removeAllWithin_clears (h : m.WellFormed) (hp : m.resolve p false = .ok k)
    (hdir : m.isDir k = true →
      m.Leads (Passage.Aside k) p k ∧ m.Leads (Passage.Aside k) p.clean k)
    (hlevels : 0 < levels)
    (hdepth : ∀ j node, m.nodeAt j = some node → k <+: j → j.length < k.length + levels) :
    ∃ m', fileSystem.removeAllWithin levels p m =
        (if k = [] then .error .baseNotDirectory else .ok (), m') ∧
      Thinned m k m' ∧ ∀ j, k <+: j → j ≠ [] → m'.nodeAt j = none := by
  induction levels generalizing m p k with
  | zero => exact absurd hlevels (Nat.lt_irrefl 0)
  | succ levels ih =>
    cases hnode : m.nodeAt k with
    | none =>
      refine ⟨m, ?_, .refl h k, fun j hj _ => h.free_of_prefix hnode hj⟩
      rw [removeAllWithin_of_free h hp hnode, if_neg (h.ne_nil_of_nodeAt hnode)]
    | some node =>
      cases hkind : node.isDir with
      | false =>
        rw [removeAllWithin_of_leaf hp hnode hkind]
        have hbelow := h.hasDescendants_eq_false_iff.1 (h.not_hasDescendants hnode hkind)
        exact remove_emptied h hp hnode hbelow
      | true =>
        obtain ⟨hleads, hclean⟩ := hdir (h.isDir_iff.2 ⟨node, hnode, hkind⟩)
        have hround : ∀ n ∈ m.children k, ∀ m₁, Thinned m k m₁ → m₁.nodeAt k = m.nodeAt k →
            ∃ m₂, fileSystem.removeAllWithin levels (p.join ⟨n.bytes⟩) m₁ = (.ok (), m₂) ∧
              Thinned m₁ (k ++ [n]) m₂ ∧ ∀ j, k ++ [n] <+: j → m₂.nodeAt j = none := by
          intro n hn m₁ h₁ hk₁
          obtain ⟨child, hchild⟩ := h.mem_children_iff.1 hn
          have hlength := hdepth _ _ hchild (List.prefix_append ..)
          rw [List.length_append, List.length_singleton] at hlength
          have hway : m₁.sight k = .way := sight_of_dir (hk₁.trans hnode) hkind
          have haside := ((hclean.thinned h₁).child hway (fun l n hl => hl.longer n) n).imp
            fun l hl (hstarts : k ++ [n] <+: l.link) => hl ((List.prefix_append ..).trans hstarts)
          obtain ⟨m₂, hrun, hthinned, hgone⟩ := ih h₁.wellFormed haside.resolve
            (fun _ => ⟨haside, by rwa [clean_joined]⟩) (by omega) fun j node hj hstarts => by
              have hj' := hdepth j node (h₁.nodeAt_eq_some hj)
                ((List.prefix_append ..).trans hstarts)
              rw [List.length_append, List.length_singleton]
              omega
          rw [if_neg (by simp)] at hrun
          refine ⟨m₂, hrun, hthinned, fun j hj => hgone j hj ?_⟩
          rintro rfl
          simp at hj
        obtain ⟨m₂, hloop, hthinned, hk₂, hgone⟩ := clears_forM hround (.refl h k) rfl
        obtain ⟨m₃, hremove, hthinned₃, hgone₃⟩ := remove_emptied hthinned.wellFormed
          (hleads.thinned hthinned).resolve (hk₂.trans hnode) (hthinned.none_below h hgone)
        refine ⟨m₃, ?_, hthinned.trans hthinned₃, hgone₃⟩
        rw [removeAllWithin_of_dir hp hnode hkind, Action.bind_apply_of_ok hloop, hremove]

end Success

theorem removeAll_thins (h : m.WellFormed) (hk : m.resolve p false = .ok k)
    (hdir : m.isDir k = true →
      m.Leads (Passage.Steady k) p k ∧ m.Leads (Passage.Steady k) p.clean k)
    {result : Except FileError Unit} (hrun : fileSystem.removeAll p m = (result, m')) :
    Thinned m k m' ∧ (result = .ok () → ∀ j, k <+: j → m'.nodeAt j = none) := by
  have hround : m.isDir k = true → m.Leads (Passage.Steady k) p k ∧ ∀ (n : Name),
      Keeps (Thinned m k) (fileSystem.removeAllWithin
        ((m.index.entries.length + 1) * (m.index.entries.length + 1)) (p.join ⟨n.bytes⟩)) := by
    intro hisDir
    refine ⟨(hdir hisDir).1, fun n => ?_⟩
    have hchild := leads_child h hisDir (hdir hisDir).2 n
    exact keeps_removeAllWithin h (List.prefix_append ..) hchild fun _ => by rwa [clean_joined]
  have hdone := triple_removeAllWithin (.refl h k) List.prefix_rfl hk (.inl rfl) hround m rfl
  rw [removeAll_levels h (Nat.le_succ _), hrun] at hdone
  cases result with
  | error e => exact ⟨hdone, nofun⟩
  | ok =>
    refine ⟨hdone.1, fun _ j hj => ?_⟩
    rcases hdone.2 with hgone | hfree
    · exact hgone j hj
    · exact hdone.1.nodeAt_eq_none (h.free_of_prefix hfree hj)

theorem removeAll_clears (h : m.WellFormed) (hk : m.resolve p false = .ok k)
    (hdir : m.isDir k = true →
      m.Leads (Passage.Aside k) p k ∧ m.Leads (Passage.Aside k) p.clean k) :
    (fileSystem.removeAll p m).1 = if k = [] then .error .baseNotDirectory else .ok () := by
  have hdepth : ∀ j node, m.nodeAt j = some node → k <+: j → j.length < k.length +
      ((m.index.entries.length + 1) * (m.index.entries.length + 1) + m.index.entries.length) := by
    intro j node hj _
    have hlength := h.length_lt hj
    omega
  obtain ⟨top, htop, -⟩ := h.nodeAt_top
  have hstored := h.length_lt htop
  obtain ⟨m', hrun, -⟩ := removeAllWithin_clears h hk hdir (by omega) hdepth
  rw [← removeAll_levels h (Nat.le_add_right ..), hrun]

/-- After any calls, removing everything at a path that leads nowhere fails and changes nothing.
Suppose it leads to a place, and if there is a directory the cleaned path leads there too and
neither of them leads up again after a link at or below the place that it goes by. Then nothing is
changed but at and below the place: links there are removed and not followed, and if the removal
succeeds nothing is left. It does succeed, but for the top, if they go by no such link at all. If
neither the path nor the target of a link leads up, the cleaned path leads where the path leads. -/
theorem run_removeAll (calls : List Call) (p : Path) :
    let m := (Session.run calls).memory
    (∀ e, m.resolve p false = .error e → fileSystem.removeAll p m = (.error e, m)) ∧
    ∀ k, m.resolve p false = .ok k →
      ((m.isDir k = true →
          m.Leads (Passage.Steady k) p k ∧ m.Leads (Passage.Steady k) p.clean k) →
        ∀ r m', fileSystem.removeAll p m = (r, m') →
          Thinned m k m' ∧ (r = .ok () → ∀ j, k <+: j → m'.nodeAt j = none)) ∧
      ((m.isDir k = true →
          m.Leads (Passage.Aside k) p k ∧ m.Leads (Passage.Aside k) p.clean k) →
        (fileSystem.removeAll p m).1 = if k = [] then .error .baseNotDirectory else .ok ()) ∧
      (m.Descends p → m.Leads (Passage.Steady k) p k ∧ m.Leads (Passage.Steady k) p.clean k) := by
  intro m
  have h : m.WellFormed := Session.wellFormed_run calls
  exact ⟨fun e he => removeAllWithin_of_error h he, fun k hk =>
    ⟨fun hdir _ _ hrun => removeAll_thins h hk hdir hrun, removeAll_clears h hk,
      fun hp => hp.leads hk⟩⟩

private def crateName : Name := ⟨[120], rfl⟩

private def drawerName : Name := ⟨[121], rfl⟩

/-- A directory is removed by way of a link, with a link in it that points to a file. The file
stays. -/
theorem run_removeAll_by_link :
    let m := (Session.run [.createDirAll ⟨[120, 47, 121]⟩ 0o755, .symlink ⟨[120]⟩ ⟨[108]⟩,
      .openFile ⟨[121]⟩ .creating, .symlink ⟨[47, 121]⟩ ⟨[120, 47, 121, 47, 108]⟩]).memory
    ∃ m', fileSystem.removeAll ⟨[108, 47, 121]⟩ m = (.ok (), m') ∧
      (∀ j, [crateName, drawerName] <+: j → m'.nodeAt j = none) ∧ SameAt m m' [drawerName] := by
  intro m
  have hremove := run_removeAll [.createDirAll ⟨[120, 47, 121]⟩ 0o755, .symlink ⟨[120]⟩ ⟨[108]⟩,
    .openFile ⟨[121]⟩ .creating, .symlink ⟨[47, 121]⟩ ⟨[120, 47, 121, 47, 108]⟩] ⟨[108, 47, 121]⟩
  have hk : m.resolve ⟨[108, 47, 121]⟩ false = .ok [crateName, drawerName] := rfl
  have hclean : (⟨[108, 47, 121]⟩ : Path).clean = ⟨[108, 47, 121]⟩ := rfl
  have hsight : m.sight [⟨[108], rfl⟩] = .link ⟨[120]⟩ := rfl
  have hleads : m.Leads (Passage.Aside [crateName, drawerName]) ⟨[108, 47, 121]⟩
      [crateName, drawerName] :=
    ⟨[⟨[⟨[108], rfl⟩], [.down drawerName]⟩],
      .follow hsight (.inr nofun) (.through rfl (.through rfl .done)),
      by decide, by simp [Passage.Aside, crateName]⟩
  have hboth : m.isDir [crateName, drawerName] = true →
      m.Leads (Passage.Aside [crateName, drawerName]) ⟨[108, 47, 121]⟩ [crateName, drawerName] ∧
      m.Leads (Passage.Aside [crateName, drawerName]) (⟨[108, 47, 121]⟩ : Path).clean
        [crateName, drawerName] := fun _ => ⟨hleads, hclean ▸ hleads⟩
  obtain ⟨hthins, hclears, -⟩ := hremove.2 _ hk
  have hsteady := fun hdir => (hboth hdir).imp
    (fun h => h.imp fun _ hl => hl.steady) fun h => h.imp fun _ hl => hl.steady
  cases hrun : fileSystem.removeAll ⟨[108, 47, 121]⟩ m with
  | mk result m' =>
    obtain ⟨hthinned, hgone⟩ := hthins hsteady result m' hrun
    have hok := hclears hboth
    rw [hrun] at hok
    obtain rfl : result = .ok () := hok
    exact ⟨m', rfl, hgone rfl, hthinned.outside _ (by decide)⟩

/-- A path goes by a link and up again, to a place above the one that the link points to. What is
removed is an entry of the same name somewhere else, and the directory stays. -/
theorem removeAll_astray :
    let m := (Session.run [.createDirAll ⟨[120, 47, 121]⟩ 0o755,
      .symlink ⟨[47, 120, 47, 121]⟩ ⟨[108]⟩, .openFile ⟨[121]⟩ .creating]).memory
    let m' := (fileSystem.removeAll ⟨[108, 47, 46, 46]⟩ m).2
    m.resolve ⟨[108, 47, 46, 46]⟩ false = .ok [crateName] ∧ ¬ [crateName] <+: [drawerName] ∧
      m.nodeAt [drawerName] ≠ none ∧ m'.nodeAt [drawerName] = none := by
  refine ⟨rfl, by decide, nofun, rfl⟩

end ConfinedFs.Memory
