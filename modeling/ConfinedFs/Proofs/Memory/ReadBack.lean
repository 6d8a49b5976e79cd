import ConfinedFs.Proofs.Memory.Answers
import ConfinedFs.Proofs.Memory.Session

/-!
What is stored in memory and asked for again under the same path. The second walk sees what
the first one saw, except at the place of the new entry, where the first one saw nothing and
could go on. So the two walks part only if the first one went on from that very place, and
for that a path has to lead up again from an entry that is missing.
-/

namespace ConfinedFs.Memory

open ConfinedFs.Action (Keeps Triple Yields)

variable {m m' m₁ : Memory} {j k r : Key} {c : CellId} {p : Path} {followLast : Bool}

/-- What a walk sees at a place: it can go on, or there is a file, or a link to be followed. -/
inductive Sight where
  | way
  | file
  | link (target : Path)

def sight (m : Memory) (k : Key) : Sight :=
  match m.nodeAt k with
  | some ⟨.symlink, c⟩ => .link ⟨(m.content c).data⟩
  | some ⟨.file, _⟩ => .file
  | _ => .way

theorem sight_of_free (hk : m.nodeAt k = none) : m.sight k = .way := by simp [sight, hk]

theorem sight_of_dir {n : Node} (hk : m.nodeAt k = some n) (hdir : n.isDir = true) :
    m.sight k = .way := by
  obtain ⟨kind, c⟩ := n
  cases kind <;> simp_all [sight, Node.isDir]

theorem sight_of_file (hk : m.nodeAt k = some ⟨.file, c⟩) : m.sight k = .file := by
  simp [sight, hk]

theorem sight_of_link (hk : m.nodeAt k = some ⟨.symlink, c⟩) :
    m.sight k = .link ⟨(m.content c).data⟩ := by simp [sight, hk]

/-- A walk goes by what it sees. -/
theorem advance_down (m : Memory) (followLast : Bool)
    (jump : List Step → Key → Except FileError Key) (n : Name) (rest : List Step) (k : Key) :
    m.advance followLast jump (.down n :: rest) k =
      match m.sight (k ++ [n]) with
      | .way => m.advance followLast jump rest (k ++ [n])
      | .file => if rest.isEmpty then .ok (k ++ [n]) else .error .baseNotDirectory
      | .link target =>
        if followLast || !rest.isEmpty then
          jump (target.steps ++ rest) (if target.isAbsolute then [] else k)
        else .ok (k ++ [n]) := by
  rw [advance, sight]
  cases hnode : m.nodeAt (k ++ [n]) with
  | none => rfl
  | some node =>
    obtain ⟨kind, c⟩ := node
    cases kind with
    | directory => rfl
    | file => cases rest <;> rfl
    | symlink => cases rest <;> cases followLast <;> rfl

section Entered

/-- The places from which a walk goes on downwards. What is there when it comes by is a
directory or nothing. -/
def enterAlong (m : Memory) (followLast : Bool) (jump : List Step → Key → List Key) :
    List Step → Key → List Key
  | [], _ => []
  | .up :: rest, k => enterAlong m followLast jump rest k.parent
  | .down n :: rest, k =>
    match m.sight (k ++ [n]) with
    | .way =>
      if rest.isEmpty then [] else (k ++ [n]) :: enterAlong m followLast jump rest (k ++ [n])
    | .file => []
    | .link target =>
      if followLast || !rest.isEmpty then
        jump (target.steps ++ rest) (if target.isAbsolute then [] else k)
      else []

def enterWithin (m : Memory) (followLast : Bool) : Nat → List Step → Key → List Key
  | 0 => enterAlong m followLast fun _ _ => []
  | links + 1 => enterAlong m followLast (enterWithin m followLast links)

/-- The places a path passes through before it reaches its end. -/
def entered (m : Memory) (p : Path) (followLast : Bool) : List Key :=
  enterWithin m followLast linkLimit p.steps []

theorem sight_of_mem_enterAlong {jump : List Step → Key → List Key}
    (hjump : ∀ steps k, j ∈ jump steps k → m.sight j = .way) {steps : List Step}
    (hj : j ∈ m.enterAlong followLast jump steps k) : m.sight j = .way := by
  induction steps generalizing k with
  | nil => simp [enterAlong] at hj
  | cons step rest ih =>
    cases step with
    | up => exact ih hj
    | down n =>
      rw [enterAlong] at hj
      cases hsight : m.sight (k ++ [n]) with
      | file => simp [hsight] at hj
      | link target =>
        simp only [hsight] at hj
        split at hj
        · exact hjump _ _ hj
        · simp at hj
      | way =>
        simp only [hsight] at hj
        split at hj
        · simp at hj
        · rcases List.mem_cons.1 hj with rfl | hlater
          · exact hsight
          · exact ih hlater

theorem sight_of_mem_entered (hj : j ∈ m.entered p followLast) : m.sight j = .way := by
  have hwithin : ∀ links steps k, j ∈ m.enterWithin followLast links steps k →
      m.sight j = .way := by
    intro links
    induction links with
    | zero => exact fun _ _ => sight_of_mem_enterAlong fun _ _ hj => by simp at hj
    | succ links ih => exact fun _ _ => sight_of_mem_enterAlong ih
  exact hwithin _ _ _ hj

end Entered

section Placed

/-- Two memories that look alike to a walk, except that at one place where nothing stood in
the way something may be now. -/
structure Placed (m : Memory) (k : Key) (m' : Memory) : Prop where
  other : ∀ j, j ≠ k → m'.sight j = m.sight j
  here : m.sight k = .way ∨ m'.sight k = m.sight k

theorem Placed.refl (m : Memory) (k : Key) : Placed m k m := ⟨fun _ _ => rfl, .inr rfl⟩

/-- Where two walks see different things is the one place, and the first one can go on. -/
theorem Placed.sight_cases (h : Placed m k m') (j : Key) :
    m'.sight j = m.sight j ∨ j = k ∧ m.sight k = .way := by
  by_cases hj : j = k
  · subst hj
    rcases h.here with hway | hsame
    · exact .inr ⟨rfl, hway⟩
    · exact .inl hsame
  · exact .inl (h.other j hj)

variable {jump jump' : List Step → Key → Except FileError Key}
  {places : List Step → Key → List Key} {steps : List Step}

/-- A walk that does not pass through the place ends where it ended. What is there now is not
followed: it is a file, or a link in the last position. -/
theorem Placed.advance_of_notMem (h : Placed m k m')
    (hnew : m'.sight k = .file ∨ followLast = false)
    (hjump : ∀ steps j, k ∉ places steps j → jump' steps j = jump steps j)
    (hk : k ∉ m.enterAlong followLast places steps j) :
    m'.advance followLast jump' steps j = m.advance followLast jump steps j := by
  induction steps generalizing j with
  | nil => rfl
  | cons step rest ih =>
    cases step with
    | up => exact ih hk
    | down n =>
      rw [enterAlong] at hk
      rw [advance_down, advance_down]
      rcases h.sight_cases (j ++ [n]) with hsame | ⟨hj, hway⟩
      · rw [hsame]
        cases hsight : m.sight (j ++ [n]) with
        | file => rfl
        | link target =>
          simp only [hsight] at hk ⊢
          split
          · next hfollow => exact hjump _ _ (by simpa [hfollow] using hk)
          · rfl
        | way =>
          simp only [hsight] at hk ⊢
          cases rest with
          | nil => rfl
          | cons step rest =>
            apply ih
            intro hlater
            simp [hlater] at hk
      · -- The walk is at the place, so it has to be at its end.
        rw [hj] at hk ⊢
        simp only [hway] at hk ⊢
        cases rest with
        | cons step rest => simp at hk
        | nil =>
          rcases hnew with hfile | hlast
          · simp [hfile, advance]
          · cases m'.sight k <;> simp [hlast, advance]

/-- A walk that passes through the place cannot go on if there is a file now. -/
theorem Placed.advance_of_mem (h : Placed m k m') (hfile : m'.sight k = .file)
    (hjump : ∀ steps j, k ∈ places steps j → jump' steps j = .error .baseNotDirectory)
    (hk : k ∈ m.enterAlong followLast places steps j) :
    m'.advance followLast jump' steps j = .error .baseNotDirectory := by
  induction steps generalizing j with
  | nil => simp [enterAlong] at hk
  | cons step rest ih =>
    cases step with
    | up => exact ih hk
    | down n =>
      rw [enterAlong] at hk
      rw [advance_down]
      rcases h.sight_cases (j ++ [n]) with hsame | ⟨hj, hway⟩
      · rw [hsame]
        cases hsight : m.sight (j ++ [n]) with
        | file => simp [hsight] at hk
        | link target =>
          simp only [hsight] at hk ⊢
          split at hk
          · next hfollow =>
            rw [if_pos hfollow]
            exact hjump _ _ hk
          · simp at hk
        | way =>
          simp only [hsight] at hk ⊢
          split at hk
          · simp at hk
          · rcases List.mem_cons.1 hk with rfl | hlater
            · rw [hfile, hsight] at hsame
              cases hsame
            · exact ih hlater
      · rw [hj] at hk ⊢
        simp only [hway] at hk
        cases rest with
        | nil => simp at hk
        | cons step rest => simp [hfile]

theorem Placed.resolve_of_notMem (h : Placed m k m')
    (hnew : m'.sight k = .file ∨ followLast = false) (hk : k ∉ m.entered p followLast) :
    m'.resolve p followLast = m.resolve p followLast := by
  have hwithin : ∀ links steps j, k ∉ m.enterWithin followLast links steps j →
      m'.resolveWithin followLast links steps j = m.resolveWithin followLast links steps j := by
    intro links
    induction links with
    | zero => exact fun _ _ => h.advance_of_notMem hnew fun _ _ _ => rfl
    | succ links ih => exact fun _ _ => h.advance_of_notMem hnew ih
  exact hwithin _ _ _ hk

/-- A path is resolved to where it led before a file was placed, or it is stopped by that very
file. -/
theorem Placed.resolve_file (h : Placed m k m') (hfile : m'.sight k = .file) (p : Path)
    (followLast : Bool) : m'.resolve p followLast =
      if k ∈ m.entered p followLast then .error .baseNotDirectory
      else m.resolve p followLast := by
  split
  · next hk =>
    have hwithin : ∀ links steps j, k ∈ m.enterWithin followLast links steps j →
        m'.resolveWithin followLast links steps j = .error .baseNotDirectory := by
      intro links
      induction links with
      | zero => exact fun _ _ => h.advance_of_mem hfile fun _ _ hj => by simp at hj
      | succ links ih => exact fun _ _ => h.advance_of_mem hfile ih
    exact hwithin _ _ _ hk
  · next hk => exact h.resolve_of_notMem (.inl hfile) hk

end Placed

section Descending

/-- Neither the path nor the target of a link leads up. -/
def Descends (m : Memory) (p : Path) : Prop :=
  Step.up ∉ p.steps ∧ ∀ k target, m.sight k = .link target → Step.up ∉ target.steps

theorem WellFormed.free_concat (h : m.WellFormed) (hk : m.nodeAt k = none) (n : Name) :
    m.nodeAt (k ++ [n]) = none := h.free_of_prefix hk (List.prefix_append k [n])

variable {jump : List Step → Key → Except FileError Key} {places : List Step → Key → List Key}
  {steps : List Step}

/-- Moves that do not lead up go down and down from a free place. -/
theorem WellFormed.prefix_advance (h : m.WellFormed) (hk : m.nodeAt k = none)
    (hup : Step.up ∉ steps) (hr : m.advance followLast jump steps k = .ok r) :
    k <+: r ∧ (steps ≠ [] → k ≠ r) := by
  induction steps generalizing k with
  | nil =>
    cases hr
    exact ⟨List.prefix_rfl, fun hne => absurd rfl hne⟩
  | cons step rest ih =>
    cases step with
    | up => simp at hup
    | down n =>
      have hfree := h.free_concat hk n
      rw [advance_down, sight_of_free hfree] at hr
      have hbelow := (ih hfree (fun hmem => hup (List.mem_cons_of_mem _ hmem)) hr).1
      refine ⟨(List.prefix_append k [n]).trans hbelow, fun _ heq => ?_⟩
      have hlength := hbelow.length_le
      rw [heq, List.length_append, List.length_singleton] at hlength
      omega

/-- A free place that a descending walk passes through is above its end. -/
theorem WellFormed.enterAlong_above (h : m.WellFormed)
    (hlinks : ∀ k target, m.sight k = .link target → Step.up ∉ target.steps)
    (hjump : ∀ steps k, Step.up ∉ steps → jump steps k = .ok r →
      ∀ e ∈ places steps k, m.nodeAt e = none → e ≠ r)
    (hup : Step.up ∉ steps) (hr : m.advance followLast jump steps k = .ok r) :
    ∀ e ∈ m.enterAlong followLast places steps k, m.nodeAt e = none → e ≠ r := by
  induction steps generalizing k with
  | nil => simp [enterAlong]
  | cons step rest ih =>
    cases step with
    | up => simp at hup
    | down n =>
      have hrest : Step.up ∉ rest := fun hmem => hup (List.mem_cons_of_mem _ hmem)
      intro e he hfree
      rw [advance_down] at hr
      rw [enterAlong] at he
      cases hsight : m.sight (k ++ [n]) with
      | file => simp [hsight] at he
      | link target =>
        simp only [hsight] at he hr
        split at he
        · next hfollow =>
          rw [if_pos hfollow] at hr
          have hboth : Step.up ∉ target.steps ++ rest := by
            simp [hlinks _ _ hsight, hrest]
          exact hjump _ _ hboth hr e he hfree
        · simp at he
      | way =>
        simp only [hsight] at he hr
        split at he
        · simp at he
        · next hne =>
          rcases List.mem_cons.1 he with rfl | hlater
          · exact (h.prefix_advance hfree hrest hr).2 (by simpa using hne)
          · exact ih hrest hr e hlater hfree

/-- A path that nowhere leads up does not pass through a free place that it ends at. -/
theorem Descends.notMem_entered (hp : m.Descends p) (h : m.WellFormed)
    (hk : m.resolve p followLast = .ok k) (hfree : m.nodeAt k = none) :
    k ∉ m.entered p followLast := by
  have hwithin : ∀ links steps j, Step.up ∉ steps →
      m.resolveWithin followLast links steps j = .ok k →
      ∀ e ∈ m.enterWithin followLast links steps j, m.nodeAt e = none → e ≠ k := by
    intro links
    induction links with
    | zero =>
      intro steps j hup hr
      exact h.enterAlong_above hp.2 (by simp) hup hr
    | succ links ih =>
      intro steps j hup hr
      exact h.enterAlong_above hp.2 ih hup hr
  exact fun hmem => hwithin _ _ _ hp.1 hk k hmem hfree rfl

end Descending

section Storing

/-- A new node is seen at its place, and elsewhere everything looks the same. -/
theorem createNode_placed (h : m.WellFormed) (hk : m.resolve p followLast = .ok k)
    (hfree : m.nodeAt k = none) (kind : NodeKind) (content : Content) :
    ∃ c m', createNode k kind content m = (.ok c, m') ∧ m'.WellFormed ∧ Placed m k m' ∧
      m'.nodeAt k = some ⟨kind, c⟩ ∧ m'.content c = content := by
  obtain ⟨m₁, hrun, hdirs, hextends, -, hwf⟩ :=
    createNode_eq h (passable_of_resolve h hk) hfree kind content
  have hgrows := grows_ensureDirs h.slots hdirs
  have hnew := hextends.wellFormed.nodeAt_addNode k kind content
  refine ⟨_, _, hrun, hwf, ⟨?_, .inl (sight_of_free hfree)⟩, ?_, content_addNode m₁ k kind content⟩
  · intro j hj
    have hnode : (m₁.addNode k kind content).nodeAt j = m₁.nodeAt j := by rw [hnew, if_neg hj]
    cases hold : m.nodeAt j with
    | some n =>
      have hcontent := (hgrows.addNode k kind content).content_eq (h.cell_lt_of_nodeAt hold)
      have hkept := hnode.trans (hextends.kept hold)
      obtain ⟨nodeKind, c⟩ := n
      cases nodeKind <;> simp [sight, hold, hkept, hcontent]
    | none =>
      rw [sight_of_free hold]
      cases hadded : m₁.nodeAt j with
      | none => exact sight_of_free (hnode.trans hadded)
      | some n =>
        rcases hextends.added hadded with hbefore | hdir
        · rw [hold] at hbefore
          cases hbefore
        · exact sight_of_dir (hnode.trans hadded) hdir
  · rw [hnew, if_pos rfl]

/-- What an open request has done that may create a file: the path leads to the file, and
otherwise the memory looks the same. -/
def Ready (m : Memory) (p : Path) (c : CellId) (m₁ : Memory) : Prop :=
  ∃ k, m.resolve p true = .ok k ∧ (m.nodeAt k = none ∨ m.sight k = .file) ∧ m₁.WellFormed ∧
    Placed m k m₁ ∧ m₁.nodeAt k = some ⟨.file, c⟩

theorem ready_of_fileAt (h : m.WellFormed) {o : OpenOptions} (hfile : m.fileAt p o = .ok c) :
    Ready m p c m := by
  obtain ⟨k, hk, hnode⟩ := nodeAt_of_fileAt_eq_ok hfile
  exact ⟨k, hk, .inr (sight_of_file hnode), h, Placed.refl m k, hnode⟩

theorem triple_fileFor_ready (h : m.WellFormed) (p : Path) (o : OpenOptions) :
    Triple (· = m) (fileFor p o) (Ready m p) fun _ m' => m' = m := by
  refine triple_fileFor_of h (fun c hfile => ready_of_fileAt h hfile) fun k hk hfree => ?_
  obtain ⟨c, m', hrun, hwf, hplaced, hnode, -⟩ :=
    createNode_placed h hk hfree .file ⟨[], o.mode &&& permissionMask⟩
  rintro s rfl
  rw [hrun]
  exact ⟨k, hk, .inl hfree, hwf, hplaced, hnode⟩

/-- The file is dropped afterwards. -/
theorem triple_thenDrop {σ H ε α : Type} {f : OpenFile H} {x : Action ε (OpenFile H × σ) α} {s : σ}
    {Q : α → σ → Prop} {F : ε → σ → Prop}
    (hx : Triple (· = (f, s)) x (fun a t => Q a t.2) fun e t => F e t.2) :
    Triple (· = s) (f.thenDrop x) Q F := by
  rintro _ rfl
  have hrun := hx _ rfl
  unfold OpenFile.thenDrop
  cases hxs : x (f, _) with
  | mk r t =>
    rw [hxs] at hrun
    cases r <;> exact hrun

/-- An open file makes the change that it is asked for. -/
theorem triple_perform {ε α : Type} (op : FileOperation ε α) (f : OpenFile Handle) (m : Memory) :
    Triple (· = (f, m)) (OpenFile.perform op)
      (fun _ s => s.2 = (op.edit f.handle).elim m (m.edited f.handle.cell)) fun _ _ => True := by
  rintro _ rfl
  have hrun := Handle.triple_onDevice (h := f.handle) (m := m) op f.name _ rfl
  rw [OpenFile.perform_apply]
  cases hdone : op.onDevice f.name (f.handle, m) with
  | mk r s =>
    rw [hdone] at hrun
    cases r with
    | error e => trivial
    | ok a => exact hrun

/-- What changes no data leaves the memory alone. -/
theorem triple_perform_unedited {ε α : Type} {op : FileOperation ε α}
    (hop : ∀ h, op.edit h = none) (m : Memory) :
    Triple (fun s : OpenFile Handle × Memory => s.2 = m) (OpenFile.perform op)
      (fun _ s => s.2 = m) fun _ _ => True := by
  apply Triple.of_fixed
  rintro ⟨f, _⟩ rfl
  refine (triple_perform op f _).weaken (fun _ hs => hs) ?_ fun _ _ hs => hs
  intro _ s hs
  rw [hs, hop]
  rfl

/-- Data laid over nothing from the start on is the data. -/
theorem overwrite_nil (data : Bytes) : Bytes.overwrite 0 data [] = data := by
  simp [Bytes.overwrite]

/-- In memory one call writes all of the data. -/
theorem yields_write (data : Bytes) :
    Yields (OpenFile.perform (σ := Memory) (.write data)) (· = data.length) := by
  have hwrite : Yields (Handle.write data) (· = data.length) :=
    .after fun _ => .after fun _ => .after fun _ => .after fun _ => .pure rfl
  exact Yields.within (Yields.mapError hwrite)

/-- Everything that is written goes into the cell of the file. -/
theorem triple_writeAll (f : OpenFile Handle) (hstart : f.handle.cursor = 0)
    (hmode : f.handle.append = false) (hc : f.handle.cell < m.cells.length)
    (hempty : (m.content f.handle.cell).data = []) (data : Bytes) :
    Triple (· = (f, m)) (OpenFile.writeAll data)
      (fun _ s => ∃ change, s.2 = m.modifyCell f.handle.cell change ∧
        (s.2.content f.handle.cell).data = data) fun _ _ => True := by
  unfold OpenFile.writeAll
  cases hlength : data.length with
  | zero =>
    apply Triple.pure
    rintro _ rfl
    refine ⟨id, (modifyCell_id m _).symm, ?_⟩
    rw [hempty, List.length_eq_zero_iff.1 hlength]
  | succ calls =>
    -- One call writes everything, so that nothing is left for the next one.
    have hsome : data ≠ [] := List.ne_nil_of_length_eq_add_one hlength
    rw [OpenFile.writeWithin, if_neg (by simpa using hsome)]
    have hwrite := (triple_perform (.write data) f m).yielding (yields_write data)
    refine Triple.bind hwrite fun count => Triple.of_fixed ?_
    rintro s ⟨hs, rfl⟩
    rw [hlength, if_neg (Nat.succ_ne_zero calls), ← hlength, List.drop_length,
      OpenFile.writeWithin_nil]
    have hedited : s.2 = m.edited f.handle.cell (.put (some 0) data) := by
      rw [hs, FileOperation.edit, hmode, hstart]
      rfl
    apply Triple.pure
    rintro _ rfl
    rw [hedited]
    refine ⟨_, rfl, ?_⟩
    rw [content_edited hc, Edit.apply, hempty]
    exact overwrite_nil data

/-- A change in a cell after another one. -/
theorem modifyCell_modifyCell (m : Memory) (c : CellId) (f g : Content → Content) :
    (m.modifyCell c f).modifyCell c g = m.modifyCell c (g ∘ f) := by
  simp [modifyCell, List.modify_modify_eq]

/-- Replacing the content of a file finds or creates the file and leaves the data in it. -/
theorem triple_writeFile (h : m.WellFormed) (p : Path) (data : Bytes) :
    Triple (· = m) (fileSystem.writeFile p data)
      (fun _ m' => ∃ c m₁ change, Ready m p c m₁ ∧ m' = m₁.modifyCell c change ∧
        (m'.content c).data = data) fun _ _ => True := by
  have hopen : Triple (· = m) (openFile p .replacing)
      (fun f m' => ∃ c m₁, Ready m p c m₁ ∧ m' = m₁.emptied c .replacing ∧
        f = { handle := Handle.ofCell m' c .replacing, path := p }) fun _ m' => m' = m :=
    triple_openFile_of (triple_fileFor_ready h p .replacing)
      (fun _ hc => ready_of_fileAt h hc) fun c m₁ hready => ⟨c, m₁, hready, rfl, rfl⟩
  unfold BareFileSystem.writeFile
  refine Triple.bind (hopen.onError fun _ _ _ => trivial) fun f => Triple.of_fixed ?_
  rintro _ ⟨c, m₁, hready, rfl, rfl⟩
  obtain ⟨k, hk, hbefore, hwf, hplaced, hnode⟩ := hready
  have hlt := hwf.cell_lt_of_nodeAt hnode
  have hempty : ((m₁.emptied c .replacing).content c).data = [] := by
    rw [data_emptied hlt, if_pos ⟨rfl, rfl⟩]
  have hcell : c < (m₁.emptied c .replacing).cells.length :=
    (hwf.emptied c .replacing).cell_lt_of_nodeAt ((nodeAt_emptied m₁ c _ k).trans hnode)
  apply triple_thenDrop
  refine Triple.bind (Triple.mapError (triple_writeAll _ rfl rfl hcell hempty data)) fun _ => ?_
  apply Triple.of_fixed
  rintro ⟨f, m'⟩ ⟨change, hchange, hdata⟩
  have hdone : m' = m₁.modifyCell c (change ∘ fun cell => { cell with data := [] }) :=
    hchange.trans (modifyCell_modifyCell m₁ c _ change)
  have hflush : Triple (· = (f, m')) ((OpenFile.perform .flush).mapError FileError.ofIo)
      (fun _ s => s.2 = m') fun _ _ => True :=
    Triple.mapError ((triple_perform_unedited (fun _ => rfl) m').weaken
      (fun _ hs => congrArg Prod.snd hs) (fun _ _ hs => hs) fun _ _ hs => hs)
  have hclose : ∀ h, FileOperation.close.edit h = none := fun _ => rfl
  refine Triple.bind hflush fun _ => ?_
  refine (triple_perform_unedited hclose m').weaken (fun _ hs => hs) ?_ fun _ _ hs => hs
  rintro _ s rfl
  exact ⟨c, m₁, _, ⟨k, hk, hbefore, hwf, hplaced, hnode⟩, hdone, hdata⟩

/-- A link is found at the place the path leads to, and otherwise the memory looks the same. -/
theorem triple_symlink (h : m.WellFormed) (target link : Path) :
    Triple (· = m) (symlink target link)
      (fun _ m' => ∃ k c, m.resolve link false = .ok k ∧ m.nodeAt k = none ∧ m'.WellFormed ∧
        Placed m k m' ∧ m'.nodeAt k = some ⟨.symlink, c⟩ ∧ (m'.content c).data = target.bytes)
      fun _ m' => m' = m := by
  unfold symlink
  apply Triple.query_bind
  · intro k hk
    refine Triple.look_bind (Triple.guarded_fixed fun hexists => ?_)
    have hfree := h.free_of_not_exists hexists
    obtain ⟨c, m', hrun, hwf, hplaced, hnode, hcontent⟩ :=
      createNode_placed h hk hfree .symlink ⟨target.bytes, 0o777⟩
    refine Triple.bind_of_run hrun (Triple.pure ?_)
    rintro _ rfl
    exact ⟨k, c, hk, hfree, hwf, hplaced, hnode, congrArg Content.data hcontent⟩
  · intro e _
    rfl

/-- Data does not change what a walk sees. -/
theorem sight_modifyCell (hc : m.NoLink c) (f : Content → Content) (k : Key) :
    (m.modifyCell c f).sight k = m.sight k := by
  have hsame : (m.modifyCell c f).nodeAt k = m.nodeAt k := rfl
  rw [sight, sight, hsame]
  cases hnode : m.nodeAt k with
  | none => rfl
  | some n =>
    obtain ⟨kind, c'⟩ := n
    cases kind with
    | file => rfl
    | directory => rfl
    | symlink =>
      have hne : c' ≠ c := by
        rintro rfl
        exact hc k hnode
      simp only [content_modifyCell_of_ne hne]

/-- What has been written is read, unless the new file stands in its own way. -/
theorem contents_of_ready (h : m.WellFormed) {change : Content → Content} {data : Bytes}
    (hready : Ready m p c m₁) (hm' : m' = m₁.modifyCell c change)
    (hdata : (m'.content c).data = data) :
    (∃ k, m.resolve p true = .ok k ∧ (fileSystem.contents p m').1 =
      if k ∈ m.entered p true then .error .baseNotDirectory else .ok data) ∧
    (m.Descends p → (fileSystem.contents p m').1 = .ok data) := by
  obtain ⟨k, hk, hbefore, hwf, hplaced, hnode⟩ := hready
  have hnolink : m₁.NoLink c := by
    intro j hj
    have heq := hwf.key_unique hj hnode rfl
    rw [heq, hnode] at hj
    cases hj
  have hsight : ∀ j, m'.sight j = m₁.sight j := fun j => hm' ▸ sight_modifyCell hnolink change j
  have hplaced' : Placed m k m' := by
    refine ⟨fun j hj => (hsight j).trans (hplaced.other j hj), ?_⟩
    rw [hsight]
    exact hplaced.here
  have hnode' : m'.nodeAt k = some ⟨.file, c⟩ := hm' ▸ hnode
  have hanswer : (fileSystem.contents p m').1 =
      if k ∈ m.entered p true then .error .baseNotDirectory else .ok data := by
    have hcontents : (fileSystem.contents p m').1 = _ := congrArg Prod.fst (contents_apply m' p)
    rw [hcontents, hplaced'.resolve_file (sight_of_file hnode'), hk]
    split
    · rfl
    · show (m'.fileStored k).map _ = _
      rw [fileStored_eq_ok_iff.2 hnode', ← hdata]
      rfl
  refine ⟨⟨k, hk, hanswer⟩, fun hp => ?_⟩
  rw [hanswer, if_neg]
  intro hmem
  rcases hbefore with hfree | hold
  · exact hp.notMem_entered h hk hfree hmem
  · rw [sight_of_mem_entered hmem] at hold
    cases hold

theorem readlink_of_nodeAt (hk : m.resolve p false = .ok k)
    (hnode : m.nodeAt k = some ⟨.symlink, c⟩) : m.readlink p = .ok ⟨(m.content c).data⟩ := by
  simp only [readlink, hk, bind, Except.bind, hnode]
  rfl

end Storing

/-- After any calls, what is written to a file is read right after under the same path, and so
is the target of a link that has been created. The exception is a path that passes through the
place of its own entry and leads up again: a new file then stands in its way. No path does that
if neither it nor the target of a link leads up. -/
theorem run_read_back (calls : List Call) :
    let m := (Session.run calls).memory
    (∀ p data m', fileSystem.writeFile p data m = (.ok (), m') →
      (∃ k, m.resolve p true = .ok k ∧ (fileSystem.contents p m').1 =
        if k ∈ m.entered p true then .error .baseNotDirectory else .ok data) ∧
      (m.Descends p → (fileSystem.contents p m').1 = .ok data)) ∧
    ∀ target link m', fileSystem.symlink target link m = (.ok (), m') →
      (∃ k, m.resolve link false = .ok k ∧
        (k ∉ m.entered link false → fileSystem.readlink link m' = (.ok target, m'))) ∧
      (m.Descends link → fileSystem.readlink link m' = (.ok target, m')) := by
  intro m
  have h : m.WellFormed := Session.wellFormed_run calls
  refine ⟨?_, ?_⟩
  · intro p data m' hrun
    obtain ⟨c, m₁, change, hready, hm', hdata⟩ := (triple_writeFile h p data).of_ok rfl hrun
    exact contents_of_ready h hready hm' hdata
  · intro target link m' hrun
    obtain ⟨k, c, hk, hfree, hwf, hplaced, hnode, hdata⟩ :=
      (triple_symlink h target link).of_ok rfl hrun
    have hread : k ∉ m.entered link false → fileSystem.readlink link m' = (.ok target, m') := by
      intro hmem
      have hk' := (hplaced.resolve_of_notMem (.inr rfl) hmem).trans hk
      have hfound := readlink_of_nodeAt hk' hnode
      rw [hdata] at hfound
      exact congrArg (·, m') hfound
    exact ⟨⟨k, hk, hread⟩, fun hp => hread (hp.notMem_entered h hk hfree)⟩

/-- Through a dangling link whose target leads up from a directory that is there. -/
theorem run_read_back_dangling_link :
    let m := (Session.run
      [.createDirAll ⟨[100]⟩ 0o755, .symlink ⟨[100, 47, 46, 46, 47, 101]⟩ ⟨[108]⟩]).memory
    (fileSystem.contents ⟨[108]⟩ (fileSystem.writeFile ⟨[108]⟩ [1, 2] m).2).1 = .ok [1, 2] := by
  intro m
  have hrun : fileSystem.writeFile ⟨[108]⟩ [1, 2] m =
      (.ok (), (fileSystem.writeFile ⟨[108]⟩ [1, 2] m).2) := by rfl
  obtain ⟨⟨k, hk, hread⟩, -⟩ := (run_read_back _).1 ⟨[108]⟩ [1, 2] _ hrun
  have hkey : m.resolve ⟨[108]⟩ true = .ok [⟨[101], rfl⟩] := by rfl
  rw [hkey] at hk
  rw [hread, ← Except.ok.inj hk]
  exact if_neg (by decide)

/-- A file that is created under `x/y/..` is not found there again, and neither is a link under
`l/../l` that leads elsewhere. -/
theorem read_back_lost :
    let p : Path := ⟨[120, 47, 121, 47, 46, 46]⟩
    let link : Path := ⟨[108, 47, 46, 46, 47, 108]⟩
    let target : Path := ⟨[97, 47, 98]⟩
    (∃ m, fileSystem.writeFile p [97] .fresh = (.ok (), m) ∧
      (fileSystem.contents p m).1 = .error .baseNotDirectory) ∧
    ∃ m, fileSystem.symlink target link .fresh = (.ok (), m) ∧
      (fileSystem.readlink link m).1 = .error .entityNotFound :=
  ⟨⟨_, rfl, rfl⟩, ⟨_, rfl, rfl⟩⟩

end ConfinedFs.Memory
