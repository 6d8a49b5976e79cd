import ConfinedFs.Proofs.Memory.Removing

/-!
Temporary files. The names are tried one after the other, and the first one that is not taken
decides. A name is taken if there is anything at its place, be it a link that leads nowhere.
-/

namespace ConfinedFs

open ConfinedFs.Path

/-- The numbers below a bound, cut at one of them. -/
theorem range_eq_append_cons {i n : Nat} (h : i < n) :
    ∃ rest, List.range n = List.range i ++ i :: rest := by
  obtain ⟨r, rfl⟩ : ∃ r, n = i + (r + 1) := ⟨n - i - 1, by omega⟩
  refine ⟨((List.range r).map Nat.succ).map (i + ·), ?_⟩
  rw [List.range_add, List.range_succ_eq_map, List.map_cons, Nat.add_zero]

/-- Either all numbers below a bound have a property or there is a first one that does not. -/
theorem all_or_first {P : Nat → Prop} (n : Nat) :
    (∀ i < n, P i) ∨ ∃ i < n, (∀ j < i, P j) ∧ ¬ P i := by
  induction n with
  | zero => exact .inl nofun
  | succ n ih =>
    rcases ih with hall | ⟨i, hi, hbefore, hnot⟩
    · by_cases hn : P n
      · exact .inl fun i hi => (Nat.lt_succ_iff_lt_or_eq.1 hi).elim (hall i) fun heq => heq ▸ hn
      · exact .inr ⟨n, Nat.lt_succ_self n, hall, hn⟩
    · exact .inr ⟨i, Nat.lt_succ_of_lt hi, hbefore, hnot⟩

namespace BareFileSystem

variable {σ H : Type} {fs : BareFileSystem σ H} {candidate : Nat → Path} {s : σ} {i : Nat}
  {l tried rest : List Nat}

/-- There is something at the path already, and asking for a new file there changes nothing. -/
def Taken (fs : BareFileSystem σ H) (s : σ) (p : Path) : Prop :=
  fs.openFile p .temporary s = (.error .alreadyExists, s)

theorem openUnused_cons_of_taken (h : fs.Taken s (candidate i)) :
    fs.openUnused candidate (i :: l) s = fs.openUnused candidate l s := by
  rw [openUnused, Action.bind_apply_of_ok (Action.outcome_of_run h)]

/-- Names that are taken are passed over. -/
theorem openUnused_append_of_taken (h : ∀ i ∈ tried, fs.Taken s (candidate i)) :
    fs.openUnused candidate (tried ++ rest) s = fs.openUnused candidate rest s := by
  induction tried with
  | nil => rfl
  | cons i tried ih =>
    rw [List.cons_append, openUnused_cons_of_taken (h i (List.mem_cons_self ..))]
    exact ih fun i' hi' => h i' (List.mem_cons_of_mem _ hi')

/-- A request that is not refused because of what exists there is the last one. -/
theorem openUnused_cons_of_not_exists
    (h : (fs.openFile (candidate i) .temporary s).1 ≠ .error .alreadyExists) :
    fs.openUnused candidate (i :: l) s = fs.openFile (candidate i) .temporary s := by
  cases hrun : fs.openFile (candidate i) .temporary s with
  | mk r s' =>
    rw [openUnused, Action.bind_apply_of_ok (Action.outcome_of_run hrun)]
    cases r with
    | ok f => rfl
    | error e =>
      cases e with
      | alreadyExists => exact absurd (congrArg Prod.fst hrun) h
      | _ => rfl

theorem unusedFile_of_first {draws : Draws} {dir : Path} {stem : Bytes} (hi : i < temporaryAttempts)
    (hbefore : ∀ j < i, fs.Taken s (tempCandidate draws dir stem j))
    (h : (fs.openFile (tempCandidate draws dir stem i) .temporary s).1 ≠ .error .alreadyExists) :
    fs.unusedFile draws dir stem s = fs.openFile (tempCandidate draws dir stem i) .temporary s := by
  obtain ⟨rest, hrange⟩ := range_eq_append_cons hi
  rw [unusedFile, hrange, openUnused_append_of_taken, openUnused_cons_of_not_exists h]
  exact fun j hj => hbefore j (List.mem_range.1 hj)

theorem unusedFile_of_taken {draws : Draws} {dir : Path} {stem : Bytes}
    (h : ∀ i < temporaryAttempts, fs.Taken s (tempCandidate draws dir stem i)) :
    fs.unusedFile draws dir stem s = (.error .tempFileExhausted, s) := by
  rw [unusedFile, ← List.append_nil (List.range _), openUnused_append_of_taken]
  · rfl
  · exact fun i hi => h i (List.mem_range.1 hi)

end BareFileSystem

namespace Memory

variable {m m' : Memory} {j k : Key} {p : Path} {followLast : Bool} {e : FileError} {n : Node}
  {o : OpenOptions} {steps : List Step}

section Opening

/-- A walk that goes astray has met a file on its way or too many links. -/
def Astray : Except FileError Key → Prop
  | .ok _ => True
  | .error e => e = .baseNotDirectory ∨ e = .tooManySymlinks

theorem astray_advance {jump : List Step → Key → Except FileError Key}
    (hjump : ∀ steps k, Astray (jump steps k)) (steps : List Step) (k : Key) :
    Astray (m.advance followLast jump steps k) := by
  induction steps generalizing k with
  | nil => trivial
  | cons step rest ih =>
    cases step with
    | up => exact ih k.parent
    | down n =>
      rw [advance_down]
      cases m.sight (k ++ [n]) with
      | way => exact ih (k ++ [n])
      | file => cases rest <;> simp [Astray]
      | link target =>
        dsimp only
        split
        · exact hjump _ _
        · trivial

theorem astray_resolve (m : Memory) (p : Path) (followLast : Bool) :
    Astray (m.resolve p followLast) := by
  have hwithin : ∀ links steps k, Astray (m.resolveWithin followLast links steps k) := by
    intro links
    induction links with
    | zero => exact astray_advance fun _ _ => .inr rfl
    | succ links ih => exact astray_advance ih
  exact hwithin _ _ _

theorem resolve_eq_error (he : m.resolve p followLast = .error e) :
    e = .baseNotDirectory ∨ e = .tooManySymlinks := by
  have hastray := astray_resolve m p followLast
  rwa [he] at hastray

/-- What comes of a request for a new file: the path leads astray, or there is something where it
leads, or the file is made there. -/
inductive MakesNew (m : Memory) (p : Path) (o : OpenOptions) :
    Except FileError (OpenFile Handle) × Memory → Prop
  | astray {e : FileError} (hlost : m.resolve p false = .error e) : MakesNew m p o (.error e, m)
  | claimed {k : Key} {n : Node} (hk : m.resolve p false = .ok k) (hnode : m.nodeAt k = some n) :
      MakesNew m p o (.error .alreadyExists, m)
  | made {k : Key} {f : OpenFile Handle} {m' : Memory} (hk : m.resolve p false = .ok k)
      (hfree : m.nodeAt k = none) (hopened : Opened m p o f m' k) : MakesNew m p o (.ok f, m')

theorem makesNew_openFile (h : m.WellFormed) (p : Path) (hnew : o.createNew = true) :
    MakesNew m p o (openFile p o m) := by
  cases hlast : m.resolve p false with
  | error e =>
    rw [openFile_of_refused h (.astray hnew hlast)]
    exact .astray hlast
  | ok k =>
    cases hnode : m.nodeAt k with
    | some n =>
      rw [openFile_of_refused h (.claimed hnew hlast hnode)]
      exact .claimed hlast hnode
    | none =>
      have hend : m.NoLinkAt k := fun c hlink => by cases hnode.symm.trans hlink
      have hk := resolve_followed hlast hend
      have hcreates : o.creates = true := by rw [OpenOptions.creates, hnew, Bool.or_true]
      obtain ⟨f, m', k', hrun, hopened⟩ := openFile_of_openable h
        ⟨fun _ => ⟨k, hlast, hnode⟩, k, hk, .inr ⟨hnode, hcreates⟩⟩
      obtain rfl : k = k' := Except.ok.inj (hk.symm.trans hopened.place)
      rw [hrun]
      exact .made hlast hnode hopened

/-- A name is taken if there is an entry, which may be a link to nowhere. -/
theorem taken_iff (h : m.WellFormed) :
    bareFileSystem.Taken m p ↔ ∃ d, fileSystem.lstat p m = (.ok d, m) := by
  have hmakes := makesNew_openFile h p (o := .temporary) rfl
  rw [BareFileSystem.Taken, show bareFileSystem.openFile = openFile from rfl]
  generalize openFile p .temporary m = run at hmakes ⊢
  cases hmakes with
  | astray hlost =>
    have hlstat : fileSystem.lstat p m = (.error _, m) := lstat_of_error hlost
    rw [hlstat]
    refine ⟨fun heq => ?_, nofun⟩
    cases heq
    rcases resolve_eq_error hlost with he | he <;> cases he
  | claimed hk hnode =>
    obtain ⟨d, hlstat, -⟩ := lstat_of_stored hk hnode
    exact ⟨fun _ => ⟨d, hlstat⟩, fun _ => rfl⟩
  | made hk hfree _ =>
    rw [lstat_of_free h hk hfree]
    exact ⟨nofun, nofun⟩

theorem taken_of_exists (h : m.WellFormed)
    (heq : (bareFileSystem.openFile p .temporary m).1 = .error .alreadyExists) :
    bareFileSystem.Taken m p := by
  have hrun : openFile p .temporary m = (.error .alreadyExists, _) := Prod.ext heq rfl
  exact hrun.trans (congrArg _ ((atomic_openFile p .temporary).eq_of_error h hrun))

end Opening

section TempFile

variable {draws : Draws} {dir : Path} {stem : Bytes} {f : OpenFile Handle}

open ConfinedFs.BareFileSystem (temporaryAttempts temporaryName tempCandidate)

/-- What comes of making a temporary file: all names are taken, or the first one that is not is
tried. -/
inductive TriesNames (m : Memory) (candidate : Nat → Path) :
    Except FileError (OpenFile Handle) × Memory → Prop
  | exhausted (htaken : ∀ i < temporaryAttempts, bareFileSystem.Taken m (candidate i)) :
      TriesNames m candidate (.error .tempFileExhausted, m)
  | first {i : Nat} (hi : i < temporaryAttempts)
      (hbefore : ∀ j < i, bareFileSystem.Taken m (candidate j))
      (hnot : ¬ bareFileSystem.Taken m (candidate i)) :
      TriesNames m candidate (openFile (candidate i) .temporary m)

theorem tempFile_eq (draws : Draws) (dir : Path) (stem : Bytes) :
    fileSystem.tempFile draws dir stem = bareFileSystem.unusedFile draws dir stem := by
  simp only [fileSystem]

theorem triesNames_tempFile (h : m.WellFormed) (draws : Draws) (dir : Path) (stem : Bytes) :
    TriesNames m (tempCandidate draws dir stem) (fileSystem.tempFile draws dir stem m) := by
  rw [tempFile_eq]
  rcases all_or_first (P := fun i => bareFileSystem.Taken m (tempCandidate draws dir stem i))
    temporaryAttempts with htaken | ⟨i, hi, hbefore, hnot⟩
  · rw [BareFileSystem.unusedFile_of_taken htaken]
    exact .exhausted htaken
  · rw [BareFileSystem.unusedFile_of_first hi hbefore (mt (taken_of_exists h) hnot)]
    exact .first hi hbefore hnot

/-- An empty file that only its owner may use has been made where the path leads, and there was
nothing there. -/
structure MadeFile (m : Memory) (p : Path) (f : OpenFile Handle) (m' : Memory) (k : Key) :
    Prop where
  handed : f = ⟨Handle.ofCell m' f.handle.cell .temporary, p, []⟩
  last : m.resolve p false = .ok k
  place : m.resolve p true = .ok k
  free : m.nodeAt k = none
  planted : Planted m m' k .file ⟨[], 0o600⟩
  file : m'.nodeAt k = some ⟨.file, f.handle.cell⟩

theorem MadeFile.name (h : MadeFile m p f m' k) : f.name = p := by
  rw [h.handed]
  rfl

theorem tempFile_makes (h : m.WellFormed)
    (hrun : fileSystem.tempFile draws dir stem m = (.ok f, m')) :
    ∃ i < temporaryAttempts, (∀ j < i, bareFileSystem.Taken m (tempCandidate draws dir stem j)) ∧
      ∃ k, MadeFile m (tempCandidate draws dir stem i) f m' k := by
  have htries := triesNames_tempFile h draws dir stem
  generalize fileSystem.tempFile draws dir stem m = run at hrun htries
  cases htries with
  | exhausted => cases hrun
  | @first i hi hbefore _ =>
    have hmakes := makesNew_openFile h (tempCandidate draws dir stem i) (o := .temporary) rfl
    have hhanded := eq_of_openFile hrun
    rw [hrun] at hmakes
    cases hmakes with
    | @made k _ _ hk hfree hopened =>
      exact ⟨i, hi, hbefore, k, hhanded, hk, hopened.place, hfree, hopened.created hfree,
        hopened.file⟩

theorem tempFile_failed (h : m.WellFormed)
    (hrun : fileSystem.tempFile draws dir stem m = (.error e, m')) : m' = m := by
  have htries := triesNames_tempFile h draws dir stem
  generalize fileSystem.tempFile draws dir stem m = run at hrun htries
  cases htries with
  | exhausted =>
    cases hrun
    rfl
  | first => exact (atomic_openFile _ _).eq_of_error h hrun

theorem tempFile_exhausted_iff (h : m.WellFormed) :
    (∃ m', fileSystem.tempFile draws dir stem m = (.error .tempFileExhausted, m')) ↔
      ∀ i < temporaryAttempts, bareFileSystem.Taken m (tempCandidate draws dir stem i) := by
  have htries := triesNames_tempFile h draws dir stem
  generalize fileSystem.tempFile draws dir stem m = run at htries
  cases htries with
  | exhausted htaken => exact ⟨fun _ => htaken, fun _ => ⟨m, rfl⟩⟩
  | @first i hi _ hnot =>
    refine ⟨?_, fun htaken => absurd (htaken i hi) hnot⟩
    rintro ⟨m', hrun⟩
    have hmakes := makesNew_openFile h (tempCandidate draws dir stem i) (o := .temporary) rfl
    rw [hrun] at hmakes
    cases hmakes with
    | astray hlost => rcases resolve_eq_error hlost with he | he <;> cases he

/-- The first name is not taken. -/
theorem tempFile_of_first
    (hrun : openFile (tempCandidate draws dir stem 0) .temporary m = (.ok f, m')) :
    fileSystem.tempFile draws dir stem m = (.ok f, m') := by
  have hopen : bareFileSystem.openFile (tempCandidate draws dir stem 0) .temporary m =
      (.ok f, m') := hrun
  have hfirst : 0 < temporaryAttempts := by decide
  have hnew : (bareFileSystem.openFile (tempCandidate draws dir stem 0) .temporary m).1 ≠
      .error .alreadyExists := by
    rw [hopen]
    nofun
  rw [tempFile_eq, BareFileSystem.unusedFile_of_first hfirst (fun _ hj => nomatch hj) hnew, hopen]

/-- After any calls, the names for a temporary file are tried in turn, and what the first request
gives that is not refused because something exists is what comes of it. If a file is made, there was
nothing at its name, not even a link to nowhere; it is an empty one for its owner only at the place
the name leads to, and nothing else is new but the directories that were missing above it. The names
are exhausted if there are entries at all of them. A failure changes nothing. -/
theorem run_tempFile (calls : List Call) (draws : Draws) (dir : Path) (stem : Bytes) :
    let m := (Session.run calls).memory
    let candidate := tempCandidate draws dir stem
    let request := fun i => fileSystem.openFile (candidate i) .temporary m
    let made := fileSystem.tempFile draws dir stem m
    (∀ i < temporaryAttempts, (∀ j < i, (request j).1 = .error .alreadyExists) →
      (request i).1 ≠ .error .alreadyExists → made = request i) ∧
    (∀ f m', made = (.ok f, m') → ∃ i < temporaryAttempts,
      (∀ j < i, (request j).1 = .error .alreadyExists) ∧ f.name = candidate i ∧
      fileSystem.lstat (candidate i) m = (.error .entityNotFound, m) ∧
      ∃ k, m.resolve (candidate i) true = .ok k ∧ Planted m m' k .file ⟨[], 0o600⟩ ∧
        m'.nodeAt k = some ⟨.file, f.handle.cell⟩) ∧
    ((∃ m', made = (.error .tempFileExhausted, m')) ↔
      ∀ i < temporaryAttempts, ∃ d, fileSystem.lstat (candidate i) m = (.ok d, m)) ∧
    ∀ e m', made = (.error e, m') → m' = m := by
  intro m candidate request made
  have h : m.WellFormed := Session.wellFormed_run calls
  refine ⟨fun i hi hbefore hfirst => ?_, fun f m' hrun => ?_, ?_,
    fun e m' hrun => tempFile_failed h hrun⟩
  · show fileSystem.tempFile draws dir stem m = _
    rw [tempFile_eq]
    have htaken := fun j hj => taken_of_exists h (hbefore j hj)
    exact BareFileSystem.unusedFile_of_first hi htaken hfirst
  · obtain ⟨i, hi, hbefore, k, hmade⟩ := tempFile_makes h hrun
    exact ⟨i, hi, fun j hj => congrArg Prod.fst (hbefore j hj), hmade.name,
      lstat_of_free h hmade.last hmade.free, k, hmade.place, hmade.planted, hmade.file⟩
  · simp only [← taken_iff h]
    exact tempFile_exhausted_iff h

/-- A link to nowhere has the first name that is tried. -/
private def takenByLink : List Call := [.symlink ⟨[100]⟩ ⟨temporaryName [120] 0⟩]

private def zeroThenOne : Draws := fun i => if i = 0 then 0 else 1

/-- The name of a link to nowhere is passed over. -/
theorem run_tempFile_dangling_link :
    ∃ f m', fileSystem.tempFile zeroThenOne Path.top [120] (Session.run takenByLink).memory =
        (.ok f, m') ∧
      f.name = ⟨[47] ++ temporaryName [120] 1⟩ ∧
      m'.nodeAt [⟨temporaryName [120] 1, rfl⟩] = some ⟨.file, f.handle.cell⟩ ∧
      m'.nodeAt [⟨[100], rfl⟩] = none := by
  have hfirst : (fileSystem.openFile (tempCandidate zeroThenOne Path.top [120] 0) .temporary
      (Session.run takenByLink).memory).1 = .error .alreadyExists := rfl
  have htemp := (run_tempFile takenByLink zeroThenOne Path.top [120]).1 1 (by decide)
    (fun j hj => Nat.lt_one_iff.1 hj ▸ hfirst) nofun
  exact ⟨_, _, htemp, rfl, rfl, rfl⟩

end TempFile

end Memory

end ConfinedFs
