import ConfinedFs.Proofs.Layer.Boundary
import ConfinedFs.Proofs.Layer.Dialog
import ConfinedFs.Proofs.Layer.WellNamed

/-!
Jails in jails. A jail that has been narrowed and a jail over a jail put paths below the
same place, refuse the same requests and ask the filesystem below for the same thing.
They tell their caller the same, as long as the names that they are given by the
filesystem are names.
-/

namespace ConfinedFs

open ConfinedFs.Path

variable {σ H ε α : Type} {names outer inner : List Name}

/-- Steps up that are too many for a place are too many for one further up. -/
theorem Path.Climbs.mono {depth depth' : Nat} {cs : List Component} (h : Climbs depth' cs)
    (hle : depth ≤ depth') : Climbs depth cs := by
  obtain ⟨l, hl, hlt⟩ := h
  exact ⟨l, hl, by omega⟩

/-- Two files that their caller cannot tell apart. -/
def OpenFile.Alike (f g : OpenFile H) : Prop := f.handle = g.handle ∧ f.name = g.name

/-- Two answers that the caller cannot tell apart. -/
def Operation.Alike : Operation H α → α → α → Prop
  | openFile _ _, f, g => f.Alike g
  | tempFile _ _ _, f, g => f.Alike g
  | _, a, b => a = b

/-- The names in the answer of a filesystem are names. -/
def Operation.AnswersNamed : Operation H α → α → Prop
  | tempFile _ _ _, f => f.name.HasBaseName
  | readDir _, l => ∀ e ∈ l.entries, e.path.HasFileName
  | _, _ => True

/-- Two outcomes that the caller cannot tell apart. -/
def Operation.AlikeOutcome (op : Operation H α) : Except FileError α → Except FileError α → Prop
  | .ok a, .ok b => op.Alike a b
  | .error e, .error e' => e = e'
  | _, _ => False

namespace Operation

variable {op : Operation H α}

theorem Alike.refl (op : Operation H α) (a : α) : op.Alike a a := by
  cases op with
  | openFile p o | tempFile draws dir stem => exact ⟨rfl, rfl⟩
  | _ => rfl

theorem AlikeOutcome.refl (op : Operation H α) (r : Except FileError α) :
    op.AlikeOutcome r r := by
  cases r with
  | ok a => exact Alike.refl op a
  | error e => rfl

theorem Alike.symm {a b : α} (h : op.Alike a b) : op.Alike b a := by
  cases op with
  | openFile p o | tempFile draws dir stem => exact ⟨h.1.symm, h.2.symm⟩
  | _ => exact Eq.symm h

theorem Alike.trans {a b c : α} (h : op.Alike a b) (h' : op.Alike b c) : op.Alike a c := by
  cases op with
  | openFile p o | tempFile draws dir stem => exact ⟨h.1.trans h'.1, h.2.trans h'.2⟩
  | _ => exact Eq.trans h h'

theorem AlikeOutcome.symm {r r' : Except FileError α} (h : op.AlikeOutcome r r') :
    op.AlikeOutcome r' r := by
  cases r <;> cases r'
  · exact Eq.symm h
  · exact h
  · exact h
  · exact Alike.symm h

theorem AlikeOutcome.trans {r r' r'' : Except FileError α} (h : op.AlikeOutcome r r')
    (h' : op.AlikeOutcome r' r'') : op.AlikeOutcome r r'' := by
  cases r <;> cases r' <;> cases r''
  case error.error.error => exact Eq.trans h h'
  case ok.ok.ok => exact Alike.trans h h'
  all_goals first | exact h.elim | exact h'.elim

/-- Of a target no one can tell more than what it is. -/
theorem AlikeOutcome.toOption_eq {p : Path} {r r' : Except FileError Path}
    (h : (readlink p : Operation H Path).AlikeOutcome r r') : r.toOption = r'.toOption := by
  cases r <;> cases r'
  case error.error => rfl
  case ok.ok => exact congrArg some h
  all_goals exact h.elim

theorem isAbsolute_inside (names : List Name) (p : Path) :
    (Jail.inside (ofNames names) p).isAbsolute = true :=
  (Jail.isAbsolute_inside _ p).trans (isAbsolute_ofNames names)

theorem inside_ofNames {p : Path} (h : p.climbsOut = false) :
    Jail.inside (ofNames names) p = ofNames (names ++ p.names) := by
  rw [Jail.inside, join_clean_eq (isAbsolute_ofNames names) h, names_ofNames]

theorem inside_inside {p : Path} (h : p.climbsOut = false) :
    Jail.inside (ofNames outer) (Jail.inside (ofNames inner) p) =
      Jail.inside (ofNames (outer ++ inner)) p := by
  rw [inside_ofNames h, inside_ofNames (climbsOut_ofNames _), inside_ofNames h, names_ofNames,
    List.append_assoc]

theorem paths_handedDown (base : Path) (op : Operation H α) :
    (op.handedDown base).paths = op.paths.map (Jail.inside base) := by
  cases op <;> rfl

/-- What stays inside of the inner jail stays inside of the outer one. -/
theorem not_crosses_handedDown (inner : List Name) (h : ¬ op.Crosses) :
    ¬ (op.handedDown (ofNames inner)).Crosses := by
  rintro (⟨p, hp, hclimbs⟩ | hstores)
  · rw [paths_handedDown] at hp
    obtain ⟨q, _, rfl⟩ := List.mem_map.1 hp
    rw [climbsOut_of_isAbsolute (isAbsolute_inside inner q)] at hclimbs
    cases hclimbs
  · cases op with
    | symlink target link =>
      obtain ⟨hrelative, hclimbs⟩ := hstores
      have hlink := not_climbsOut_of_mem h (List.mem_singleton_self link)
      cases habsolute : target.isAbsolute with
      | true =>
        rw [habsolute, if_pos rfl, isAbsolute_inside] at hrelative
        cases hrelative
      | false =>
        rw [habsolute, if_neg Bool.false_ne_true, inside_ofNames hlink, names_ofNames] at hclimbs
        refine h (.inr ⟨habsolute, hclimbs.mono ?_⟩)
        simp only [List.length_dropLast, List.length_append]
        omega
    | _ => exact hstores

/-- Handed down twice, a request is the one that is handed down to the inner place. -/
theorem handedDown_handedDown (h : ¬ op.Crosses) :
    (op.handedDown (ofNames inner)).handedDown (ofNames outer) =
      op.handedDown (ofNames (outer ++ inner)) := by
  have hinside : ∀ p ∈ op.paths, Jail.inside (ofNames outer) (Jail.inside (ofNames inner) p) =
      Jail.inside (ofNames (outer ++ inner)) p :=
    fun p hp => inside_inside (not_climbsOut_of_mem h hp)
  cases op with
  | rename source target =>
    have hsource := hinside source (List.mem_cons_self ..)
    have htarget := hinside target (List.mem_cons_of_mem _ (List.mem_singleton_self _))
    rw [handedDown, handedDown, handedDown, hsource, htarget]
  | symlink target link =>
    have hlink := hinside link (List.mem_singleton_self _)
    rw [handedDown, handedDown, handedDown, hlink]
    cases habsolute : target.isAbsolute with
    | true =>
      rw [if_pos rfl, if_pos rfl, if_pos (isAbsolute_inside inner target),
        inside_inside (climbsOut_of_isAbsolute habsolute)]
    | false =>
      rw [if_neg Bool.false_ne_true, if_neg Bool.false_ne_true, habsolute,
        if_neg Bool.false_ne_true]
  | openFile p o | stat p | lstat p | remove p | readDir p | createDirAll p mode | readlink p
  | tempFile draws p stem =>
    have hp := hinside p (List.mem_singleton_self _)
    rw [handedDown, handedDown, handedDown, hp]

/-- A jail tells the same of answers that cannot be told apart. -/
theorem shown_alike {a b : α} (h : op.Alike a b) (base : Path) :
    op.AlikeOutcome (op.shown base a) (op.shown base b) := by
  cases op with
  | openFile p o => exact ⟨h.1, rfl⟩
  | tempFile draws dir stem =>
    have hname : dir.join a.name.baseName = dir.join b.name.baseName := by rw [h.2]
    exact ⟨h.1, hname⟩
  | _ =>
    have heq : a = b := h
    subst heq
    exact AlikeOutcome.refl _ _

/-- An entry that is listed twice is listed where it has been listed last. -/
theorem listedIn_listedIn {e : DirEntry} (h : e.path.HasFileName) (first last : Path) :
    (e.listedIn first).listedIn last = e.listedIn last := by
  obtain ⟨n, hn⟩ := h
  have hname : e.fileName = n.bytes := by rw [DirEntry.fileName, hn, Option.getD_some]
  have hagain : (e.listedIn first).fileName = n.bytes := by
    rw [DirEntry.fileName, DirEntry.listedIn, hname, fileName?_push, Option.getD_some]
  rw [DirEntry.listedIn, hagain, DirEntry.listedIn, DirEntry.listedIn, hname]

theorem shownTarget_ofNames {target : Path} (h : target.isAbsolute = true) :
    Jail.shownTarget (ofNames names).clean target =
      if names <+: target.names then .ok (ofNames (target.names.drop names.length))
      else .error .crossedBoundary := by
  rw [Jail.shownTarget, if_pos h, clean_ofNames, remainder?_eq (isAbsolute_ofNames names) h,
    names_ofNames]
  by_cases hstarts : names <+: target.names
  · rw [if_pos hstarts, if_pos hstarts]
    exact congrArg Except.ok (fromTop_below _)
  · rw [if_neg hstarts, if_neg hstarts]

/-- The base is taken off the target of a link at once or in two parts. -/
theorem shownTarget_shownTarget (outer inner : List Name) (target : Path) :
    (Jail.shownTarget (ofNames outer).clean target >>= Jail.shownTarget (ofNames inner).clean) =
      Jail.shownTarget (ofNames (outer ++ inner)).clean target := by
  cases habsolute : target.isAbsolute with
  | false =>
    have hsame : ∀ base, Jail.shownTarget base target = .ok target := by
      intro base
      rw [Jail.shownTarget, habsolute]
      rfl
    rw [hsame, hsame]
    exact hsame _
  | true =>
    rw [shownTarget_ofNames habsolute, shownTarget_ofNames habsolute]
    by_cases houter : outer <+: target.names
    · obtain ⟨rest, hrest⟩ := houter
      rw [← hrest, if_pos (List.prefix_append outer rest), List.drop_left]
      have hdrop : (outer ++ rest).drop (outer ++ inner).length = rest.drop inner.length := by
        rw [List.length_append, ← List.drop_drop, List.drop_left]
      have hstarts : outer ++ inner <+: outer ++ rest ↔ inner <+: rest :=
        List.prefix_append_right_inj outer
      refine (shownTarget_ofNames (isAbsolute_ofNames rest)).trans ?_
      rw [names_ofNames, hdrop]
      by_cases hinner : inner <+: rest
      · rw [if_pos hinner, if_pos (hstarts.2 hinner)]
      · rw [if_neg hinner, if_neg fun h => hinner (hstarts.1 h)]
    · have hwhole : ¬ outer ++ inner <+: target.names :=
        fun h => houter ((List.prefix_append outer inner).trans h)
      rw [if_neg houter, if_neg hwhole]
      rfl

/-- What is told through two jails is what is told through one at the inner place. -/
theorem shown_shown {a : α} (h : op.AnswersNamed a) :
    op.AlikeOutcome ((op.handedDown (ofNames inner)).shown (ofNames outer) a >>=
        op.shown (ofNames inner)) (op.shown (ofNames (outer ++ inner)) a) := by
  cases op with
  | openFile p o => exact ⟨rfl, rfl⟩
  | tempFile draws dir stem =>
    obtain ⟨n, hn⟩ := h
    refine ⟨rfl, ?_⟩
    show dir.join ((Jail.inside (ofNames inner) dir).join a.name.baseName).baseName =
      dir.join a.name.baseName
    have hname : (⟨n.bytes⟩ : Path).inner = [] ++ [.name n] := inner_name n
    rw [hn, baseName_join _ hname]
  | readDir p =>
    show (⟨(a.entries.map _).map _⟩ : Listing) = ⟨a.entries.map _⟩
    rw [List.map_map]
    congr 1
    apply List.map_congr_left
    intro e he
    exact listedIn_listedIn (h e he) _ _
  | readlink p =>
    have htarget := shownTarget_shownTarget outer inner a
    show AlikeOutcome (readlink p) (Jail.shownTarget (ofNames outer).clean a >>=
      Jail.shownTarget (ofNames inner).clean) (Jail.shownTarget (ofNames (outer ++ inner)).clean a)
    rw [htarget]
    exact AlikeOutcome.refl _ _
  | stat p | lstat p | rename source target | remove p | createDirAll p mode
  | symlink target link => rfl

theorem answersNamed_handedDown (base : Path) (op : Operation H α) (a : α) :
    (op.handedDown base).AnswersNamed a ↔ op.AnswersNamed a := by
  cases op <;> rfl

theorem alikeOutcome_handedDown (base : Path) (op : Operation H α) (r r' : Except FileError α) :
    (op.handedDown base).AlikeOutcome r r' ↔ op.AlikeOutcome r r' := by
  cases op <;> rfl

/-- A jail tells the same of outcomes that cannot be told apart. -/
theorem AlikeOutcome.shown {r r' : Except FileError α} (h : op.AlikeOutcome r r') (base : Path) :
    op.AlikeOutcome (r >>= op.shown base) (r' >>= op.shown base) := by
  cases r <;> cases r'
  case error.error => exact h
  case ok.ok => exact shown_alike h base
  all_goals exact h.elim

end Operation

theorem FileSystem.WellNamed.answers {fs : FileSystem σ H} (h : fs.WellNamed)
    {op : Operation H α} {s s' : σ} {a : α} (hrun : fs.perform op s = (.ok a, s')) :
    op.AnswersNamed a := by
  cases op with
  | tempFile draws dir stem => exact h.tempFile draws dir stem s a s' hrun
  | readDir p => exact h.readDir p s a s' hrun
  | _ => exact True.intro

/-- The filesystem does what a jail over another one does, at the place with the given
names: it refuses what crosses the boundary, and asks for the rest where the jail does.
What it tells is what the jail would tell. -/
structure FileSystem.ActsBelow (fs under : FileSystem σ H) (names : List Name) : Prop where
  refused : ∀ {α : Type} (op : Operation H α), op.Crosses →
    fs.perform op = throw .crossedBoundary
  asked : ∀ {α : Type} (op : Operation H α), ¬ op.Crosses → ∃ tell : α → Except FileError α,
    fs.perform op = (do
      let a ← under.perform (op.handedDown (ofNames names))
      Action.ofExcept (tell a)) ∧
    ∀ a, op.AnswersNamed a → op.AlikeOutcome (tell a) (op.shown (ofNames names) a)

theorem Action.ofExcept_bind {β : Type} (r : Except ε α) (f : α → Except ε β) :
    (ofExcept r >>= fun a => ofExcept (f a) : Action ε σ β) = ofExcept (r >>= f) := by
  cases r <;> rfl

namespace Jail

variable {under fs fs' : FileSystem σ H}

open ConfinedFs.FileSystem (ActsBelow)

theorem confine_eq (under : FileSystem σ H) {base : Path} (h : base.isAbsolute = true) :
    confine under base = ⟨under, ofNames base.names⟩ := by
  rw [confine, clean_eq_ofNames h]

theorem confine_ofNames (under : FileSystem σ H) (names : List Name) :
    confine under (ofNames names) = ⟨under, ofNames names⟩ := by
  rw [confine, clean_ofNames]

/-- A jail acts below its base. -/
theorem actsBelow (under : FileSystem σ H) (names : List Name) :
    (fileSystem ⟨under, ofNames names⟩).ActsBelow under names := by
  rw [← confine_ofNames]
  constructor
  · intro α op hcrosses
    exact perform_of_crosses hcrosses
  · intro α op hcrosses
    exact ⟨_, perform_of_not_crosses hcrosses, fun a _ => Operation.AlikeOutcome.refl op _⟩

/-- A jail over what acts below a place acts further below. -/
theorem actsBelow_append (h : fs.ActsBelow under outer) (inner : List Name) :
    (fileSystem ⟨fs, ofNames inner⟩).ActsBelow under (outer ++ inner) := by
  rw [← confine_ofNames]
  constructor
  · intro α op hcrosses
    exact perform_of_crosses hcrosses
  · intro α op hcrosses
    obtain ⟨tell, hperform, htell⟩ :=
      h.asked (op.handedDown (ofNames inner)) (Operation.not_crosses_handedDown inner hcrosses)
    rw [Operation.handedDown_handedDown hcrosses] at hperform
    refine ⟨fun a => tell a >>= op.shown (ofNames inner), ?_, ?_⟩
    · rw [perform_of_not_crosses hcrosses, hperform, bind_assoc]
      congr 1
      funext a
      exact Action.ofExcept_bind (tell a) _
    · intro a hnamed
      have halike := htell a ((Operation.answersNamed_handedDown _ op a).2 hnamed)
      rw [Operation.alikeOutcome_handedDown] at halike
      exact (halike.shown _).trans (Operation.shown_shown hnamed)

theorem narrow_eq {p : Path} (h : p.climbsOut = false) :
    narrow ⟨under, ofNames names⟩ p = .ok ⟨under, ofNames (names ++ p.names)⟩ := by
  rw [← confine_ofNames, narrow_of_not_climbsOut h, Operation.inside_ofNames h]

/-- Narrowed again and again, a jail is one at the place that all the names lead to,
unless one of the paths climbs out. -/
theorem foldlM_narrow (under : FileSystem σ H) (names : List Name) (paths : List Path) :
    paths.foldlM narrow ⟨under, ofNames names⟩ =
      if paths.all fun p => !p.climbsOut then
        .ok ⟨under, ofNames (names ++ paths.flatMap Path.names)⟩
      else .error .crossedBoundary := by
  induction paths generalizing names with
  | nil => simp [pure, Except.pure]
  | cons p paths ih =>
    rw [List.foldlM_cons]
    cases hp : p.climbsOut with
    | true =>
      rw [← confine_ofNames, narrow_of_climbsOut hp]
      simp [hp, bind, Except.bind]
    | false =>
      rw [narrow_eq hp]
      show paths.foldlM narrow _ = _
      rw [ih]
      simp [hp, List.append_assoc]

/-- Jails over jails, from the innermost one out. -/
def stacked (under : FileSystem σ H) (base : Path) (paths : List Path) : Jail σ H :=
  paths.foldl (fun j p => confine j.fileSystem p.fromTop) (confine under base)

/-- Where a jail over jails is narrowed to, it acts below the place that all the names
lead to. -/
theorem stacked_eq (under : FileSystem σ H) {base : Path} (hbase : base.isAbsolute = true)
    (paths : List Path) :
    ∃ last : FileSystem σ H, ∃ outer inner : List Name,
      stacked under base paths = ⟨last, ofNames inner⟩ ∧
      outer ++ inner = base.names ++ paths.flatMap Path.names ∧
      ∀ names, (fileSystem ⟨last, ofNames names⟩).ActsBelow under (outer ++ names) := by
  have hstack : ∀ (last : FileSystem σ H) (outer inner : List Name),
      (∀ names, (fileSystem ⟨last, ofNames names⟩).ActsBelow under (outer ++ names)) →
      ∃ last' : FileSystem σ H, ∃ outer' inner' : List Name,
        paths.foldl (fun j p => confine j.fileSystem p.fromTop) ⟨last, ofNames inner⟩ =
          ⟨last', ofNames inner'⟩ ∧
        outer' ++ inner' = outer ++ inner ++ paths.flatMap Path.names ∧
        ∀ names, (fileSystem ⟨last', ofNames names⟩).ActsBelow under (outer' ++ names) := by
    induction paths with
    | nil =>
      intro last outer inner hacts
      exact ⟨last, outer, inner, rfl, (List.append_nil _).symm, hacts⟩
    | cons p paths ih =>
      intro last outer inner hacts
      obtain ⟨last', outer', inner', hfold, hnames, hacts'⟩ :=
        ih (fileSystem ⟨last, ofNames inner⟩) (outer ++ inner) p.names fun names =>
          actsBelow_append (hacts inner) names
      refine ⟨last', outer', inner', ?_, ?_, hacts'⟩
      · rw [List.foldl_cons, ← hfold, confine_eq _ (isAbsolute_fromTop p), names_fromTop]
      · rw [hnames, List.flatMap_cons, List.append_assoc, List.append_assoc]
  rw [stacked, confine_eq under hbase]
  exact hstack under [] base.names fun names => actsBelow under names

/-- Two filesystems that act below the same place of the same filesystem. -/
theorem alike_of_actsBelow (hnamed : under.WellNamed) (h : fs.ActsBelow under names)
    (h' : fs'.ActsBelow under names) (op : Operation H α) (s : σ) :
    op.AlikeOutcome (fs.perform op s).1 (fs'.perform op s).1 ∧
      (fs.perform op s).2 = (fs'.perform op s).2 := by
  by_cases hcrosses : op.Crosses
  · rw [h.refused op hcrosses, h'.refused op hcrosses]
    exact ⟨rfl, rfl⟩
  · obtain ⟨tell, hperform, htell⟩ := h.asked op hcrosses
    obtain ⟨tell', hperform', htell'⟩ := h'.asked op hcrosses
    rw [hperform, hperform']
    cases hrun : under.perform (op.handedDown (ofNames names)) s with
    | mk r s' =>
      cases r with
      | error e =>
        rw [Action.bind_apply_of_error hrun, Action.bind_apply_of_error hrun]
        exact ⟨rfl, rfl⟩
      | ok a =>
        have hanswers := (Operation.answersNamed_handedDown _ op a).1 (hnamed.answers hrun)
        rw [Action.bind_apply_of_ok hrun, Action.bind_apply_of_ok hrun, Action.ofExcept_apply,
          Action.ofExcept_apply]
        exact ⟨(htell a hanswers).trans (htell' a hanswers).symm, rfl⟩

/-- The handle of a file and the name it goes by. -/
def seen (f : OpenFile H) : H × Path := (f.handle, f.name)

/-- Dialogs that have led to one state, with files that cannot be told apart. -/
abbrev InAgreement : Dialog σ H → Dialog σ H → Prop :=
  Dialog.InStep Eq fun x y => x.map seen = y.map seen

variable {d d' : Dialog σ H}

theorem seen_opened {op : Operation H α} {a b : α} (h : op.Alike a b) :
    (op.opened a).map seen = (op.opened b).map seen := by
  cases op with
  | openFile p o | tempFile draws dir stem => exact congrArg some (Prod.ext h.1 h.2)
  | _ => rfl

section

variable [Device σ H]

theorem fileAnswer_of_inAgreement (h : InAgreement d d') (i : Nat) (op : FileOperation ε α) :
    d.fileAnswer i op = d'.fileAnswer i op := by
  have hfiles := h.files i
  rw [Dialog.fileAnswer, Dialog.fileAnswer]
  cases hd : d.files i with
  | none =>
    rw [hd] at hfiles
    rw [Option.map_eq_none_iff.1 hfiles.symm]
    rfl
  | some f =>
    rw [hd] at hfiles
    obtain ⟨f', hd', hseen⟩ := Option.map_eq_some_iff.1 hfiles.symm
    obtain ⟨hhandle, hname⟩ := Prod.mk.inj hseen
    have hstate : d.state = d'.state := h.state
    rw [hd', Option.map_some, Option.map_some, OpenFile.perform_apply, OpenFile.perform_apply,
      hhandle, hname, hstate]

theorem inAgreement_step (hnamed : under.WellNamed) (hfs : fs.ActsBelow under names)
    (hfs' : fs'.ActsBelow under names) (h : InAgreement d d') (t : Turn H) :
    InAgreement (d.step fs t) (d'.step fs' t) := by
  have hstate : d.state = d'.state := h.state
  cases t with
  | pass => exact h.after h.state rfl
  | ask op =>
    obtain ⟨houtcome, hnext⟩ := alike_of_actsBelow hnamed hfs hfs' op d.state
    rw [Dialog.step, Dialog.step, Dialog.answer, Dialog.answer, ← hstate]
    refine h.after hnext ?_
    cases hr : (fs.perform op d.state).1 <;> cases hr' : (fs'.perform op d.state).1 <;>
      rw [hr, hr'] at houtcome
    case error.error => rfl
    case ok.ok => exact seen_opened houtcome
    all_goals exact houtcome.elim
  | use i op =>
    have hfiles := h.files i
    rw [Dialog.step, Dialog.step]
    cases hd : d.files i with
    | none =>
      rw [hd] at hfiles
      rw [Option.map_eq_none_iff.1 hfiles.symm]
      exact h.after h.state rfl
    | some f =>
      rw [hd] at hfiles
      obtain ⟨f', hd', hseen⟩ := Option.map_eq_some_iff.1 hfiles.symm
      obtain ⟨hhandle, hname⟩ := Prod.mk.inj hseen
      rw [hd']
      dsimp only
      rw [OpenFile.perform_apply, OpenFile.perform_apply, hhandle, hname, hstate]
      refine (h.withFile ?_).after rfl rfl
      exact congrArg some (Prod.ext rfl hname.symm)

theorem inAgreement_run (hnamed : under.WellNamed) (hfs : fs.ActsBelow under names)
    (hfs' : fs'.ActsBelow under names) (h : InAgreement d d') (turns : List (Turn H)) :
    InAgreement (Dialog.run fs d turns) (Dialog.run fs' d' turns) := by
  have hrun : InAgreement (Dialog.run fs d turns) (Dialog.run fs' d' (turns.map id)) :=
    Dialog.run_related h fun t _ _ _ h => inAgreement_step hnamed hfs hfs' h t
  rwa [List.map_id] at hrun

/-- A jail that is narrowed to one path after the other, and jails over one another at
these paths: to narrow them further fails for both or for none. Whatever is asked of what
comes of it, both refuse it without a word to the filesystem below, or both ask it for the
same one thing. So they lead to the same states, answer the same, and the files they hand
out have the same handles and names and answer the same. The paths that temporary files
and entries are known by below have to end in names, as they do for all volumes. -/
theorem run_nested (under : FileSystem σ H) (hnamed : under.WellNamed) (base : Path)
    (hbase : base.isAbsolute = true) (paths : List Path)
    (hpaths : ∀ p ∈ paths, p.climbsOut = false) (deeper : List Path) (s : σ)
    (turns : List (Turn H)) :
    (∃ j, paths.foldlM narrow (confine under base) = .ok j ∧
      match deeper.foldlM narrow j, deeper.foldlM narrow (stacked under base paths) with
      | .ok j', .ok k =>
        (∀ {α : Type} (op : Operation H α),
          (j'.fileSystem.perform op = throw .crossedBoundary ∧
            k.fileSystem.perform op = throw .crossedBoundary) ∨
          ∃ (request : Operation H α) (tell tell' : α → Except FileError α),
            j'.fileSystem.perform op = (do
              let a ← under.perform request
              Action.ofExcept (tell a)) ∧
            k.fileSystem.perform op = (do
              let a ← under.perform request
              Action.ofExcept (tell' a))) ∧
        let d := Dialog.run j'.fileSystem { state := s } turns
        let d' := Dialog.run k.fileSystem { state := s } turns
        d.state = d'.state ∧
        (∀ {α : Type} (op : Operation H α),
          op.AlikeOutcome (d.answer j'.fileSystem op) (d'.answer k.fileSystem op)) ∧
        (∀ i, (d.files i).map seen = (d'.files i).map seen) ∧
        ∀ i {ε α : Type} (op : FileOperation ε α), d.fileAnswer i op = d'.fileAnswer i op
      | .error e, .error e' => e = e'
      | _, _ => False) ∧
    (∀ (v : Volume) (draws : Draws) (dir : Path) (stem : Bytes),
      (v.fileSystem.tempFile draws dir stem).Yields fun f => f.name.HasBaseName) ∧
    ∀ v : Volume, v.PointsFromTop → v.fileSystem.WellNamed := by
  refine ⟨?_, Volume.tempFile_named, Volume.wellNamed⟩
  have hall : (paths.all fun p => !p.climbsOut) = true := by
    rw [List.all_eq_true]
    intro p hp
    rw [hpaths p hp]
    rfl
  have hsingle := foldlM_narrow under base.names paths
  rw [← confine_eq under hbase, if_pos hall] at hsingle
  obtain ⟨last, outer, inner, hstacked, hnames, hacts⟩ := stacked_eq under hbase paths
  refine ⟨_, hsingle, ?_⟩
  rw [hstacked, foldlM_narrow, foldlM_narrow]
  by_cases hdeeper : (deeper.all fun p => !p.climbsOut) = true
  · rw [if_pos hdeeper, if_pos hdeeper]
    have hfs := actsBelow under (base.names ++ paths.flatMap Path.names ++ deeper.flatMap Path.names)
    have hfs' := hacts (inner ++ deeper.flatMap Path.names)
    rw [← List.append_assoc, hnames] at hfs'
    refine ⟨?_, ?_⟩
    · intro α op
      by_cases hcrosses : op.Crosses
      · exact .inl ⟨hfs.refused op hcrosses, hfs'.refused op hcrosses⟩
      · obtain ⟨tell, hperform, -⟩ := hfs.asked op hcrosses
        obtain ⟨tell', hperform', -⟩ := hfs'.asked op hcrosses
        exact .inr ⟨_, tell, tell', hperform, hperform'⟩
    · have hstart : InAgreement ({ state := s } : Dialog σ H) { state := s } :=
        ⟨rfl, rfl, fun _ => rfl⟩
      have hrun := inAgreement_run hnamed hfs hfs' hstart turns
      have hstate : (Dialog.run _ _ turns).state = (Dialog.run _ _ turns).state := hrun.state
      refine ⟨hstate, ?_, hrun.files, fun i _ _ op => fileAnswer_of_inAgreement hrun i op⟩
      intro α op
      rw [Dialog.answer, Dialog.answer, ← hstate]
      exact (alike_of_actsBelow hnamed hfs hfs' op _).1
  · rw [if_neg hdeeper, if_neg hdeeper]

section InMemory

/-- The path `a/../b`. -/
private def detour : Path := ⟨[97, 47, 46, 46, 47, 98]⟩

private def baseName : Name := ⟨[98], by decide⟩

/-- The link `l`. -/
private def linkPath : Path := ⟨[108]⟩

/-- A file is created and written to, and a link to it from the top is stored. -/
private def linking : List (Turn Memory.Handle) :=
  [.ask (.openFile detour .creating), .use 0 (.write [7]), .ask (.symlink ⟨[47, 98]⟩ linkPath)]

/-- A jail at the base, and another one in it. -/
private def nested : Jail Memory Memory.Handle :=
  stacked Memory.fileSystem (ofNames [baseName]) [detour]

private def nestedDialog : Dialog Memory Memory.Handle :=
  Dialog.run nested.fileSystem { state := .fresh } linking

/-- Narrowed by a path with a step up in it, a jail in memory still leads to the same state,
shows the same target, and hands out the same file. -/
theorem run_nested_detour :
    (Memory.fileSystem.WellNamed ∧ (ofNames [baseName]).isAbsolute = true ∧
        ∀ p ∈ [detour], p.climbsOut = false) ∧
      ∃ j, [detour].foldlM narrow (confine Memory.fileSystem (ofNames [baseName])) = .ok j ∧
        let d := Dialog.run j.fileSystem { state := .fresh } linking
        d.state = nestedDialog.state ∧
        (nestedDialog.answer nested.fileSystem (.readlink linkPath)).toOption =
          some ⟨[47, 98]⟩ ∧
        (d.answer j.fileSystem (.readlink linkPath)).toOption = some ⟨[47, 98]⟩ ∧
        (nestedDialog.files 0).map OpenFile.name = some detour ∧
        (d.files 0).map seen = (nestedDialog.files 0).map seen ∧
        (nestedDialog.fileAnswer 0 (.readAt 1 0)).bind Except.toOption = some [7] ∧
        (d.fileAnswer 0 (.readAt 1 0)).bind Except.toOption = some [7] := by
  have hpaths : ∀ p ∈ [detour], p.climbsOut = false := by decide
  obtain ⟨⟨j, hj, _, hstate, hanswers, hfiles, huses⟩, _⟩ := run_nested Memory.fileSystem
    Memory.wellNamed (ofNames [baseName]) (isAbsolute_ofNames _) [detour] hpaths [] Memory.fresh
    linking
  have hlink : (nestedDialog.answer nested.fileSystem (.readlink linkPath)).toOption =
      some ⟨[47, 98]⟩ := by decide +kernel
  have hread : (nestedDialog.fileAnswer 0 (.readAt 1 0)).bind Except.toOption = some [7] := by
    decide +kernel
  refine ⟨⟨Memory.wellNamed, isAbsolute_ofNames _, hpaths⟩, j, hj, hstate, hlink, ?_,
    by decide +kernel, hfiles 0, hread, ?_⟩
  · exact (hanswers (.readlink linkPath)).toOption_eq.trans hlink
  · exact (congrArg (Option.bind · Except.toOption) (huses 0 (.readAt 1 0))).trans hread

/-- A memory in which every directory has the one entry `..`. -/
private def upwardMemory : FileSystem Memory Memory.Handle :=
  { Memory.fileSystem with
    readDir := fun _ => pure ⟨[⟨⟨[46, 46]⟩, .error .entityNotFound⟩]⟩ }

/-- An entry without a name has another path with each jail that it passes through. -/
theorem run_nested_unnamed_entry :
    (∀ draws dir stem,
      (upwardMemory.tempFile draws dir stem).Yields fun f => f.name.HasBaseName) ∧
    (ofNames [baseName]).isAbsolute = true ∧ detour.climbsOut = false ∧
    ∃ j, [detour].foldlM narrow (confine upwardMemory (ofNames [baseName])) = .ok j ∧
      ((j.fileSystem.readDir Path.here .fresh).1.map fun l => l.entries.map (·.path)) =
        .ok [⟨[47, 46, 46]⟩] ∧
      (((stacked upwardMemory (ofNames [baseName]) [detour]).fileSystem.readDir
        Path.here .fresh).1.map fun l => l.entries.map (·.path)) =
          .ok [⟨[47, 98, 47, 46, 46]⟩] := by
  refine ⟨?_, rfl, rfl, ⟨upwardMemory, ofNames [baseName, baseName]⟩, rfl, rfl, rfl⟩
  intro draws dir stem
  unfold upwardMemory
  dsimp only
  exact Memory.wellNamed.tempFile draws dir stem

end InMemory

end

end Jail

end ConfinedFs
