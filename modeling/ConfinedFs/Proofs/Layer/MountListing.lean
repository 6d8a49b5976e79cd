import ConfinedFs.Proofs.Layer.MemoryMount
import ConfinedFs.Proofs.Memory.Listing

/-!
Listings of a mount. The parent of the mountpoint is listed with the mountpoint in it. The entries
stay in order, and every other entry is described as the mount describes its path. The mountpoint is
described so unless the tree below has something of its own there, which is listed in its place.
-/

namespace ConfinedFs

open ConfinedFs.Path

variable {point p q : Path} {s s' : Memory × Memory} {m : Memory} {k : Key} {n : Name}
  {names : List Name} {entries : List DirEntry} {top : Except FileError Metadata} {l : Listing}

/-- Below any directory the entries are listed under their own names. -/
theorem Memory.map_listedIn (m : Memory) (k : Key) (names : List Name) (p : Path) :
    (m.entriesIn k names).map (DirEntry.listedIn p.fromTop) = m.entriesIn k p.names := by
  rw [entriesIn, List.map_map]
  refine List.map_congr_left fun n _ => ?_
  have hpath : p.fromTop.push ⟨n.bytes⟩ = ofNames (p.names ++ [n]) := by
    rw [fromTop_eq, push_ofNames]
  rw [Function.comp_apply, DirEntry.listedIn, fileName_entryIn, hpath]
  rfl

/-- The top of a tree is a directory. -/
theorem Memory.WellFormed.describe_top (h : m.WellFormed) : ∃ d : Metadata,
    m.stat Path.top = .ok d ∧ m.lstat Path.top = .ok d ∧ d.fileType = .ofDir := by
  obtain ⟨⟨kind, c⟩, hnode, hdir⟩ := h.nodeAt_top
  obtain rfl : kind = .directory := of_decide_eq_true hdir
  have hpass := (h.parented_of_nodeAt hnode).passable
  have hplace (followLast : Bool) : m.resolve Path.top followLast = .ok [] :=
    resolve_ofNames hpass fun _ c hlink => nomatch hnode.symm.trans hlink
  have hdescribed := describe_of_stored hnode Path.top.baseName.bytes
  refine ⟨(m.content c).metadata .directory Path.top.baseName.bytes, ?_, ?_, rfl⟩
  · rw [stat, hplace]
    exact hdescribed
  · rw [lstat, hplace]
    exact hdescribed

namespace Mount

section Order

theorem nameLE_trans (a b c : DirEntry) (hab : nameLE a b = true) (hbc : nameLE b c = true) :
    nameLE a c = true := by
  unfold nameLE at *
  cases ha : a.path.fileName? with
  | none => rfl
  | some x =>
    cases hb : b.path.fileName? with
    | none =>
      rw [ha, hb] at hab
      cases hab
    | some y =>
      cases hc : c.path.fileName? with
      | none =>
        rw [hb, hc] at hbc
        cases hbc
      | some z =>
        rw [ha, hb] at hab
        rw [hb, hc] at hbc
        simp only [Bool.not_eq_true', decide_eq_false_iff_not, List.not_lt] at *
        exact List.le_trans hab hbc

theorem nameLE_total (a b : DirEntry) : (nameLE a b || nameLE b a) = true := by
  unfold nameLE
  cases a.path.fileName? with
  | none => rfl
  | some x =>
    cases b.path.fileName? with
    | none => rfl
    | some y =>
      simp only [Bool.or_eq_true, Bool.not_eq_true', decide_eq_false_iff_not, List.not_lt]
      exact List.le_total x y

/-- Entries with different names come into strict order. -/
theorem sorted_mergeSort (hnamed : ∀ e ∈ entries, e.path.fileName? = some e.fileName)
    (hne : entries.Pairwise fun e e' => e.fileName ≠ e'.fileName) :
    (entries.mergeSort nameLE).Pairwise fun e e' => e.fileName < e'.fileName := by
  have hsorted := List.pairwise_mergeSort nameLE_trans nameLE_total entries
  have hperm := List.mergeSort_perm entries nameLE
  have hne' := (hperm.pairwise_iff fun h => Ne.symm h).2 hne
  refine (hsorted.and hne').imp_of_mem fun {e e'} he he' hboth => ?_
  obtain ⟨hle, hdiffer⟩ := hboth
  rw [nameLE, hnamed e (hperm.mem_iff.1 he), hnamed e' (hperm.mem_iff.1 he')] at hle
  simp only [Bool.not_eq_true', decide_eq_false_iff_not, List.not_lt] at hle
  by_contra hnot
  exact hdiffer (List.le_antisymm hle (List.not_lt.1 hnot))

end Order

section Answers

theorem showsPoint_iff {H : Type} :
    (Operation.readDir p : Operation H Listing).ShowsPoint point ↔
      ∃ n, point.names = p.names ++ [n] := by
  constructor
  · rintro ⟨hne, hparent⟩
    refine ⟨point.names.getLast hne, ?_⟩
    rw [hparent, List.dropLast_concat_getLast]
  · rintro ⟨n, hn⟩
    rw [Operation.ShowsPoint, hn, List.dropLast_concat]
    exact ⟨by simp, rfl⟩

theorem not_isInside_parent (hpoint : point.names = p.names ++ [n]) : isInside point p = false := by
  rw [Bool.eq_false_iff, ne_eq, isInside_iff, hpoint]
  exact Memory.not_starts_concat p.names n

theorem namesThere_parent (hpoint : point.names = p.names ++ [n]) :
    namesThere point p = p.names := by
  rw [namesThere, not_isInside_parent hpoint]
  rfl

/-- A listing without the mountpoint is that of one tree. -/
theorem readDir_side (h : ¬ ∃ n, point.names = p.names ++ [n]) (s : Memory × Memory) :
    (overMemories point).fileSystem.readDir p s =
      (((half (isInside point p) s).readDir (ofNames (namesThere point p))).map fun listed =>
        ⟨listed.entries.map (DirEntry.listedIn p.fromTop)⟩, s) := by
  have hreadDir : (overMemories point).fileSystem.readDir p =
      ((overMemories point).side (route point.fromTop p)).readDir (route point.fromTop p).path >>=
        fun listed => pure ⟨listed.entries.map (DirEntry.listedIn p.fromTop)⟩ := by
    rw [overMemories, side_route]
    exact readDir_eq _ _ (mt showsPoint_iff.1 h)
  rw [hreadDir, side_overMemories, route_path]
  exact query_bind_pure (Memory.readDir · _) _ _ s

/-- The listing of its parent with the mountpoint, if that is not listed already. -/
def withPointOnce (point : Path) (top : Except FileError Metadata) (entries : List DirEntry) :
    Listing :=
  if !entries.any fun e => e.path.same point.fromTop then ⟨withPoint point.fromTop top entries⟩
  else ⟨entries⟩

theorem readDir_parent (hpoint : point.names = p.names ++ [n]) (s : Memory × Memory) :
    (overMemories point).fileSystem.readDir p s =
      (match (half (isInside point p) s).readDir (ofNames (namesThere point p)) with
        | .ok listed => .ok (withPointOnce point (s.2.stat Path.top)
          (listed.entries.map (DirEntry.listedIn p.fromTop)))
        | .error .entityNotFound => .ok (withPointOnce point (s.2.stat Path.top) [])
        | .error e => .error e, s) := by
  have hparent : point.fromTop.dirName.same p.fromTop = true := by
    rw [fromTop_eq, fromTop_eq, dirName_ofNames, same_ofNames_iff, hpoint, List.dropLast_concat]
  have houtside := not_isInside_parent hpoint
  have hbelow : ¬ point.names <+: p.names := by
    rw [← isInside_iff, houtside]
    exact Bool.false_ne_true
  have hroute : route point.fromTop p = .below (ofNames p.names) := by
    rw [route_of_not_starts hbelow, fromTop_eq]
  have hlisted : (overMemories point).under.readDir (ofNames p.names) s =
      ((half false s).readDir (ofNames p.names), s) := rfl
  have hstart : (overMemories point).point = point.fromTop := rfl
  have honce (entries : List DirEntry) : ((if (!entries.any fun e => e.path.same point.fromTop) then
        do
        let top ← ((overMemories point).source.stat Path.top).outcome
        return ⟨withPoint point.fromTop top entries⟩
      else return ⟨entries⟩ : Action FileError (Memory × Memory) Listing) s) =
      (.ok (withPointOnce point (s.2.stat Path.top) entries), s) := by
    rw [withPointOnce]
    split <;> rfl
  rw [namesThere_parent hpoint, houtside]
  simp only [fileSystem, hstart, hroute, hparent, side, Route.path, Route.isMounted,
    Bool.not_false, Bool.true_and, Action.outcome_bind_apply, hlisted]
  cases (half false s).readDir (ofNames p.names) with
  | ok listed => exact honce _
  | error e =>
    cases e with
    | entityNotFound => exact honce []
    | _ => rfl

/-- The mountpoint is the top of the tree that is mounted. -/
theorem lstat_point (hq : q.names = point.names) (s : Memory × Memory) :
    (overMemories point).fileSystem.lstat q s = ((s.2.lstat Path.top).map (·.named q), s) := by
  have hinside : isInside point q = true := isInside_iff.2 ⟨[], by rw [hq, List.append_nil]⟩
  have htop : namesThere point q = [] := by
    rw [namesThere, if_pos hinside, hq, List.drop_length]
  rw [lstat_overMemories, htop, hinside]
  rfl

end Answers

section Entries

/-- A path leads to a place in its tree, and on from there. -/
structure Reaches (point p : Path) (s : Memory × Memory) (k : Key) : Prop where
  place : (half (isInside point p) s).resolve (ofNames (namesThere point p)) true = .ok k
  way : (half (isInside point p) s).sight k = .way

/-- An entry that is not the mountpoint is described as its path is. -/
theorem Reaches.lstat_entryIn (h : Reaches point p s k) (hother : p.names ++ [n] ≠ point.names) :
    let e := (half (isInside point p) s).entryIn k p.names n
    (overMemories point).fileSystem.lstat e.path s = (e.metadata, s) := by
  intro e
  have hnames : e.path.names = p.names ++ [n] := names_ofNames _
  have hside := isInside_concat hnames (hnames ▸ hother)
  have hlast : e.path.baseName = ⟨n.bytes⟩ := baseName_ofNames_concat p.names n
  rw [lstat_overMemories, hside, namesThere_concat hnames hside, Memory.lstat_child h.place h.way,
    Memory.named_describe, hlast]
  rfl

/-- What the tree below has at the mountpoint. -/
theorem Reaches.lstat_under (h : Reaches point p s k) (hpoint : point.names = p.names ++ [n]) :
    s.1.lstat point.fromTop = ((half (isInside point p) s).entryIn k p.names n).metadata := by
  obtain ⟨hplace, hway⟩ := h
  rw [not_isInside_parent hpoint, namesThere_parent hpoint] at hplace
  rw [not_isInside_parent hpoint] at hway ⊢
  rw [fromTop_eq, hpoint]
  exact Memory.lstat_child hplace hway n

/-- The mountpoint as an entry of its parent. -/
def pointEntry (point : Path) (top : Except FileError Metadata) : DirEntry :=
  ⟨point, top.map fun d => { d.named point with fileType := .ofDir }⟩

/-- What the mount lists in a directory: what one tree has there, and the mountpoint in its parent
if the tree below has nothing of that name. -/
inductive Shown (point p : Path) (s : Memory × Memory) : List DirEntry → Prop
  | asStored {k : Key} (hreaches : Reaches point p s k)
      (hlisted : ∀ n, point.names = p.names ++ [n] → n ∈ (half (isInside point p) s).children k) :
      Shown point p s ((half (isInside point p) s).entriesIn k p.names)
  | withPoint {k : Key} {n : Name} (hreaches : Reaches point p s k)
      (hpoint : point.names = p.names ++ [n])
      (hfree : n ∉ (half (isInside point p) s).children k) :
      Shown point p s (((half (isInside point p) s).entriesIn k p.names ++
        [pointEntry point.fromTop (s.2.stat Path.top)]).mergeSort nameLE)

theorem shown_withPointOnce (h : Reaches point p s k) (hpoint : point.names = p.names ++ [n]) :
    Shown point p s (withPointOnce point (s.2.stat Path.top)
      ((half (isInside point p) s).entriesIn k p.names)).entries := by
  have hsame (n' : Name) : ((half (isInside point p) s).entryIn k p.names n').path.same
      point.fromTop = true ↔ n' = n := by
    rw [Memory.entryIn, fromTop_eq, same_ofNames_iff, hpoint, List.append_cancel_left_eq,
      List.singleton_inj]
  have hany : (((half (isInside point p) s).entriesIn k p.names).any fun e =>
      e.path.same point.fromTop) = true ↔ n ∈ (half (isInside point p) s).children k := by
    simp only [Memory.entriesIn, List.any_map, List.any_eq_true, Function.comp_apply, hsame,
      exists_eq_right]
  rw [withPointOnce]
  by_cases hmem : n ∈ (half (isInside point p) s).children k
  · rw [hany.2 hmem]
    refine .asStored h fun n' hn' => ?_
    obtain rfl : n = n' := List.singleton_inj.1 (List.append_cancel_left (hpoint.symm.trans hn'))
    exact hmem
  · rw [Bool.eq_false_iff.2 (mt hany.1 hmem)]
    exact .withPoint h hpoint hmem

theorem shown_readDir (h : ∀ mounted, (half mounted s).WellFormed)
    (hrun : (overMemories point).fileSystem.readDir p s = (.ok l, s')) :
    s' = s ∧ Shown point p s l.entries := by
  have hlists := Memory.lists_readDir (h (isInside point p)) (ofNames (namesThere point p))
  by_cases hpoint : ∃ n, point.names = p.names ++ [n]
  · obtain ⟨n, hn⟩ := hpoint
    rw [readDir_parent hn] at hrun
    generalize (half (isInside point p) s).readDir (ofNames (namesThere point p)) = r
      at hlists hrun
    cases hlists with
    | entries hk hnode hdir =>
      simp only [Memory.map_listedIn] at hrun
      cases hrun
      exact ⟨rfl, shown_withPointOnce ⟨hk, Memory.sight_of_dir hnode hdir⟩ hn⟩
    | missing hk hfree =>
      have hshown := shown_withPointOnce ⟨hk, Memory.sight_of_free hfree⟩ hn
      rw [Memory.entriesIn, (h _).children_eq_nil ((h _).free_concat hfree)] at hshown
      cases hrun
      exact ⟨rfl, hshown⟩
    | @refused e hother => cases e <;> first | exact absurd rfl hother | cases hrun
  · rw [readDir_side hpoint] at hrun
    generalize (half (isInside point p) s).readDir (ofNames (namesThere point p)) = r
      at hlists hrun
    cases hlists with
    | entries hk hnode hdir =>
      simp only [Except.map, Memory.map_listedIn] at hrun
      cases hrun
      exact ⟨rfl, .asStored ⟨hk, Memory.sight_of_dir hnode hdir⟩ fun n hn => absurd ⟨n, hn⟩ hpoint⟩
    | missing => cases hrun
    | refused => cases hrun

variable {e : DirEntry}

theorem mem_mergeSort_point : e ∈ ((half (isInside point p) s).entriesIn k p.names ++
      [pointEntry point.fromTop top]).mergeSort nameLE ↔
    e ∈ (half (isInside point p) s).entriesIn k p.names ∨ e = pointEntry point.fromTop top := by
  rw [List.mem_mergeSort, List.mem_append, List.mem_singleton]

/-- All that is listed is listed below the directory. -/
theorem Shown.path (h : Shown point p s entries) (he : e ∈ entries) :
    ∃ n, e.path = ofNames (p.names ++ [n]) := by
  have hstored {k : Key} (he : e ∈ (half (isInside point p) s).entriesIn k p.names) :
      ∃ n, e.path = ofNames (p.names ++ [n]) := by
    obtain ⟨n, -, rfl⟩ := Memory.mem_entriesIn.1 he
    exact ⟨n, rfl⟩
  cases h with
  | asStored => exact hstored he
  | @withPoint k n _ hpoint =>
    rcases mem_mergeSort_point.1 he with he | rfl
    · exact hstored he
    · exact ⟨n, by rw [pointEntry, fromTop_eq, hpoint]⟩

theorem fileName?_of_path (h : e.path = ofNames (names ++ [n])) :
    e.path.fileName? = some n.bytes ∧ e.fileName = n.bytes := by
  have hlast : e.path.fileName? = some n.bytes := by rw [h, fileName?_ofNames_concat]
  exact ⟨hlast, by rw [DirEntry.fileName, hlast]; rfl⟩

theorem Shown.sorted (h : Shown point p s entries) (hs : ∀ mounted, (half mounted s).WellFormed) :
    entries.Pairwise fun e e' => e.fileName < e'.fileName := by
  cases h with
  | asStored => exact Memory.sorted_entriesIn (hs _) _ _
  | @withPoint k n _ hpoint hfree =>
    have hpath : (pointEntry point.fromTop (s.2.stat Path.top)).path =
        ofNames (p.names ++ [n]) := by rw [pointEntry, fromTop_eq, hpoint]
    apply sorted_mergeSort
    · intro e he
      rcases List.mem_append.1 he with he | he
      · obtain ⟨n', -, rfl⟩ := Memory.mem_entriesIn.1 he
        rw [(fileName?_of_path rfl).1, (fileName?_of_path rfl).2]
      · rw [List.mem_singleton.1 he, (fileName?_of_path hpath).1, (fileName?_of_path hpath).2]
    · rw [List.pairwise_append]
      refine ⟨(Memory.sorted_entriesIn (hs _) _ _).imp fun hlt heq => ?_,
        List.pairwise_singleton .., fun e he e' he' => ?_⟩
      · rw [heq] at hlt
        exact List.lt_irrefl _ hlt
      · obtain ⟨n', hn', rfl⟩ := Memory.mem_entriesIn.1 he
        rw [List.mem_singleton.1 he', (fileName?_of_path hpath).2, Memory.fileName_entryIn]
        intro heq
        exact hfree (Name.ext heq ▸ hn')

/-- The mountpoint in its parent's listing is what the mount says it is, a directory. -/
theorem lstat_pointEntry (h : s.2.WellFormed) :
    let e := pointEntry point.fromTop (s.2.stat Path.top)
    (overMemories point).fileSystem.lstat e.path s = (e.metadata, s) ∧
      ∃ d, e.metadata = .ok d ∧ d.isDir = true := by
  intro e
  obtain ⟨d, hstat, hlstat, hdir⟩ := h.describe_top
  have hnames : e.path.names = point.names := names_fromTop point
  have hshown : e.metadata = .ok (d.named point.fromTop) := by
    show (s.2.stat Path.top).map _ = _
    rw [hstat, ← hdir]
    rfl
  refine ⟨?_, d.named point.fromTop, hshown, ?_⟩
  · rw [lstat_point hnames, hlstat, hshown]
    rfl
  · rw [Metadata.isDir, Metadata.named, hdir]
    rfl

theorem Shown.has_point (h : Shown point p s entries) (hpoint : point.names = p.names ++ [n]) :
    ∃ e ∈ entries, e.path.names = point.names := by
  cases h with
  | asStored _ hlisted =>
    refine ⟨_, Memory.mem_entriesIn.2 ⟨n, hlisted n hpoint, rfl⟩, ?_⟩
    exact (names_ofNames _).trans hpoint.symm
  | withPoint => exact ⟨_, mem_mergeSort_point.2 (.inr rfl), names_fromTop point⟩

/-- What is stored is described as its path is, but for what the tree below has at the mountpoint,
which is listed as such. -/
theorem Reaches.described (h : Reaches point p s k) (hs : ∀ mounted, (half mounted s).WellFormed)
    (he : e ∈ (half (isInside point p) s).entriesIn k p.names) :
    (e.path.names ≠ point.names →
      (overMemories point).fileSystem.lstat e.path s = (e.metadata, s)) ∧
    (e.path.names = point.names → ∃ d, s.1.lstat point.fromTop = .ok d ∧ e.metadata = .ok d) := by
  obtain ⟨n, hn, rfl⟩ := Memory.mem_entriesIn.1 he
  have hnames : ((half (isInside point p) s).entryIn k p.names n).path.names = p.names ++ [n] :=
    names_ofNames _
  rw [hnames]
  refine ⟨h.lstat_entryIn, fun hpoint => ?_⟩
  obtain ⟨node, hnode⟩ := (hs _).mem_children_iff.1 hn
  have hdescribed := Memory.describe_of_stored hnode n.bytes
  exact ⟨_, (h.lstat_under hpoint.symm).trans hdescribed, hdescribed⟩

theorem Shown.described (h : Shown point p s entries) (hs : ∀ mounted, (half mounted s).WellFormed)
    (he : e ∈ entries) :
    (e.path.names ≠ point.names →
      (overMemories point).fileSystem.lstat e.path s = (e.metadata, s)) ∧
    (e.path.names = point.names →
      (s.1.lstat point.fromTop = .error .entityNotFound ∧
        (overMemories point).fileSystem.lstat e.path s = (e.metadata, s) ∧
        ∃ d, e.metadata = .ok d ∧ d.isDir = true) ∨
      ∃ d, s.1.lstat point.fromTop = .ok d ∧ e.metadata = .ok d) := by
  cases h with
  | asStored hreaches =>
    obtain ⟨hother, hpoint⟩ := hreaches.described hs he
    exact ⟨hother, fun heq => .inr (hpoint heq)⟩
  | @withPoint k n hreaches hpoint hfree =>
    rcases mem_mergeSort_point.1 he with he | rfl
    · obtain ⟨hother, hpoint⟩ := hreaches.described hs he
      exact ⟨hother, fun heq => .inr (hpoint heq)⟩
    · refine ⟨fun hother => absurd (names_fromTop point) hother, fun _ => .inl ⟨?_, ?_⟩⟩
      · have hnone : (half (isInside point p) s).nodeAt (k ++ [n]) = none := by
          by_contra hsome
          exact hfree ((hs _).mem_children_iff.2 (Option.ne_none_iff_exists'.1 hsome))
        rw [hreaches.lstat_under hpoint]
        exact Memory.describe_of_free (hs _) hnone _
      · exact lstat_pointEntry (hs true)

end Entries

/-- After any calls to two trees, of which the second is mounted on the first, a listing through the
mount changes neither. Its entries are in the order of their names, and no two have the same path.
It has the mountpoint if it is that of the mountpoint's parent. Every other entry is described as
the mount describes its path. So is the mountpoint, as a directory, if the first tree has nothing
there; otherwise it is described as what the first tree has there. -/
theorem run_listing (calls calls' : List Memory.Call) (point p : Path) :
    let s := ((Memory.Session.run calls).memory, (Memory.Session.run calls').memory)
    let fs := (overMemories point).fileSystem
    ∀ l s', fs.readDir p s = (.ok l, s') → s' = s ∧
      (l.entries.Pairwise fun e e' => e.fileName < e'.fileName ∧ e.path.same e'.path = false) ∧
      ((Operation.readDir p : Operation Memory.Handle Listing).ShowsPoint point →
        ∃ e ∈ l.entries, e.path.names = point.names) ∧
      ∀ e ∈ l.entries,
        (e.path.names ≠ point.names → fs.lstat e.path s = (e.metadata, s)) ∧
        (e.path.names = point.names →
          (s.1.lstat point.fromTop = .error .entityNotFound ∧
            fs.lstat e.path s = (e.metadata, s) ∧ ∃ d, e.metadata = .ok d ∧ d.isDir = true) ∨
          ∃ d, s.1.lstat point.fromTop = .ok d ∧ e.metadata = .ok d) := by
  intro s fs l s' hrun
  have hs (mounted : Bool) : (half mounted s).WellFormed := by
    cases mounted <;> exact Memory.Session.wellFormed_run _
  obtain ⟨rfl, hshown⟩ := shown_readDir hs hrun
  refine ⟨rfl, ?_, fun hparent => ?_, fun e he => hshown.described hs he⟩
  · refine (hshown.sorted hs).imp_of_mem fun {e e'} he he' hlt => ⟨hlt, ?_⟩
    obtain ⟨n, hn⟩ := hshown.path he
    obtain ⟨n', hn'⟩ := hshown.path he'
    rw [(fileName?_of_path hn).2, (fileName?_of_path hn').2] at hlt
    rw [hn, hn', Bool.eq_false_iff, ne_eq, same_ofNames_iff, List.append_cancel_left_eq,
      List.singleton_inj]
    rintro rfl
    exact List.lt_irrefl _ hlt
  · obtain ⟨n, hn⟩ := showsPoint_iff.1 hparent
    exact hshown.has_point hn

/-- A directory `z` in the first tree. -/
private def besideThePoint : List Memory.Call := [.createDirAll ⟨[47, 122]⟩ 0o755]

/-- The mountpoint `/m` is listed beside a directory. -/
theorem run_listing_beside :
    let s := ((Memory.Session.run besideThePoint).memory, (Memory.Session.run []).memory)
    let fs := (overMemories ⟨[47, 109]⟩).fileSystem
    ∃ l, fs.readDir Path.top s = (.ok l, s) ∧
      (l.entries.Pairwise fun e e' => e.fileName < e'.fileName ∧ e.path.same e'.path = false) ∧
      ∃ e ∈ l.entries, fs.lstat e.path s = (e.metadata, s) ∧
        ∃ d, e.metadata = .ok d ∧ d.isDir = true := by
  intro s fs
  obtain ⟨l, hrun⟩ : ∃ l, fs.readDir Path.top s = (.ok l, s) := ⟨_, rfl⟩
  obtain ⟨-, hsorted, hpoint, hdescribed⟩ :=
    run_listing besideThePoint [] ⟨[47, 109]⟩ Path.top l s hrun
  obtain ⟨e, he, hnames⟩ := hpoint ⟨by decide, rfl⟩
  refine ⟨l, hrun, hsorted, e, he, ?_⟩
  rcases (hdescribed e he).2 hnames with ⟨-, hsame, hdir⟩ | ⟨d, hthere, -⟩
  · exact ⟨hsame, hdir⟩
  · cases hthere

/-- A file at the mountpoint in the first tree. -/
private def atThePoint : List Memory.Call := [.openFile ⟨[47, 109]⟩ .creating]

/-- A file below the mountpoint is listed as the file that it is, but the mount describes its path
as that of a directory. -/
theorem run_listing_covered :
    let s := ((Memory.Session.run atThePoint).memory, (Memory.Session.run []).memory)
    let fs := (overMemories ⟨[47, 109]⟩).fileSystem
    ∃ e, fs.readDir Path.top s = (.ok ⟨[e]⟩, s) ∧ e.path = ⟨[47, 109]⟩ ∧
      e.metadata.map (·.isDir) = .ok false ∧
      (fs.lstat e.path s).1.map (·.isDir) = .ok true :=
  ⟨_, rfl, rfl, rfl, rfl⟩

end Mount

end ConfinedFs
