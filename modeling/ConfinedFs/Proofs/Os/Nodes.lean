import ConfinedFs.Os.Calls
import ConfinedFs.Proofs.Triple

/-!
What the primitive changes of the tree do to its nodes. A change of one node
leaves all others as they are, and no change makes a node disappear.
-/

namespace ConfinedFs.Os

/-- The node after a change of what it holds as a directory. -/
def Inode.mapDir (f : Directory → Directory) : Inode → Inode
  | .directory d => .directory (f d)
  | n => n

namespace Tree

variable {t : Tree} {i j dir : NodeId} {d : Directory} {f : Directory → Directory}

theorem dir?_eq_some_iff : t.dir? i = some d ↔ t.node? i = some (.directory d) := by
  unfold dir?
  split
  · next e h => simp [h]
  · next h =>
    constructor
    · intro hd
      cases hd
    · intro hd
      exact absurd hd (h d)

/-- Whether a node is a directory and which one depends on the node alone. -/
theorem dir?_congr {u : Tree} (h : t.node? i = u.node? i) : t.dir? i = u.dir? i := by
  unfold dir?
  rw [h]

theorem isDir_iff : t.isDir i = true ↔ ∃ d, t.dir? i = some d := Option.isSome_iff_exists

theorem node?_isSome_of_dir? (h : t.dir? i = some d) : (t.node? i).isSome := by
  rw [dir?_eq_some_iff.1 h]
  rfl

theorem node?_isSome_of_demand {a : Access} (h : t.demand a i = .ok ()) : (t.node? i).isSome := by
  unfold demand at h
  split at h
  · next hnode => simp [hnode]
  · cases h

theorem report_eq_ok_iff {s : Report} :
    t.report i = .ok s ↔ ∃ n, t.node? i = some n ∧ s = .ofInode n := by
  unfold report
  cases t.node? i <;> simp [eq_comm]

/-- What is kept of a report depends on the node alone. -/
theorem stat_eq_ok_iff {s : Stat} :
    t.stat i = .ok s ↔ ∃ n, t.node? i = some n ∧ s = .ofReport (.ofInode n) := by
  unfold stat report
  cases t.node? i <;> simp [Except.map, eq_comm]

/-- The system tells a directory from anything else. -/
theorem isDir_eq_of_stat {s : Stat} (h : t.stat i = .ok s) : s.isDir = t.isDir i := by
  obtain ⟨n, hnode, rfl⟩ := stat_eq_ok_iff.1 h
  unfold isDir dir?
  rw [hnode]
  cases n <;> rfl

/-- There is nothing to say only if the identity is that of no node. -/
theorem stat_eq_error {e : Errno} (h : t.stat i = .error e) : e = .badDescriptor := by
  unfold stat report at h
  cases hnode : t.node? i with
  | none =>
    rw [hnode] at h
    exact (Except.error.inj h).symm
  | some n =>
    rw [hnode] at h
    cases h

theorem node?_isSome_of_stat {s : Stat} (h : t.stat i = .ok s) : (t.node? i).isSome := by
  obtain ⟨n, hnode, _⟩ := stat_eq_ok_iff.1 h
  simp [hnode]

theorem node?_isSome_of_link? {target : Path} (h : t.link? i = some target) :
    (t.node? i).isSome := by
  unfold link? at h
  split at h
  · next hnode => simp [hnode]
  · cases h

theorem dir?_put_self (t : Tree) (i : NodeId) (n : Inode) :
    (t.put i n).dir? i = match n with | .directory d => some d | _ => none := by
  unfold dir?
  rw [node?_put, if_pos rfl]
  cases n <;> rfl

theorem dir?_put_of_ne (n : Inode) (h : j ≠ i) : (t.put i n).dir? j = t.dir? j :=
  dir?_congr (by rw [node?_put, if_neg h])

theorem node?_modifyDir (t : Tree) (i : NodeId) (f : Directory → Directory) (j : NodeId) :
    (t.modifyDir i f).node? j = if j = i then (t.node? i).map (·.mapDir f) else t.node? j := by
  unfold modifyDir
  split
  · next d hd =>
    rw [node?_put, dir?_eq_some_iff.1 hd]
    rfl
  · next hd =>
    by_cases h : j = i
    · subst h
      rw [if_pos rfl]
      cases hnode : t.node? j with
      | none => rfl
      | some n =>
        cases n with
        | directory d => rw [dir?_eq_some_iff.2 hnode] at hd; cases hd
        | file perm data => rfl
        | symlink standing target => rfl
        | special perm => rfl
    · rw [if_neg h]

theorem node?_modifyDir_of_ne (f : Directory → Directory) (h : j ≠ i) :
    (t.modifyDir i f).node? j = t.node? j := by
  rw [node?_modifyDir, if_neg h]

theorem dir?_modifyDir (t : Tree) (i : NodeId) (f : Directory → Directory) (j : NodeId) :
    (t.modifyDir i f).dir? j = if j = i then (t.dir? i).map f else t.dir? j := by
  by_cases h : j = i
  · subst h
    rw [if_pos rfl]
    unfold dir?
    rw [node?_modifyDir, if_pos rfl]
    cases hnode : t.node? j with
    | none => rfl
    | some n => cases n <;> rfl
  · rw [if_neg h]
    exact dir?_congr (node?_modifyDir_of_ne f h)

theorem dir?_modifyDir_self (hd : t.dir? i = some d) (f : Directory → Directory) :
    (t.modifyDir i f).dir? i = some (f d) := by
  rw [dir?_modifyDir, if_pos rfl, hd]
  rfl

theorem dir?_modifyDir_of_ne (f : Directory → Directory) (h : j ≠ i) :
    (t.modifyDir i f).dir? j = t.dir? j := by
  rw [dir?_modifyDir, if_neg h]

theorem modifyDir_of_dir?_eq_none (h : t.dir? i = none) : t.modifyDir i f = t := by
  rw [modifyDir, h]

/-- A directory stays a directory and a file stays a file. -/
theorem isDir_modifyDir (t : Tree) (i : NodeId) (f : Directory → Directory) (j : NodeId) :
    (t.modifyDir i f).isDir j = t.isDir j := by
  unfold isDir
  rw [dir?_modifyDir]
  by_cases h : j = i
  · subst h
    simp
  · rw [if_neg h]

theorem node?_isSome_modifyDir (t : Tree) (i : NodeId) (f : Directory → Directory) (j : NodeId) :
    ((t.modifyDir i f).node? j).isSome = (t.node? j).isSome := by
  rw [node?_modifyDir]
  by_cases h : j = i
  · subst h
    simp
  · rw [if_neg h]

theorem dir?_link (t : Tree) (dir : NodeId) (n : Name) (i j : NodeId) :
    (t.link dir n i).dir? j =
      if j = dir then
        (t.dir? dir).map fun d => { d with entries := Association.insert n i d.entries }
      else t.dir? j :=
  dir?_modifyDir t dir _ j

theorem searched_eq_ok_iff : t.searched dir = .ok d ↔
    t.dir? dir = some d ∧ t.demand .search dir = .ok () := by
  unfold searched
  cases t.dir? dir with
  | none => simp [throw, throwThe, MonadExceptOf.throw]
  | some s =>
    cases t.demand .search dir with
    | error e => simp [bind, Except.bind]
    | ok => simp [bind, Except.bind, pure, Except.pure]

theorem lookup_eq_ok_iff {n : Name} : t.lookup dir n = .ok i ↔
    ∃ d, t.searched dir = .ok d ∧ d.removed = false ∧ n.bytes.length ≤ maxName ∧
      d.entries.lookup n = some i := by
  unfold lookup
  cases t.searched dir with
  | error e => simp [bind, Except.bind]
  | ok d =>
    by_cases hremoved : d.removed = true
    · simp [bind, Except.bind, throw, throwThe, MonadExceptOf.throw, hremoved]
    · by_cases hlength : n.bytes.length ≤ maxName
      · cases hentry : d.entries.lookup n <;>
          simp [bind, Except.bind, pure, Except.pure, throw, throwThe, MonadExceptOf.throw,
            hremoved, hlength, hentry, Nat.not_lt.2 hlength]
      · simp [bind, Except.bind, throw, throwThe, MonadExceptOf.throw, hremoved, hlength,
          Nat.not_le.1 hlength]

/-- A name that is found is that of an entry. -/
theorem entry_of_lookup {n : Name} (h : t.lookup dir n = .ok i) :
    ∃ d, t.dir? dir = some d ∧ d.removed = false ∧ d.entries.lookup n = some i := by
  obtain ⟨d, hd, hremoved, _, hentry⟩ := lookup_eq_ok_iff.1 h
  exact ⟨d, (searched_eq_ok_iff.1 hd).1, hremoved, hentry⟩

theorem mem_entries_of_lookup {n : Name} (h : t.lookup dir n = .ok i) :
    ∃ d, t.dir? dir = some d ∧ (n, i) ∈ d.entries := by
  obtain ⟨d, hd, _, hentry⟩ := entry_of_lookup h
  exact ⟨d, hd, Association.mem_of_lookup hentry⟩

/-- What occupies a name is what the name stands for. -/
theorem lookup_of_occupant {n : Name} (h : t.occupant (.entry dir n) = .ok (some i)) :
    t.lookup dir n = .ok i := by
  simp only [occupant] at h
  split at h
  · next j hlookup =>
    cases h
    exact hlookup
  · split at h <;> cases h

theorem isDir_of_occupant {n : Name} {found : Option NodeId}
    (h : t.occupant (.entry dir n) = .ok found) : t.isDir dir = true := by
  rw [isDir]
  cases hd : t.dir? dir with
  | some d => rfl
  | none =>
    simp only [occupant, lookup, searched, hd] at h
    cases h

theorem occupant_of_existing {place : Place} (h : t.existing place = .ok i) :
    t.occupant place = .ok (some i) := by
  obtain ⟨found, hoccupant, hfound⟩ := exists_of_bind_eq_ok h
  cases found with
  | none => cases hfound
  | some j =>
    cases hfound
    exact hoccupant

theorem lookup_of_existing {n : Name} (h : t.existing (.entry dir n) = .ok i) :
    t.lookup dir n = .ok i :=
  lookup_of_occupant (occupant_of_existing h)

/-- What the system says about a place it says about the node there. -/
theorem statAt_eq_ok {place : Place} {s : Stat} (h : t.statAt place = .ok s) :
    ∃ i, t.existing place = .ok i ∧ t.stat i = .ok s :=
  exists_of_bind_eq_ok h

theorem eq_entry_of_placeIn {place : Place} {n : Name} (h : placeIn dir n = .ok place) :
    place = .entry dir n := by
  obtain ⟨_, _, hplace⟩ := exists_of_bind_eq_ok h
  cases hplace
  rfl

/-- What has been asked about a name in a directory has been asked about the entry. -/
theorem of_placeIn_bind {α : Type} {n : Name} {f : Place → Except Errno α} {a : α}
    (h : (placeIn dir n).bind f = .ok a) :
    placeIn dir n = .ok (.entry dir n) ∧ f (.entry dir n) = .ok a := by
  obtain ⟨place, hplace, hfound⟩ := exists_of_bind_eq_ok h
  cases eq_entry_of_placeIn hplace
  exact ⟨hplace, hfound⟩

theorem placeIn_ne_noEntry {n : Name} : placeIn dir n ≠ .error .noEntry := by
  unfold placeIn checkPath checkZero checkLength
  split
  · simp [bind, Except.bind, Errno.invalid, Errno.noEntry]
  · split <;> simp [bind, Except.bind, pure, Except.pure, Errno.nameTooLong, Errno.noEntry]

theorem openDir_eq_ok_iff : t.openDir i = .ok j ↔
    j = i ∧ t.isDir i = true ∧ t.demand .read i = .ok () := by
  unfold openDir
  cases t.isDir i with
  | false => simp [bind, Except.bind, throw, throwThe, MonadExceptOf.throw]
  | true =>
    cases t.demand .read i with
    | error e => simp [bind, Except.bind]
    | ok => simp [bind, Except.bind, pure, Except.pure, eq_comm]

/-- Opening gives the directory that is at the place. -/
theorem existing_of_openDirAt {place : Place} (h : t.openDirAt place = .ok i) :
    t.existing place = .ok i ∧ t.isDir i = true := by
  obtain ⟨j, hexisting, hopen⟩ := exists_of_bind_eq_ok h
  obtain ⟨rfl, hdir, _⟩ := openDir_eq_ok_iff.1 hopen
  exact ⟨hexisting, hdir⟩

/-- A directory that is opened by its name is that of an entry. -/
theorem mem_entries_of_openDirAt {n : Name} (h : t.openDirAt (.entry dir n) = .ok i) :
    ∃ d, t.dir? dir = some d ∧ (n, i) ∈ d.entries ∧ t.isDir i = true := by
  obtain ⟨hexisting, hisDir⟩ := existing_of_openDirAt h
  obtain ⟨d, hd, hmem⟩ := mem_entries_of_lookup (lookup_of_existing hexisting)
  exact ⟨d, hd, hmem, hisDir⟩

end Tree

end ConfinedFs.Os
