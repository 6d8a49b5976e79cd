import ConfinedFs.Action
import ConfinedFs.Lock
import Mathlib.Data.List.Count
import Mathlib.Data.Nat.Bitwise

/-!
The holders of a lock. Whatever is asked of it, in any order and by anybody, the word of a lock
tells how it is held, as long as it is only given back by those who hold it: it is the writer's bit
if there is a writer, who is then the only holder, and the number of readers otherwise. The one
thing that could mix these up is a count that reaches the writer's bit, for which there have to be
that many readers.
-/

namespace ConfinedFs.Lock

/-- What a lock is held for. -/
inductive Purpose where
  | reading
  | writing
  deriving DecidableEq

namespace Purpose

/-- Takes the lock if it is to be had. -/
def attempt : Purpose → Lock → Option Lock
  | reading => tryShared
  | writing => tryExclusive

/-- Takes the lock. -/
def take : Purpose → Lock → Except LockConflict Lock
  | reading => shared
  | writing => exclusive

/-- Gives the lock back. -/
def release : Purpose → Lock → Lock
  | reading => releaseShared
  | writing => releaseExclusive

/-- What it is when the lock is not to be had. -/
def conflict : Purpose → LockConflict
  | reading => .readWhileModified
  | writing => .modifiedWhileUsed

theorem take_eq (purpose : Purpose) (l : Lock) :
    purpose.take l = match purpose.attempt l with
      | some taken => .ok taken
      | none => .error purpose.conflict := by
  cases purpose <;> rfl

end Purpose

/-- A lock with those who hold it, each by a number and with what for. -/
structure Held where
  lock : Lock := free
  holders : List (Purpose × Nat) := []
  deriving DecidableEq

/-- Something that is asked of a lock on behalf of somebody. -/
inductive Request where
  | take (purpose : Purpose) (who : Nat)
  | attempt (purpose : Purpose) (who : Nat)
  | release (purpose : Purpose) (who : Nat)

namespace Held

/-- How many hold the lock for a purpose. -/
def count (h : Held) (purpose : Purpose) : Nat := h.holders.countP (·.1 = purpose)

/-- The lock in another state, with one more holder. -/
def add (purpose : Purpose) (who : Nat) (taken : Lock) (h : Held) : Held :=
  ⟨taken, (purpose, who) :: h.holders⟩

/-- The lock given back by one of its holders. -/
def drop (purpose : Purpose) (who : Nat) (h : Held) : Held :=
  ⟨purpose.release h.lock, h.holders.erase (purpose, who)⟩

/-- Is the lock to be had for a purpose? For reading nobody may write, and for writing nobody
may hold it at all. -/
def Admits (h : Held) : Purpose → Prop
  | .reading => h.count .writing = 0
  | .writing => h.holders = []

instance (h : Held) (purpose : Purpose) : Decidable (h.Admits purpose) := by
  cases purpose <;> exact inferInstanceAs (Decidable (_ = _))

end Held

namespace Request

/-- Does what is asked, and tells whether the lock has been taken or given back. -/
def perform : Request → Action LockConflict Held Bool
  | take purpose who => do
    let taken ← Action.query fun h => purpose.take h.lock
    Action.update (Held.add purpose who taken)
    return true
  | attempt purpose who => do
    match ← Action.look fun h => purpose.attempt h.lock with
    | some taken =>
      Action.update (Held.add purpose who taken)
      return true
    | none => return false
  | release purpose who => do
    Action.update (Held.drop purpose who)
    return true

/-- A lock is given back by one of its holders. -/
def Proper (h : Held) : Request → Prop
  | take _ _ | attempt _ _ => True
  | release purpose who => (purpose, who) ∈ h.holders

instance (h : Held) (r : Request) : Decidable (r.Proper h) := by
  cases r <;> simp only [Proper] <;> infer_instance

end Request

namespace Held

/-- What has become of a lock after all of the requests, in order. -/
def run (h : Held) (requests : List Request) : Held :=
  requests.foldl (fun h r => (r.perform h).2) h

/-- Whenever the lock is given back, it is by one of its holders. -/
def Proper : Held → List Request → Prop
  | _, [] => True
  | h, r :: rest => r.Proper h ∧ Proper (r.perform h).2 rest

instance : (h : Held) → (requests : List Request) → Decidable (h.Proper requests)
  | _, [] => inferInstanceAs (Decidable True)
  | h, r :: rest =>
    have := instDecidableProper (r.perform h).2 rest
    inferInstanceAs (Decidable (_ ∧ _))

/-- The word of a lock tells how it is held. -/
def Told (h : Held) : Prop :=
  (h.count .writing = 0 ∧ h.lock.word.toNat = h.count .reading) ∨
    (h.count .writing = 1 ∧ h.count .reading = 0 ∧ h.lock.word = writer)

variable {h : Held} {purpose : Purpose}

theorem writing_ne_reading : Purpose.writing ≠ .reading := nofun

theorem toNat_writer : writer.toNat = 2 ^ 63 := rfl

/-- The writer's bit is not set in a count below it. -/
theorem and_writer_eq_zero_iff (word : UInt64) : word &&& writer = 0 ↔ word.toNat < 2 ^ 63 := by
  have hlt := word.toNat_lt
  rw [← UInt64.toNat_inj, UInt64.toNat_and, toNat_writer, Nat.and_two_pow,
    Nat.testBit_eq_decide_div_mod_eq]
  simp
  omega

theorem holders_eq_nil_iff (h : Held) :
    h.holders = [] ↔ h.count .writing = 0 ∧ h.count .reading = 0 := by
  constructor
  · intro hnil
    rw [count, count, hnil]
    exact ⟨rfl, rfl⟩
  · rintro ⟨hwriting, hreading⟩
    apply List.eq_nil_iff_forall_not_mem.2
    rintro ⟨purpose, who⟩ hmem
    cases purpose with
    | reading => simpa using List.countP_eq_zero.1 hreading _ hmem
    | writing => simpa using List.countP_eq_zero.1 hwriting _ hmem

@[simp]
theorem count_add_self (who : Nat) (taken : Lock) :
    (h.add purpose who taken).count purpose = h.count purpose + 1 :=
  List.countP_cons_of_pos (by simp)

theorem count_add_of_ne {other : Purpose} (hne : other ≠ purpose) (who : Nat) (taken : Lock) :
    (h.add purpose who taken).count other = h.count other :=
  List.countP_cons_of_neg (by simpa using hne.symm)

theorem count_drop_self {who : Nat} (hmem : (purpose, who) ∈ h.holders) :
    (h.drop purpose who).count purpose + 1 = h.count purpose := by
  have hpos : 0 < h.count purpose := List.countP_pos_iff.2 ⟨_, hmem, by simp⟩
  have hcount : (h.drop purpose who).count purpose = h.count purpose - 1 := by
    rw [count, drop, List.countP_erase, if_pos ⟨hmem, by simp⟩, count]
  omega

theorem count_drop_of_ne {other : Purpose} (hne : other ≠ purpose) (who : Nat) :
    (h.drop purpose who).count other = h.count other := by
  rw [count, drop, List.countP_erase, if_neg (by simpa using fun _ => hne.symm), Nat.sub_zero,
    count]

section Asking

variable (ht : h.Told)

include ht

theorem Told.word_eq_zero_iff : h.lock.word = 0 ↔ h.holders = [] := by
  rw [holders_eq_nil_iff]
  obtain ⟨hwriting, hword⟩ | ⟨hwriting, hreading, hword⟩ := ht
  · rw [← UInt64.toNat_inj, hword, UInt64.toNat_zero]
    omega
  · rw [hword, hwriting]
    exact ⟨nofun, nofun⟩

/-- The lock is to be had for a purpose, and the word tells of one more holder then. For one more
reader the count has to stay below the writer's bit. -/
theorem Told.attempt_of_admits (hcount : h.count .reading < 2 ^ 63) (hadmits : h.Admits purpose)
    (who : Nat) :
    ∃ taken, purpose.attempt h.lock = some taken ∧ (h.add purpose who taken).Told := by
  cases purpose with
  | reading =>
    have hword : h.lock.word.toNat = h.count .reading := by
      rcases ht with ⟨_, hword⟩ | ⟨hwriting, _⟩
      · exact hword
      · rw [show h.count .writing = 0 from hadmits] at hwriting
        cases hwriting
    have hfree : h.lock.word &&& writer = 0 := (and_writer_eq_zero_iff _).2 (hword ▸ hcount)
    refine ⟨⟨h.lock.word + 1⟩, if_neg (not_not.2 hfree), .inl ⟨?_, ?_⟩⟩
    · rw [count_add_of_ne writing_ne_reading]
      exact hadmits
    · show (h.lock.word + 1).toNat = _
      rw [count_add_self, UInt64.toNat_add, hword, UInt64.toNat_one]
      omega
  | writing =>
    obtain ⟨hwriting, hreading⟩ := h.holders_eq_nil_iff.1 hadmits
    refine ⟨⟨writer⟩, if_pos (ht.word_eq_zero_iff.2 hadmits), .inr ⟨?_, ?_, rfl⟩⟩
    · rw [count_add_self, hwriting]
    · rw [count_add_of_ne writing_ne_reading.symm, hreading]

theorem Told.attempt_of_not_admits (hnot : ¬ h.Admits purpose) : purpose.attempt h.lock = none := by
  cases purpose with
  | reading =>
    have hword : h.lock.word = writer := by
      rcases ht with ⟨hwriting, _⟩ | ⟨_, _, hword⟩
      · exact absurd hwriting hnot
      · exact hword
    refine if_pos fun hfree => ?_
    rw [hword] at hfree
    cases hfree
  | writing => exact if_neg fun hzero => hnot (ht.word_eq_zero_iff.1 hzero)

/-- A holder that leaves is counted no more. -/
theorem Told.drop {who : Nat} (hmem : (purpose, who) ∈ h.holders) : (h.drop purpose who).Told := by
  have hcount := count_drop_self hmem
  cases purpose with
  | reading =>
    obtain ⟨hwriting, hword⟩ | ⟨_, hreading, _⟩ := ht
    · refine .inl ⟨?_, ?_⟩
      · rw [count_drop_of_ne writing_ne_reading, hwriting]
      · have hle : (1 : UInt64) ≤ h.lock.word := by
          rw [UInt64.le_iff_toNat_le, UInt64.toNat_one]
          omega
        show (h.lock.word - 1).toNat = _
        rw [UInt64.toNat_sub_of_le _ _ hle, UInt64.toNat_one]
        omega
    · omega
  | writing =>
    obtain ⟨hwriting, _⟩ | ⟨hwriting, hreading, _⟩ := ht
    · omega
    · refine .inl ⟨by omega, ?_⟩
      rw [count_drop_of_ne writing_ne_reading.symm, hreading]
      rfl

end Asking

section Performing

variable {taken : Lock} {who : Nat}

theorem perform_take_of_some (hattempt : purpose.attempt h.lock = some taken) :
    (Request.take purpose who).perform h = (.ok true, h.add purpose who taken) := by
  have htake : purpose.take h.lock = .ok taken := by rw [Purpose.take_eq, hattempt]
  exact Action.bind_apply_of_ok (Prod.ext htake rfl)

theorem perform_take_of_none (hattempt : purpose.attempt h.lock = none) :
    (Request.take purpose who).perform h = (.error purpose.conflict, h) := by
  have htake : purpose.take h.lock = .error purpose.conflict := by rw [Purpose.take_eq, hattempt]
  exact Action.bind_apply_of_error (Prod.ext htake rfl)

theorem perform_attempt_of_some (hattempt : purpose.attempt h.lock = some taken) :
    (Request.attempt purpose who).perform h = (.ok true, h.add purpose who taken) := by
  have hlook : (Action.look fun h => purpose.attempt h.lock : Action LockConflict Held _) h
      = (.ok (some taken), h) := by rw [Action.look_apply, hattempt]
  exact Action.bind_apply_of_ok hlook

theorem perform_attempt_of_none (hattempt : purpose.attempt h.lock = none) :
    (Request.attempt purpose who).perform h = (.ok false, h) := by
  have hlook : (Action.look fun h => purpose.attempt h.lock : Action LockConflict Held _) h
      = (.ok none, h) := by rw [Action.look_apply, hattempt]
  exact Action.bind_apply_of_ok hlook

/-- What fails to take the lock leaves everything as it was. -/
theorem perform_of_ne_ok_true {r : Request} (hne : (r.perform h).1 ≠ .ok true) :
    (r.perform h).2 = h := by
  cases r with
  | take purpose who =>
    cases hattempt : purpose.attempt h.lock with
    | none => rw [perform_take_of_none hattempt]
    | some taken => exact absurd (congrArg Prod.fst (perform_take_of_some hattempt)) hne
  | attempt purpose who =>
    cases hattempt : purpose.attempt h.lock with
    | none => rw [perform_attempt_of_none hattempt]
    | some taken => exact absurd (congrArg Prod.fst (perform_attempt_of_some hattempt)) hne
  | release purpose who => exact absurd rfl hne

theorem count_add_le (purpose other : Purpose) (who : Nat) (taken : Lock) :
    (h.add purpose who taken).count other ≤ h.count other + 1 := by
  rw [count, add, List.countP_cons, count]
  split <;> omega

theorem count_drop_le (purpose other : Purpose) (who : Nat) :
    (h.drop purpose who).count other ≤ h.count other :=
  List.erase_sublist.countP_le

/-- One request leaves a word that tells how the lock is held, and adds one reader at most. -/
theorem Told.perform {r : Request} (ht : h.Told) (hcount : h.count .reading < 2 ^ 63)
    (hproper : r.Proper h) :
    (r.perform h).2.Told ∧ (r.perform h).2.count .reading ≤ h.count .reading + 1 := by
  cases r with
  | take purpose who =>
    by_cases hadmits : h.Admits purpose
    · obtain ⟨taken, hattempt, htold⟩ := ht.attempt_of_admits hcount hadmits who
      rw [perform_take_of_some hattempt]
      exact ⟨htold, count_add_le ..⟩
    · rw [perform_take_of_none (ht.attempt_of_not_admits hadmits)]
      exact ⟨ht, Nat.le_succ _⟩
  | attempt purpose who =>
    by_cases hadmits : h.Admits purpose
    · obtain ⟨taken, hattempt, htold⟩ := ht.attempt_of_admits hcount hadmits who
      rw [perform_attempt_of_some hattempt]
      exact ⟨htold, count_add_le ..⟩
    · rw [perform_attempt_of_none (ht.attempt_of_not_admits hadmits)]
      exact ⟨ht, Nat.le_succ _⟩
  | release purpose who => exact ⟨ht.drop hproper, (count_drop_le ..).trans (Nat.le_succ _)⟩

/-- All of the requests together add at most as many readers as there are requests. -/
theorem Told.run {requests : List Request} (ht : h.Told)
    (hcount : h.count .reading + requests.length < 2 ^ 63) (hproper : h.Proper requests) :
    (h.run requests).Told ∧ (h.run requests).count .reading < 2 ^ 63 := by
  induction requests generalizing h with
  | nil => exact ⟨ht, hcount⟩
  | cons r rest ih =>
    rw [List.length_cons] at hcount
    obtain ⟨htold, hle⟩ := ht.perform (by omega) hproper.1
    have hrest : (r.perform h).2.count .reading + rest.length < 2 ^ 63 := by omega
    exact ih htold hrest hproper.2

end Performing

/-- A lock that does what a lock is for. -/
structure Sound (h : Held) : Prop where
  /-- The word is the writer's bit for a writer that is alone with it. -/
  word_eq_iff : h.lock.word.toNat = 2 ^ 63 ↔ h.count .writing = 1 ∧ h.count .reading = 0
  /-- Any other word is the number of readers, and nobody writes. -/
  word_eq : h.lock.word.toNat ≠ 2 ^ 63 →
    h.count .writing = 0 ∧ h.lock.word.toNat = h.count .reading
  /-- An attempt succeeds if the lock is to be had. -/
  attempt : ∀ purpose who,
    ((Request.attempt purpose who).perform h).1 = .ok (decide (h.Admits purpose))
  /-- So does taking it, which cannot be answered otherwise. -/
  take : ∀ purpose who,
    ((Request.take purpose who).perform h).1
      = if h.Admits purpose then .ok true else .error purpose.conflict
  /-- What does not succeed changes nothing. -/
  unchanged : ∀ r : Request, (r.perform h).1 ≠ .ok true → (r.perform h).2 = h
  /-- A lock that nobody holds is free. -/
  free : h.holders = [] → h.lock = free

theorem Told.sound (ht : h.Told) (hcount : h.count .reading < 2 ^ 63) : h.Sound where
  word_eq_iff := by
    obtain ⟨hwriting, hword⟩ | ⟨hwriting, hreading, hword⟩ := ht
    · omega
    · exact ⟨fun _ => ⟨hwriting, hreading⟩, fun _ => hword ▸ toNat_writer⟩
  word_eq := by
    obtain htold | ⟨_, _, hword⟩ := ht
    · exact fun _ => htold
    · exact fun hne => absurd (hword ▸ toNat_writer) hne
  attempt purpose who := by
    by_cases hadmits : h.Admits purpose
    · obtain ⟨taken, hattempt, _⟩ := ht.attempt_of_admits hcount hadmits who
      rw [perform_attempt_of_some hattempt, decide_eq_true hadmits]
    · rw [perform_attempt_of_none (ht.attempt_of_not_admits hadmits), decide_eq_false hadmits]
  take purpose who := by
    by_cases hadmits : h.Admits purpose
    · obtain ⟨taken, hattempt, _⟩ := ht.attempt_of_admits hcount hadmits who
      rw [perform_take_of_some hattempt, if_pos hadmits]
    · rw [perform_take_of_none (ht.attempt_of_not_admits hadmits), if_neg hadmits]
  unchanged _ := perform_of_ne_ok_true
  free hnil := congrArg Lock.mk (ht.word_eq_zero_iff.2 hnil)

/-- A lock that starts out free does what a lock is for after any requests, as long as it is only
given back by those who hold it. The bound is what the word has room for: with as many readers as
the writer's bit says, it would tell of a writer. -/
theorem sound_run (requests : List Request) (hlength : requests.length < 2 ^ 63)
    (hproper : Held.Proper {} requests) : (Held.run {} requests).Sound := by
  have hstart : Held.Told {} := .inl ⟨rfl, rfl⟩
  have hcount : (Held.count {} .reading) + requests.length < 2 ^ 63 := by
    rw [show Held.count {} .reading = 0 from rfl]
    omega
  obtain ⟨htold, hbelow⟩ := hstart.run hcount hproper
  exact htold.sound hbelow

/-- Two readers, a writer that comes too early and then gets it, and a reader that has to wait. -/
private def turns : List Request :=
  [.take .reading 1, .attempt .reading 2, .attempt .writing 3, .release .reading 1,
    .release .reading 2, .take .writing 3, .attempt .reading 1]

theorem sound_run_turns :
    turns.length < 2 ^ 63 ∧ Held.Proper {} turns ∧ (Held.run {} turns).holders = [(.writing, 3)] ∧
      (Held.run {} turns).Sound :=
  ⟨by decide, by decide, by decide, sound_run turns (by decide) (by decide)⟩

end Held

end ConfinedFs.Lock
