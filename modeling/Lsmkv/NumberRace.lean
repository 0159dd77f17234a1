import Lsmkv.Lib.Deferred
import Lsmkv.Run

/-!
# A number that goes back beside a writer

When `BuildWhenCompaction` cannot open a value log it gives the number back:
`ReuseVLogFileNumber` (`src/include/version.h`) tests that the number was the last one, and then
stores it.  Between the test and the store the writers go on (`Machine.racing`).

As long as no write finds its value log full in between, and takes a number, what the writers do
does not depend on the counter (`Machine.Step.reuse`).  So the store could have been made at once,
and the machines that are reached are those of `Machine.Reachable`, but for the number that is still
to be stored (`Machine.Raced.reachable`).  A write that takes a number makes the compactions that
follow hand out the number of the open value log again.
-/

namespace Lsmkv

open ByteCode Files Deferring Relation

variable {crc32c : Bytes → ℕ}

/-! ## The store of a number -/

/-- The store of `ReuseVLogFileNumber`. -/
def Store.reuse (fileNo : ℕ) (s : Store) : Store := { s with lastVlogFileNo := fileNo }

namespace Store

variable {s s' : Store} (fileNo : ℕ)

@[simp] theorem reuse_mem : (s.reuse fileNo).mem = s.mem := rfl

@[simp] theorem reuse_imm : (s.reuse fileNo).imm = s.imm := rfl

@[simp] theorem reuse_lastSequence : (s.reuse fileNo).lastSequence = s.lastSequence := rfl

@[simp] theorem reuse_levels : (s.reuse fileNo).levels = s.levels := rfl

@[simp] theorem reuse_sstFiles : (s.reuse fileNo).sstFiles = s.sstFiles := rfl

theorem writeImpl_reuse {w : Write} {garbage : VLogEntryInfo} {height : ℕ}
    (room : s.vlog.full w.value.length = .ok false)
    (ok : s.writeImpl crc32c w garbage height = .ok s') :
    (s.reuse fileNo).writeImpl crc32c w garbage height = .ok (s'.reuse fileNo) := by
  simp only [writeImpl, reuse, room, Outcome.ok_bind, Bool.false_eq_true, if_false] at ok ⊢
  obtain ⟨r, happend, hok⟩ := Outcome.bind_eq_ok.mp ok
  rw [happend, ← Outcome.ok.inj hok]
  rfl

theorem readValue_reuse (crc32c : Bytes → ℕ) (s : Store) (info : VLogEntryInfo) :
    (s.reuse fileNo).readValue crc32c info
      = ((s.readValue crc32c info).1, (s.readValue crc32c info).2.reuse fileNo) := by
  simp only [readValue, reuse]
  split
  · rfl
  · split
    · rfl
    · rfl

theorem resolve_reuse (crc32c : Bytes → ℕ) (s : Store) (found : Outcome VLogEntryInfo) :
    (s.reuse fileNo).resolve crc32c found
      = ((s.resolve crc32c found).1, (s.resolve crc32c found).2.reuse fileNo) := by
  cases found with
  | ok info =>
      simp only [resolve]
      split
      · rfl
      · exact readValue_reuse fileNo crc32c s info
  | fail c => rfl
  | fault => rfl

theorem getImpl_reuse (crc32c : Bytes → ℕ) (s : Store) (key : Bytes) :
    (s.reuse fileNo).getImpl crc32c key
      = ((s.getImpl crc32c key).1, (s.getImpl crc32c key).2.reuse fileNo) := by
  simp only [getImpl, reuse_mem, reuse_imm, reuse_lastSequence, reuse_levels, reuse_sstFiles]
  split
  · exact resolve_reuse fileNo crc32c s _
  · split
    · rfl
    · by_cases hempty : s.levels.isEmpty = true
      · simp only [if_pos hempty]
        exact if_pos hempty
      · simp only [if_neg hempty]
        exact (if_neg hempty).trans (resolve_reuse fileNo crc32c s _)

theorem handOver_reuse (ok : s.handOver = .ok s') :
    (s.reuse fileNo).handOver = .ok (s'.reuse fileNo) := by
  simp only [handOver, reuse] at ok ⊢
  split at ok
  · exact absurd ok (by simp)
  · rw [← Outcome.ok.inj ok]

theorem expireAt_reuse {seq : ℕ} (ok : s.expireAt seq = .ok s') :
    (s.reuse fileNo).expireAt seq = .ok (s'.reuse fileNo) := by
  have heq : (s.reuse fileNo).expireAt seq = if s.lastSequence < seq then .fail .kCorruption
      else if seq < s.lastLivingSequence then .ok (s.reuse fileNo)
      else .ok (Store.reuse fileNo { s with lastLivingSequence := seq + 1 }) := rfl
  rw [heq]
  rw [expireAt] at ok
  split at ok
  · exact absurd ok (by simp)
  · rename_i hbelow
    rw [if_neg hbelow]
    split at ok
    · rename_i hlive
      rw [if_pos hlive, Outcome.ok.inj ok]
    · rename_i hlive
      rw [if_neg hlive, Outcome.ok.inj ok]

theorem runTask_reuse (i : ℕ) : (s.reuse fileNo).runTask i = (s.runTask i).reuse fileNo := by
  simp only [runTask, reuse]
  split
  · rfl
  · rfl

end Store

/-! ## The race -/

/-- The steps that do not wait for the background thread. -/
def Action.Foreground : Action → Prop
  | .write .. | .read _ | .handOver | .expireAt _ | .runTask _ => True
  | _ => False

namespace Machine

/-- A compaction that fails has found that its number was the last one, and is about to store it.
No file has the number. -/
structure GivesBack (m : Machine) (fileNo : ℕ) (m' : Machine) : Prop where
  idle : m.flushed = false
  same : m' = { m with store := m'.store }
  left : m.store.Interrupted m'.store
  last : m'.store.lastVlogFileNo = fileNo + 1
  taken : m.store.lastVlogFileNo ≤ fileNo
  absent : m'.store.vlogs.inode fileNo = none

/-- The machine with the number stored. -/
def reuse (fileNo : ℕ) (m : Machine) : Machine := { m with store := m.store.reuse fileNo }

/-- No write takes a number. -/
def Calm (m : Machine) : Action → Prop
  | .write w _ _ => m.store.vlog.full w.value.length = .ok false
  | _ => True

variable (crc32c) in
/-- **Runs in which a number goes back in two steps**, behind the steps `whole`.  The compaction
meets `cond`, and what is done between the test and the store meets `cond` and `between`. -/
def racing (whole : Machine → Machine → Prop) (cond between : Machine → Action → Prop) :
    Deferred Machine ℕ where
  step := whole
  begins m fileNo m' := cond m .compactFail ∧ m.GivesBack fileNo m'
  meanwhile m m' := ∃ a, a.Foreground ∧ cond m a ∧ between m a ∧ Step crc32c m a m'
  settle := reuse

variable (crc32c) in
/-- A step that meets a condition. -/
def Whole (cond : Machine → Action → Prop) (m m' : Machine) : Prop := ∃ a, cond m a ∧ Step crc32c m a m'

variable (crc32c) in
/-- What such a run reaches: a machine, and the number that is about to be stored. -/
def Raced (cond between : Machine → Action → Prop) (c : Machine × Option ℕ) : Prop :=
  ReflTransGen (racing crc32c (Whole crc32c cond) cond between).Next (.new, none) c

/-- Made at once, the store is part of a failing compaction. -/
theorem GivesBack.step {m m' : Machine} {fileNo : ℕ} (h : m.GivesBack fileNo m') :
    Step crc32c m .compactFail (m'.reuse fileNo) := by
  have hleft : m.store.Interrupted (m'.store.reuse fileNo) := by
    refine ⟨?_, h.left.fileno_le, h.taken, h.left.wellFormed, h.left.inode_eq, fun n hn => ?_,
      h.left.data_eq, h.left.sst_eq⟩
    · conv_lhs => rw [Store.reuse, h.left.same]
      rfl
    · rcases Nat.eq_or_lt_of_le hn with rfl | hlt
      · exact h.absent
      · exact h.left.inode_none n (h.last ▸ hlt)
  have heq : m'.reuse fileNo = { m with store := m'.store.reuse fileNo } := by
    conv_lhs => rw [reuse, h.same]
  rw [heq]
  exact .compactFail h.idle hleft

/-- **What the writers do meanwhile** does not depend on the counter, if they take no number. -/
theorem Step.reuse {m m' : Machine} {a : Action} (taken : Step crc32c m a m')
    (foreground : a.Foreground) (calm : m.Calm a) (fileNo : ℕ) :
    Step crc32c (m.reuse fileNo) a (m'.reuse fileNo) := by
  cases taken with
  | write ok => exact .write (Store.writeImpl_reuse fileNo calm ok)
  | @read info =>
      have hread : Step crc32c (m.reuse fileNo) (.read info) _ := .read
      rwa [show (m.reuse fileNo).store = m.store.reuse fileNo from rfl, Store.readValue_reuse] at hread
  | handOver ok => exact .handOver (Store.handOver_reuse fileNo ok)
  | expireAt ok => exact .expireAt (Store.expireAt_reuse fileNo ok)
  | @runTask i =>
      have hrun : Step crc32c (m.reuse fileNo) (.runTask i) _ := .runTask
      rwa [show (m.reuse fileNo).store = m.store.reuse fileNo from rfl, Store.runTask_reuse] at hrun
  | _ => exact foreground.elim

section Raced

variable {cond between : Machine → Action → Prop}

/-- The number that goes back decides nothing about the steps that may be taken. -/
def Insensitive (cond : Machine → Action → Prop) : Prop :=
  ∀ fileNo m a, a.Foreground → cond m a → cond (m.reuse fileNo) a

/-- The store can be made at once, if no number is taken meanwhile. -/
theorem racing_commutes {whole : Machine → Machine → Prop}
    (steps : ∀ {m m' : Machine}, Whole crc32c cond m m' → whole m m') (insensitive : Insensitive cond)
    (calm : ∀ m a, between m a → m.Calm a) : (racing crc32c whole cond between).Commutes where
  begins begun := steps ⟨_, begun.1, begun.2.step⟩
  meanwhile fileNo taken := by
    obtain ⟨a, foreground, meets, quiet, taken⟩ := taken
    exact steps ⟨a, insensitive fileNo _ a foreground meets,
      taken.reuse foreground (calm _ a quiet) fileNo⟩

variable (crc32c) in
/-- The machine with what is left stored is the machine with some number stored. -/
theorem settled_eq_reuse (whole : Machine → Machine → Prop) (cond between : Machine → Action → Prop)
    (c : Machine × Option ℕ) :
    ∃ fileNo, (racing crc32c whole cond between).settled c = c.1.reuse fileNo := by
  obtain ⟨m, pending⟩ := c
  cases pending with
  | none => exact ⟨m.store.lastVlogFileNo, rfl⟩
  | some fileNo => exact ⟨fileNo, rfl⟩

/-- Whole steps make a run of the machine. -/
theorem Reachable.of_steps {m : Machine} (run : ReflTransGen (Whole crc32c cond) .new m) :
    Reachable crc32c cond m := by
  induction run with
  | refl => exact .new
  | tail _ taken ih =>
      obtain ⟨a, meets, taken⟩ := taken
      exact .step ih meets taken

theorem Reachable.raced {m : Machine} (h : Reachable crc32c cond m) :
    Raced crc32c cond between (m, none) := by
  induction h with
  | new => exact .refl
  | step _ meets taken ih => exact ih.tail (.step ⟨_, meets, taken⟩)

/-- **Runs in which no number is taken meanwhile** are runs of the machine: with a number stored,
the machine is one that a run reaches. -/
theorem Raced.reachable {c : Machine × Option ℕ} (h : Raced crc32c cond between c)
    (insensitive : Insensitive cond) (calm : ∀ m a, between m a → m.Calm a) :
    ∃ fileNo, Reachable crc32c cond (c.1.reuse fileNo) := by
  obtain ⟨fileNo, heq⟩ := settled_eq_reuse crc32c (Whole crc32c cond) cond between c
  refine ⟨fileNo, heq ▸ .of_steps ?_⟩
  exact (racing_commutes (fun taken => taken) insensitive calm).settled_reachable h

/-- A compaction takes the next number and cannot open its log. -/
theorem givesBack {m : Machine} (idle : m.flushed = false)
    (fresh : ∀ n, m.store.lastVlogFileNo ≤ n → m.store.vlogs.inode n = none) :
    m.GivesBack m.store.lastVlogFileNo (m.reuse (m.store.lastVlogFileNo + 1)) where
  idle := idle
  same := rfl
  left := ⟨rfl, le_rfl, Nat.le_succ _, fun wf => wf, fun _ _ => rfl,
    fun n hn => fresh n (Nat.le_of_succ_le hn), fun _ _ => rfl, fun _ _ => rfl⟩
  last := rfl
  taken := le_rfl
  absent := fresh _ le_rfl

end Raced

end Machine

end Lsmkv
