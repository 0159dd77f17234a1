import Lsmkv.Store

/-!
# Runs of the store

A run interleaves writes with the steps of the background thread.  `Machine` is the store
together with what a proof about runs has to remember: whether the flush of the immutable
memtable is finished while the memtable is still set, and the list of acknowledged writes,
in which the write with sequence number `n` is the element at `n`.

`Step` allows every step at every moment at which it makes sense, more often than the
code schedules it; `Scheduled` is what `Prepare` and `BackgroundCompaction` ask for before
they act.  A result about `Reachable` under any condition on steps covers the runs of the
code under that condition.
-/

namespace Lsmkv

open ByteCode Files

/-- The store, the place of the background thread, and the acknowledged writes. -/
structure Machine where
  store : Store
  flushed : Bool
  history : List Write

/-- The steps of a run. -/
inductive Action
  | write (w : Write) (garbage : VLogEntryInfo) (height : ℕ)
  | read (info : VLogEntryInfo)
  | handOver
  | flush
  | flushFail (leftover : Bool)
  | clearImm
  | compact (level : ℕ)
  | compactFail
  | expireAt (seq : ℕ)
  | runTask (i : ℕ)

/-- The steps that leave the memtables and the levels alone. -/
def Action.Quiet : Action → Prop
  | .read _ | .flushFail _ | .compactFail | .expireAt _ | .runTask _ => True
  | _ => False

/-- The memtables and the levels are the same in both stores. -/
structure Store.SameData (s s' : Store) : Prop where
  mem : s'.mem = s.mem
  imm : s'.imm = s.imm
  levels : s'.levels = s.levels
  lastSequence : s'.lastSequence = s.lastSequence
  live_le : s.lastLivingSequence ≤ s'.lastLivingSequence
  fileno_le : s.fileno ≤ s'.fileno

/-- What a compaction that fails may leave behind: numbers that were taken, and files
under them.  A number that goes back is stored with the step (`vlog_le`, `inode_none`); in
`Machine.racing` the writers go on before it is. -/
structure Store.Interrupted (s s' : Store) : Prop where
  same : s' = { s with
    fileno := s'.fileno
    lastVlogFileNo := s'.lastVlogFileNo
    vlogs := s'.vlogs
    sstFiles := s'.sstFiles }
  fileno_le : s.fileno ≤ s'.fileno
  vlog_le : s.lastVlogFileNo ≤ s'.lastVlogFileNo
  wellFormed : s.vlogs.WellFormed → s'.vlogs.WellFormed
  inode_eq : ∀ n < s.lastVlogFileNo, s'.vlogs.inode n = s.vlogs.inode n
  inode_none : ∀ n, s'.lastVlogFileNo ≤ n → s'.vlogs.inode n = none
  data_eq : ∀ i < s.vlogs.next, s'.vlogs.data i = s.vlogs.data i
  sst_eq : ∀ n < s.fileno, s'.sstFiles n = s.sstFiles n

/-- A value that is read leaves only a handle behind. -/
theorem Store.readValue_handles (crc32c : Bytes → ℕ) (s : Store) (info : VLogEntryInfo) :
    ∃ handles, (s.readValue crc32c info).2 = { s with handles := handles } := by
  simp only [Store.readValue]
  split
  · exact ⟨_, rfl⟩
  · split
    · exact ⟨_, rfl⟩
    · exact ⟨_, rfl⟩

/-- `GetImpl` reads at most one value. -/
theorem Store.getImpl_snd (crc32c : Bytes → ℕ) (s : Store) (key : Bytes) :
    (s.getImpl crc32c key).2 = s ∨
      ∃ info, (s.getImpl crc32c key).2 = (s.readValue crc32c info).2 := by
  have hresolve : ∀ found, (s.resolve crc32c found).2 = s ∨
      ∃ info, (s.resolve crc32c found).2 = (s.readValue crc32c info).2 := by
    intro found
    cases found with
    | ok info =>
        simp only [Store.resolve]
        split
        · exact .inl rfl
        · exact .inr ⟨info, rfl⟩
    | fail c => exact .inl rfl
    | fault => exact .inl rfl
  simp only [Store.getImpl]
  split
  · exact hresolve _
  · split
    · exact .inl rfl
    · split
      · exact .inl rfl
      · exact hresolve _

/-- A lookup leaves only a handle behind. -/
theorem Store.getImpl_handles (crc32c : Bytes → ℕ) (s : Store) (key : Bytes) :
    ∃ handles, (s.getImpl crc32c key).2 = { s with handles := handles } := by
  rcases s.getImpl_snd crc32c key with hs | ⟨info, hs⟩
  · exact ⟨s.handles, hs⟩
  · rw [hs]
    exact s.readValue_handles crc32c info

/-- `ExpireAt` changes only the bound, and only upwards. -/
theorem Store.expireAt_cases {s s' : Store} {seq : ℕ} (ok : s.expireAt seq = .ok s') :
    ∃ live, s' = { s with lastLivingSequence := live } ∧ s.lastLivingSequence ≤ live := by
  simp only [Store.expireAt] at ok
  split at ok
  · exact absurd ok (by simp)
  · split at ok
    · exact ⟨s.lastLivingSequence, (Outcome.ok.inj ok).symm, le_rfl⟩
    · rename_i hlive
      exact ⟨seq + 1, (Outcome.ok.inj ok).symm, (not_lt.mp hlive).trans (Nat.le_succ _)⟩

namespace Machine

/-- A store that was just opened. -/
def new : Machine := ⟨.new, false, []⟩

variable (crc32c : Bytes → ℕ)

/-- **One step of a run.**  There is one background thread, so it does not compact between
a flush and the release of the immutable memtable. -/
inductive Step : Machine → Action → Machine → Prop
  | write {m : Machine} {w : Write} {garbage : VLogEntryInfo} {height : ℕ} {s : Store}
      (ok : m.store.writeImpl crc32c w garbage height = .ok s) :
      Step m (.write w garbage height) ⟨s, m.flushed, m.history ++ [w]⟩
  | read {m : Machine} {info : VLogEntryInfo} :
      Step m (.read info) { m with store := (m.store.readValue crc32c info).2 }
  | handOver {m : Machine} {s : Store} (ok : m.store.handOver = .ok s) :
      Step m .handOver { m with store := s }
  | flush {m : Machine} {imm : MemTable} {s : Store} (idle : m.flushed = false)
      (full : m.store.imm = some imm) (ok : m.store.writeLevel0Table imm = .ok s) :
      Step m .flush { m with store := s, flushed := true }
  | flushFail {m : Machine} {leftover : Bool} (idle : m.flushed = false) :
      Step m (.flushFail leftover) { m with store := { m.store with
        sstFiles := Function.update m.store.sstFiles m.store.fileno leftover } }
  | clearImm {m : Machine} (done : m.flushed = true) :
      Step m .clearImm { m with store := m.store.clearImm, flushed := false }
  | compact {m : Machine} {level : ℕ} {s : Store} (idle : m.flushed = false)
      (ok : m.store.compactLevel crc32c level = .ok s) :
      Step m (.compact level) { m with store := s }
  | compactFail {m : Machine} {s : Store} (idle : m.flushed = false)
      (left : m.store.Interrupted s) : Step m .compactFail { m with store := s }
  | expireAt {m : Machine} {seq : ℕ} {s : Store} (ok : m.store.expireAt seq = .ok s) :
      Step m (.expireAt seq) { m with store := s }
  | runTask {m : Machine} {i : ℕ} : Step m (.runTask i) { m with store := m.store.runTask i }

/-- **The machines that a run can reach** when each of its steps meets a condition. -/
inductive Reachable (cond : Machine → Action → Prop) : Machine → Prop
  | new : Reachable cond .new
  | step {m m' : Machine} {a : Action} (reached : Reachable cond m) (meets : cond m a)
      (taken : Step crc32c m a m') : Reachable cond m'

variable {crc32c}

/-- An invariant of every step is an invariant of every run. -/
theorem Reachable.invariant {cond : Machine → Action → Prop} {P : Machine → Prop} (init : P .new)
    (step : ∀ {m m' a}, P m → cond m a → Step crc32c m a m' → P m') {m : Machine}
    (h : Reachable crc32c cond m) : P m := by
  induction h with
  | new => exact init
  | step _ meets taken ih => exact step ih meets taken

/-- **What a quiet step does.**  Numbers of table files are taken only between flushes. -/
theorem Step.quiet {m m' : Machine} {a : Action} (taken : Step crc32c m a m') (quiet : a.Quiet) :
    m.store.SameData m'.store ∧ m'.flushed = m.flushed ∧ m'.history = m.history ∧
      (m.flushed = true → m'.store.fileno = m.store.fileno) := by
  cases taken with
  | @read info =>
      obtain ⟨handles, hs⟩ := m.store.readValue_handles crc32c info
      rw [hs]
      exact ⟨⟨rfl, rfl, rfl, rfl, le_rfl, le_rfl⟩, rfl, rfl, fun _ => rfl⟩
  | flushFail => exact ⟨⟨rfl, rfl, rfl, rfl, le_rfl, le_rfl⟩, rfl, rfl, fun _ => rfl⟩
  | compactFail idle left =>
      have hs := left.same
      refine ⟨⟨?_, ?_, ?_, ?_, ?_, left.fileno_le⟩, rfl, rfl, fun hflushed => ?_⟩
      · rw [hs]
      · rw [hs]
      · rw [hs]
      · rw [hs]
      · rw [hs]
      · simp [idle] at hflushed
  | expireAt ok =>
      obtain ⟨live, rfl, hlive⟩ := Store.expireAt_cases ok
      exact ⟨⟨rfl, rfl, rfl, rfl, hlive, le_rfl⟩, rfl, rfl, fun _ => rfl⟩
  | @runTask i =>
      cases htask : m.store.tasks[i]? with
      | none =>
          simp only [Store.runTask, htask]
          exact ⟨⟨rfl, rfl, rfl, rfl, le_rfl, le_rfl⟩, trivial, trivial, fun _ => trivial⟩
      | some task =>
          simp only [Store.runTask, htask]
          exact ⟨⟨rfl, rfl, rfl, rfl, le_rfl, le_rfl⟩, trivial, trivial, fun _ => rfl⟩
  | _ => exact absurd quiet (by simp [Action.Quiet])

/-- A step takes nothing out of the history. -/
theorem Step.history {m m' : Machine} {a : Action} (taken : Step crc32c m a m') :
    m.history <+: m'.history := by
  have hquiet : a.Quiet → m.history <+: m'.history := fun hq => by
    rw [(taken.quiet hq).2.2.1]
  cases taken with
  | write ok => exact List.prefix_append _ _
  | handOver ok => exact List.prefix_rfl
  | flush idle full ok => exact List.prefix_rfl
  | clearImm done => exact List.prefix_rfl
  | compact idle ok => exact List.prefix_rfl
  | _ => exact hquiet trivial

theorem Reachable.mono {cond cond' : Machine → Action → Prop} (imp : ∀ m a, cond m a → cond' m a)
    {m : Machine} (h : Reachable crc32c cond m) : Reachable crc32c cond' m := by
  induction h with
  | new => exact .new
  | step _ meets taken ih => exact .step ih (imp _ _ meets) taken

/-- What the code asks before a step: `Prepare` hands over a full memtable while level 0
has room, and `BackgroundCompaction` starts when level 0 is full. -/
def Scheduled (m : Machine) : Action → Prop
  | .handOver => Store.memMaxSize < m.store.mem.memoryUsage ∧
      (levelAt m.store.levels 0).length < kL0CompactionTrigger
  | .compact level => level = 0 → kL0CompactionTrigger ≤ (levelAt m.store.levels 0).length
  | .write .. => m.store.mem.memoryUsage ≤ Store.memMaxSize
  | _ => True

end Machine

end Lsmkv
