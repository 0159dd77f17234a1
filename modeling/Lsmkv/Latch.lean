import Lsmkv.Scheduling

/-!
# The error that is not latched

`bg_catch_error_` (`src/kvstore.cc`) is meant to stop the store when its background thread fails:
`Prepare` answers `BGError` when it is set, and `MaybeScheduleCompaction` schedules nothing.
`RecordBackgroundError` tests it, reports the error and clears the mark of the scheduled task,
but does not set it, and nobody else does.

So no step of a run changes `bg_catch_error_` (`Scheduler.caughtError_of_later`), and behind a
recorded error the store goes on as before it: a put or a del that returns was not refused, a
memtable with room takes writes, and a task is submitted again (`Scheduler.not_latched`).
-/

namespace Lsmkv

open ByteCode Files

namespace Scheduler

variable (crc32c : Bytes → ℕ)

/-- `RecordBackgroundError` is called, for a flush or for a compaction. -/
inductive Records : Scheduler → Scheduler → Prop
  | memtable {s : Scheduler} (here : s.background = .recordMemtable) :
      Records s { s with
        scheduled := if s.caughtError then s.scheduled else false, background := .failMemtable }
  | compact {s : Scheduler} (here : s.background = .recordCompact) :
      Records s { s with
        scheduled := if s.caughtError then s.scheduled else false, background := .failCompact }

/-- What `Prepare` returns. -/
inductive Prepared
  | ok
  | bgError
  deriving DecidableEq

/-- Level 0 holds too many tables for `Prepare`. -/
def Level0Many (s : Scheduler) : Prop :=
  kL0CompactionTrigger ≤ (levelAt s.machine.store.levels 0).length

/-- The loop of `Prepare` in the thread `t`, with its flag `allow_delay`.  While it sleeps, waits
or schedules, the others go on. -/
inductive Prepares (t : ℕ) : Bool → Scheduler → Prepared → Scheduler → Prop
  | bgError {delay : Bool} {s : Scheduler} (caught : s.caughtError = true) :
      Prepares t delay s .bgError s
  | delay {s s₁ s' : Scheduler} {a : Prepared} (clear : s.caughtError = false)
      (many : s.Level0Many) (sleeps : Later crc32c s s₁) (rest : Prepares t false s₁ a s') :
      Prepares t true s a s'
  | room {delay : Bool} {s : Scheduler} (clear : s.caughtError = false)
      (few : delay = true → ¬ s.Level0Many)
      (room : s.machine.store.mem.memoryUsage ≤ Store.memMaxSize) : Prepares t delay s .ok s
  | wait {delay : Bool} {s s₁ s' : Scheduler} {a : Prepared} (clear : s.caughtError = false)
      (few : delay = true → ¬ s.Level0Many)
      (full : Store.memMaxSize < s.machine.store.mem.memoryUsage)
      (busy : s.machine.store.imm ≠ none ∨ s.Level0Many) (waits : Later crc32c s s₁)
      (rest : Prepares t delay s₁ a s') : Prepares t delay s a s'
  | handOver {delay : Bool} {s s₁ s' : Scheduler} {m : Machine} {a : Prepared}
      (clear : s.caughtError = false)
      (full : Store.memMaxSize < s.machine.store.mem.memoryUsage)
      (few : ¬ s.Level0Many) (taken : Machine.Step crc32c s.machine .handOver m)
      (schedules : Later crc32c
        { s with machine := m, writer := Function.update s.writer t (some .testFlag) } s₁)
      (done : s₁.writer t = none) (rest : Prepares t delay s₁ a s') : Prepares t delay s a s'

/-- A call of `put`, or `del` behind its get: `Prepare`, and `WriteImpl` where it may. -/
inductive Writes (t : ℕ) (w : Write) : Scheduler → Prepared → Scheduler → Prop
  | refused {s s' : Scheduler} (prepares : Prepares crc32c t true s .bgError s') :
      Writes t w s .bgError s'
  | written {s s₁ : Scheduler} {garbage : VLogEntryInfo} {height : ℕ} {m : Machine}
      (prepares : Prepares crc32c t true s .ok s₁)
      (taken : Machine.Step crc32c s₁.machine (.write w garbage height) m) :
      Writes t w s .ok { s₁ with machine := m }

/-- The calls that write. -/
inductive WriteCall
  | put (key value : Bytes)
  | del (key : Bytes)

/-- The key of a `del` is present. -/
def WriteCall.Proceeds (s : Scheduler) : WriteCall → Prop
  | .put _ _ => True
  | .del key => ∃ value, (s.machine.store.getImpl crc32c key).1 = .ok value

/-- A call, with the get that `del` starts with. -/
def WriteCall.Returns (t : ℕ) (s : Scheduler) (a : Prepared) (s' : Scheduler) : WriteCall → Prop
  | .put key value => Writes crc32c t ⟨key, .kTypeValue, value⟩ s a s'
  | .del key => Writes crc32c t ⟨key, .kTypeDeletion, []⟩
      { s with machine := { s.machine with store := (s.machine.store.getImpl crc32c key).2 } } a s'

/-- **What a latched error would do**: nothing is scheduled any more, and every put, and every del
of a present key, returns `BGError` and leaves the data and the value log unchanged. -/
structure Latched (s : Scheduler) : Prop where
  nothingScheduled : ∀ s₁ s₂, Later crc32c s s₁ → Step crc32c s₁ s₂ → s₂.queue ≤ s₁.queue
  refused : ∀ (t : ℕ) (call : WriteCall), call.Proceeds crc32c s →
    ∃ s', call.Returns crc32c t s .bgError s' ∧ s'.machine.store.mem = s.machine.store.mem ∧
      s'.machine.store.imm = s.machine.store.imm ∧
      s'.machine.store.levels = s.machine.store.levels ∧
      s'.machine.store.lastSequence = s.machine.store.lastSequence ∧
      s'.machine.store.vlogs = s.machine.store.vlogs

variable {crc32c}

/-! ## Nobody sets the latch -/

theorem caughtError_of_step {s s' : Scheduler} (taken : Step crc32c s s') :
    s'.caughtError = s.caughtError := by
  have hmaybe : ∀ pc, (s.maybe pc).1.caughtError = s.caughtError := by
    intro pc
    cases pc <;> rfl
  cases taken with
  | @writer _ pc | @background pc => exact hmaybe pc
  | _ => rfl

/-- No run changes `bg_catch_error_`. -/
theorem caughtError_of_later {s s' : Scheduler} (later : Later crc32c s s') :
    s'.caughtError = s.caughtError := by
  induction later with
  | refl => rfl
  | tail _ taken ih => exact (caughtError_of_step taken).trans ih

theorem Records.step {s s' : Scheduler} (records : Records s s') : Step crc32c s s' := by
  cases records with
  | memtable here => exact .recordMemtable here
  | compact here => exact .recordCompact here

/-- `Prepare` does not answer `BGError`. -/
theorem Prepares.ne_bgError {t : ℕ} {delay : Bool} {s s' : Scheduler} {a : Prepared}
    (h : Prepares crc32c t delay s a s') (clear : s.caughtError = false) : a ≠ .bgError := by
  induction h with
  | bgError caught => exact absurd (clear.symm.trans caught) (by simp)
  | delay _ _ sleeps _ ih => exact ih ((caughtError_of_later sleeps).trans clear)
  | room => simp
  | wait _ _ _ _ waits _ ih => exact ih ((caughtError_of_later waits).trans clear)
  | handOver _ _ _ _ schedules _ _ ih => exact ih ((caughtError_of_later schedules).trans clear)

/-- No put and no del is refused. -/
theorem WriteCall.Returns.ne_bgError {t : ℕ} {call : WriteCall} {s s' : Scheduler} {a : Prepared}
    (h : call.Returns crc32c t s a s') (clear : s.caughtError = false) : a ≠ .bgError := by
  have hwrites : ∀ {w : Write} {s s' : Scheduler} {a : Prepared}, Writes crc32c t w s a s' →
      s.caughtError = false → a ≠ .bgError := by
    intro w s s' a hwrites hclear
    cases hwrites with
    | refused prepares => exact prepares.ne_bgError hclear
    | written => simp
  cases call with
  | put key value => exact hwrites h clear
  | del key => exact hwrites h clear

/-- A memtable with room takes a write, at once or behind the delay. -/
theorem Prepares.of_room {t : ℕ} {s : Scheduler} (clear : s.caughtError = false)
    (room : s.machine.store.mem.memoryUsage ≤ Store.memMaxSize) :
    Prepares crc32c t true s .ok s := by
  by_cases hmany : s.Level0Many
  · exact .delay clear hmany .refl (.room clear (by simp) room)
  · exact .room clear (fun _ => hmany) room

/-- **An error of the background thread is not latched.**  In every state behind a call of
`RecordBackgroundError`, in every run, it is not the case that puts and dels are refused; a
memtable with room takes every write; and a thread in `MaybeScheduleCompaction` that finds an
immutable memtable and the mark clear submits a task, unless the store is shutting down. -/
theorem not_latched {s s₁ s₂ : Scheduler} (reached : Reachable crc32c s) (records : Records s s₁)
    (later : Later crc32c s₁ s₂) :
    ¬ Latched crc32c s₂ ∧
    (∀ (t : ℕ) (key value : Bytes), s₂.machine.store.mem.memoryUsage ≤ Store.memMaxSize →
      ∃ s', (WriteCall.put key value).Returns crc32c t s₂ .ok s' ∧
        s'.machine.store.lastSequence = s₂.machine.store.lastSequence + 1) ∧
    (∀ t : ℕ, s₂.writer t = some .testFlag → s₂.scheduled = false → s₂.shuttingDown = false →
      s₂.machine.store.imm ≠ none → ∃ s₃, Later crc32c s₂ s₃ ∧ s₃.queue = s₂.queue + 1) := by
  have hreached : Reachable crc32c s₂ := (reached.step records.step).later later
  have hclear := (invariant_of_reachable hreached).noError
  refine ⟨fun hlatched => ?_, fun t key value hroom => ?_, fun t here idle up full => ?_⟩
  · obtain ⟨s', hreturns, -⟩ := hlatched.refused 0 (.put [] []) trivial
    exact hreturns.ne_bgError hclear rfl
  · have howned := vlogsOwned_of_reachable hreached.machine
    obtain ⟨st, hok⟩ := howned.writeImpl_isOk crc32c ⟨key, .kTypeValue, value⟩ .zero 1
    refine ⟨_, .written (.of_room hclear hroom) (.write hok), ?_⟩
    exact (Store.writeImpl_fields hok).2.2.2.2.1
  · obtain ⟨m, scheduled, shuttingDown, caughtError, queue, background, writer⟩ := s₂
    obtain rfl : scheduled = false := idle
    obtain rfl : shuttingDown = false := up
    obtain rfl : caughtError = false := hclear
    exact ⟨_, Later.submits full here, rfl⟩

/-- The background thread clears the mark and submits a task of its own, when the immutable
memtable is still there. -/
theorem Later.reschedules {m : Machine} {scheduled : Bool} {q : ℕ} {w : ℕ → Option MaybePc}
    (full : m.store.imm ≠ none) :
    Later crc32c ⟨m, scheduled, false, false, q, .clearFlag, w⟩
      ⟨m, true, false, false, q + 1, .idle, w⟩ := by
  have hnone : m.store.imm.isNone = false := by simpa [Option.isSome_iff_ne_none] using full
  have h₁ : Later crc32c ⟨m, scheduled, false, false, q, .clearFlag, w⟩
      ⟨m, false, false, false, q, .maybe .testFlag, w⟩ := .single (.clearFlag rfl)
  have h₂ : Later crc32c ⟨m, scheduled, false, false, q, .clearFlag, w⟩
      ⟨m, false, false, false, q, .maybe .testShutdown, w⟩ := by
    simpa [maybe, behind] using h₁.tail (.background rfl)
  have h₃ : Later crc32c ⟨m, scheduled, false, false, q, .clearFlag, w⟩
      ⟨m, false, false, false, q, .maybe .testError, w⟩ := by
    simpa [maybe, behind] using h₂.tail (.background rfl)
  have h₄ : Later crc32c ⟨m, scheduled, false, false, q, .clearFlag, w⟩
      ⟨m, false, false, false, q, .maybe .testImm, w⟩ := by
    simpa [maybe, behind] using h₃.tail (.background rfl)
  have h₅ : Later crc32c ⟨m, scheduled, false, false, q, .clearFlag, w⟩
      ⟨m, false, false, false, q, .maybe .setFlag, w⟩ := by
    simpa [maybe, behind, hnone] using h₄.tail (.background rfl)
  have h₆ : Later crc32c ⟨m, scheduled, false, false, q, .clearFlag, w⟩
      ⟨m, true, false, false, q, .maybe .submit, w⟩ := by
    simpa [maybe, behind] using h₅.tail (.background rfl)
  simpa [maybe, behind] using h₆.tail (.background rfl)

/-- A flush that fails: the memtable with one put is handed over, and its task is about to record
the error.  The new memtable is empty. -/
theorem exists_failed_flush :
    ∃ m : Machine, m.store.mem = .new ∧ m.store.imm ≠ none ∧ m.store.levels = Store.new.levels ∧
      Reachable crc32cCastagnoli
        ⟨m, true, false, false, 0, .recordMemtable, Function.update (fun _ => none) 0 none⟩ := by
  let w : Write := ⟨[1], .kTypeValue, [9]⟩
  obtain ⟨st, ok⟩ := Store.VLogsOwned.init.writeImpl_isOk crc32cCastagnoli w .zero 1
  obtain ⟨-, himm, hlevels, -⟩ := Store.writeImpl_fields ok
  let st₁ : Store := { st with imm := some st.mem, mem := .new }
  have hhand : st.handOver = .ok st₁ := by
    simp only [Store.handOver, himm]
    rfl
  let st₂ : Store := { st₁ with sstFiles := Function.update st₁.sstFiles st₁.fileno false }
  have r₁ : Reachable crc32cCastagnoli
      ⟨⟨st, false, [w]⟩, false, false, false, 0, .idle, fun _ => none⟩ :=
    Reachable.new.step (.beside (a := .write w .zero 1) trivial (.write ok))
  have r₂ : Reachable crc32cCastagnoli ⟨⟨st₁, false, [w]⟩, false, false, false, 0, .idle,
      Function.update (fun _ => none) 0 (some .testFlag)⟩ :=
    r₁.step (.handOver (t := 0) rfl (.handOver hhand))
  have r₃ := r₂.submits (by simp [st₁])
  have r₄ : Reachable crc32cCastagnoli ⟨⟨st₁, false, [w]⟩, true, false, false, 0, .call,
      Function.update (fun _ => none) 0 none⟩ := r₃.step (.take rfl rfl)
  have r₅ : Reachable crc32cCastagnoli ⟨⟨st₁, false, [w]⟩, true, false, false, 0, .loadImm,
      Function.update (fun _ => none) 0 none⟩ := r₄.step (.call rfl)
  have r₆ : Reachable crc32cCastagnoli ⟨⟨st₁, false, [w]⟩, true, false, false, 0, .writeLevel0,
      Function.update (fun _ => none) 0 none⟩ := r₅.step (.loadImm rfl)
  have hfail : Machine.Step crc32cCastagnoli ⟨st₁, false, [w]⟩ (.flushFail false)
      ⟨st₂, false, [w]⟩ := .flushFail rfl
  have r₇ : Reachable crc32cCastagnoli ⟨⟨st₂, false, [w]⟩, true, false, false, 0, .recordMemtable,
      Function.update (fun _ => none) 0 none⟩ := r₆.step (.flushFail rfl hfail)
  exact ⟨⟨st₂, false, [w]⟩, rfl, by simp [st₂, st₁], hlevels, r₇⟩

/-- Behind a flush that failed, a put is accepted. -/
theorem not_latched_failed_flush :
    ∃ s s₁ s', Reachable crc32cCastagnoli s ∧ Records s s₁ ∧
      (WriteCall.put [2] [3]).Returns crc32cCastagnoli 1 s₁ .ok s' := by
  obtain ⟨m, hmem, -, -, reached⟩ := exists_failed_flush
  obtain ⟨s', hreturns, -⟩ := (not_latched reached (.memtable rfl) .refl).2.1 1 [2] [3]
    (by rw [hmem]; decide)
  exact ⟨_, _, s', reached, .memtable rfl, hreturns⟩

/-- **Behind a flush that failed**, a task is submitted again, and a put returns `OK` and takes a
sequence number. -/
theorem accepts_after_failed_flush :
    ∃ s s₁, Reachable crc32cCastagnoli s ∧ Records s s₁ ∧ ¬ Latched crc32cCastagnoli s₁ ∧
      (∃ s₂, Later crc32cCastagnoli s₁ s₂ ∧ s₂.queue = s₁.queue + 1) ∧
      ∃ s', (WriteCall.put [2] [3]).Returns crc32cCastagnoli 1 s₁ .ok s' ∧
        s'.machine.store.lastSequence = s₁.machine.store.lastSequence + 1 := by
  obtain ⟨m, hmem, himm, hlevels, reached⟩ := exists_failed_flush
  have hrecords : Records (⟨m, true, false, false, 0, .recordMemtable,
      Function.update (fun _ => none) 0 none⟩ : Scheduler) _ := .memtable rfl
  have h₁ : Later crc32cCastagnoli
      ⟨m, false, false, false, 0, .failMemtable, Function.update (fun _ => none) 0 none⟩
      ⟨m, false, false, false, 0, .level0, Function.update (fun _ => none) 0 none⟩ :=
    .single (.failMemtable rfl)
  have h₂ : Later crc32cCastagnoli
      ⟨m, false, false, false, 0, .failMemtable, Function.update (fun _ => none) 0 none⟩
      ⟨m, false, false, false, 0, .clearFlag, Function.update (fun _ => none) 0 none⟩ := by
    have hfew : (levelAt m.store.levels 0).length < kL0CompactionTrigger := by
      rw [hlevels, Store.levelAt_new]
      decide
    have htrigger : trigger ⟨m, false, false, false, 0, .level0,
        Function.update (fun _ => none) 0 none⟩ = .clearFlag := if_pos hfew
    simpa only [htrigger] using h₁.tail (.level0 rfl)
  refine ⟨_, _, reached, hrecords, fun hlatched => ?_,
    ⟨_, h₂.trans (Later.reschedules himm), rfl⟩, ?_⟩
  · obtain ⟨s', hreturns, -⟩ := hlatched.refused 0 (.put [] []) trivial
    exact hreturns.ne_bgError rfl rfl
  · have howned := vlogsOwned_of_reachable reached.machine
    obtain ⟨st, hok⟩ :=
      howned.writeImpl_isOk crc32cCastagnoli ⟨[2], .kTypeValue, [3]⟩ .zero 1
    refine ⟨_, .written (.of_room rfl ?_) (.write hok), (Store.writeImpl_fields hok).2.2.2.2.1⟩
    show m.store.mem.memoryUsage ≤ _
    rw [hmem]
    decide

end Scheduler

end Lsmkv
