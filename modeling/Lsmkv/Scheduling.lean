import Lsmkv.Durability

/-!
# Scheduling the flush

A writer that fills the memtable stores it in `imm_` and calls `MaybeScheduleCompaction`
(`src/kvstore.cc`), which submits a task to the one background thread, unless one is
scheduled already.  The task flushes `imm_`, clears the mark, and calls
`MaybeScheduleCompaction` in its turn.  The mark `background_compaction_scheduled_` is tested
and set in different steps, by several threads, and cleared early when something fails.

`Scheduler` is the machine of `Lsmkv.Run` with the mark, the queue of the executor, and the
places of the writers and of the background thread.  Two facts carry the argument
(`Scheduler.Invariant`): as long as the mark is set, somebody is on the way to clear it, and
as long as there is an immutable memtable, somebody is on the way to see it.  So none is
left behind (`Scheduler.imm_not_stranded`).
-/

namespace Lsmkv

open ByteCode Files

/-- Places in `MaybeScheduleCompaction`: its four tests, in order, the store to the mark, and
`submit`. -/
inductive MaybePc
  | testFlag
  | testShutdown
  | testError
  | testImm
  | setFlag
  | submit
  deriving DecidableEq

/-- Places in `BackgroundCall` and what it calls.  In the two error branches the mark is
cleared twice, by `RecordBackgroundError` and by its caller. -/
inductive BackgroundPc
  | idle
  | call
  | loadImm
  | writeLevel0
  | testShutdown
  | clearImm
  | recordMemtable
  | failMemtable
  | level0
  | compact (level : ℕ)
  | recordCompact
  | failCompact
  | clearFlag
  | maybe (pc : MaybePc)

/-- The background thread runs a task and has not cleared the mark for the last time. -/
def BackgroundPc.Running : BackgroundPc → Prop
  | .idle | .maybe _ => False
  | _ => True

/-- The store with what decides when the background thread works. -/
structure Scheduler where
  machine : Machine
  /-- `background_compaction_scheduled_`. -/
  scheduled : Bool
  shuttingDown : Bool
  /-- `bg_catch_error_`. -/
  caughtError : Bool
  /-- The tasks in the queue of `scheduler_`; every one is a `BackgroundCall`. -/
  queue : ℕ
  background : BackgroundPc
  /-- The writers that are in `MaybeScheduleCompaction`. -/
  writer : ℕ → Option MaybePc

namespace Scheduler

/-- A store that was just opened. -/
def new : Scheduler := ⟨.new, false, false, false, 0, .idle, fun _ => none⟩

/-- One step of `MaybeScheduleCompaction`, with the place behind it. -/
def maybe (s : Scheduler) : MaybePc → Scheduler × Option MaybePc
  | .testFlag => (s, if s.scheduled then none else some .testShutdown)
  | .testShutdown => (s, if s.shuttingDown then none else some .testError)
  | .testError => (s, if s.caughtError then none else some .testImm)
  | .testImm => (s, if s.machine.store.imm.isNone then none else some .setFlag)
  | .setFlag => ({ s with scheduled := true }, some .submit)
  | .submit => ({ s with queue := s.queue + 1 }, none)

/-- The background thread behind a step of `MaybeScheduleCompaction`. -/
def behind : Option MaybePc → BackgroundPc
  | none => .idle
  | some pc => .maybe pc

/-- The test of level 0 in `BackgroundCompaction`; `triger_sst_compaction_` is never set. -/
def trigger (s : Scheduler) : BackgroundPc :=
  if (levelAt s.machine.store.levels 0).length < kL0CompactionTrigger then .clearFlag
  else .compact 0

/-- What goes on beside the hand-over and the background thread. -/
def Beside : Action → Prop
  | .write .. | .read _ | .expireAt _ | .runTask _ => True
  | _ => False

variable (crc32c : Bytes → ℕ)

/-- **One step of a scheduler.** -/
inductive Step : Scheduler → Scheduler → Prop
  /-- The hand-over in `Prepare`, behind which the writer calls `MaybeScheduleCompaction`. -/
  | handOver {s : Scheduler} {t : ℕ} {m : Machine} (here : s.writer t = none)
      (taken : Machine.Step crc32c s.machine .handOver m) :
      Step s { s with machine := m, writer := Function.update s.writer t (some .testFlag) }
  | writer {s : Scheduler} {t : ℕ} {pc : MaybePc} (here : s.writer t = some pc) :
      Step s { (s.maybe pc).1 with writer := Function.update s.writer t (s.maybe pc).2 }
  /-- The background thread takes a task. -/
  | take {s : Scheduler} {n : ℕ} (here : s.background = .idle) (ready : s.queue = n + 1) :
      Step s { s with queue := n, background := .call }
  | call {s : Scheduler} (here : s.background = .call) :
      Step s { s with background := if s.shuttingDown then .clearFlag else .loadImm }
  | loadImm {s : Scheduler} (here : s.background = .loadImm) :
      Step s { s with
        background := if s.machine.store.imm.isNone then .level0 else .writeLevel0 }
  | flush {s : Scheduler} {m : Machine} (here : s.background = .writeLevel0)
      (taken : Machine.Step crc32c s.machine .flush m) :
      Step s { s with machine := m, background := .testShutdown }
  | flushFail {s : Scheduler} {leftover : Bool} {m : Machine} (here : s.background = .writeLevel0)
      (taken : Machine.Step crc32c s.machine (.flushFail leftover) m) :
      Step s { s with machine := m, background := .recordMemtable }
  | testShutdown {s : Scheduler} (here : s.background = .testShutdown) :
      Step s { s with background := if s.shuttingDown then .recordMemtable else .clearImm }
  | clearImm {s : Scheduler} {m : Machine} (here : s.background = .clearImm)
      (taken : Machine.Step crc32c s.machine .clearImm m) :
      Step s { s with machine := m, background := .level0 }
  | recordMemtable {s : Scheduler} (here : s.background = .recordMemtable) :
      Step s { s with
        scheduled := if s.caughtError then s.scheduled else false, background := .failMemtable }
  | failMemtable {s : Scheduler} (here : s.background = .failMemtable) :
      Step s { s with scheduled := false, background := .level0 }
  | level0 {s : Scheduler} (here : s.background = .level0) :
      Step s { s with background := s.trigger }
  /-- `CompactSSTFile` that has nothing to do, or is stopped. -/
  | compacted {s : Scheduler} {level : ℕ} (here : s.background = .compact level)
      (done : s.shuttingDown = true ∨ pickCompaction s.machine.store.levels level = none) :
      Step s { s with background := .clearFlag }
  | compact {s : Scheduler} {level : ℕ} {m : Machine} (here : s.background = .compact level)
      (taken : Machine.Step crc32c s.machine (.compact level) m) :
      Step s { s with machine := m, background := .compact (level + 1) }
  | compactFail {s : Scheduler} {level : ℕ} {m : Machine} (here : s.background = .compact level)
      (taken : Machine.Step crc32c s.machine .compactFail m) :
      Step s { s with machine := m, background := .recordCompact }
  | recordCompact {s : Scheduler} (here : s.background = .recordCompact) :
      Step s { s with
        scheduled := if s.caughtError then s.scheduled else false, background := .failCompact }
  | failCompact {s : Scheduler} (here : s.background = .failCompact) :
      Step s { s with scheduled := false, background := .clearFlag }
  | clearFlag {s : Scheduler} (here : s.background = .clearFlag) :
      Step s { s with scheduled := false, background := .maybe .testFlag }
  | background {s : Scheduler} {pc : MaybePc} (here : s.background = .maybe pc) :
      Step s { (s.maybe pc).1 with background := behind (s.maybe pc).2 }
  | shutDown {s : Scheduler} : Step s { s with shuttingDown := true }
  | beside {s : Scheduler} {a : Action} {m : Machine} (beside : Beside a)
      (taken : Machine.Step crc32c s.machine a m) : Step s { s with machine := m }

/-- The schedulers that a run can reach. -/
inductive Reachable : Scheduler → Prop
  | new : Reachable .new
  | step {s s' : Scheduler} (reached : Reachable s) (taken : Step crc32c s s') : Reachable s'

/-- Any number of steps. -/
def Later (s s' : Scheduler) : Prop := Relation.ReflTransGen (Step crc32c) s s'

variable {crc32c}

theorem Later.single {s s' : Scheduler} (taken : Step crc32c s s') : Later crc32c s s' :=
  Relation.ReflTransGen.single taken

theorem Later.tail {s s' s'' : Scheduler} (later : Later crc32c s s')
    (taken : Step crc32c s' s'') : Later crc32c s s'' := Relation.ReflTransGen.tail later taken

theorem Reachable.later {s s' : Scheduler} (h : Reachable crc32c s) (later : Later crc32c s s') :
    Reachable crc32c s' := by
  induction later with
  | refl => exact h
  | tail _ taken ih => exact ih.step taken

/-! ## Nobody forgets -/

/-- A step changes `imm_` only by the hand-over and by the release. -/
theorem imm_of_machineStep {m m' : Machine} {a : Action} (taken : Machine.Step crc32c m a m') :
    m'.store.imm = m.store.imm ∨ a = .handOver ∨ (a = .clearImm ∧ m'.store.imm = none) := by
  have hquiet : a.Quiet → m'.store.imm = m.store.imm := fun hq => (taken.quiet hq).1.imm
  cases taken with
  | write ok => exact .inl (Store.writeImpl_fields ok).2.1
  | handOver => exact .inr (.inl rfl)
  | flush idle full ok =>
      obtain ⟨e, es, -, rfl⟩ := Store.writeLevel0Table_cases ok
      exact .inl rfl
  | clearImm => exact .inr (.inr ⟨rfl, rfl⟩)
  | compact idle ok =>
      refine .inl ?_
      simp only [Store.compactLevel] at ok
      split at ok
      · rw [← Outcome.ok.inj ok]
      · obtain ⟨r, -, hok⟩ := Outcome.bind_eq_ok.mp ok
        rw [← Outcome.ok.inj hok]
        rfl
  | _ => exact .inl (hquiet trivial)

/-- A task is queued, runs and has not cleared the mark for the last time, or is about to be
submitted. -/
def Underway (s : Scheduler) : Prop :=
  0 < s.queue ∨ s.background.Running ∨ s.background = .maybe .submit ∨
    ∃ t, s.writer t = some .submit

/-- A writer that is not about to submit may go anywhere. -/
theorem Underway.update {s : Scheduler} (h : s.Underway) {t : ℕ} (here : s.writer t ≠ some .submit)
    {m : Machine} (next : Option MaybePc) :
    Underway { s with machine := m, writer := Function.update s.writer t next } := by
  rcases h with h | h | h | ⟨t', ht'⟩
  · exact .inl h
  · exact .inr (.inl h)
  · exact .inr (.inr (.inl h))
  · have hne : t' ≠ t := by
      rintro rfl
      exact here ht'
    exact .inr (.inr (.inr ⟨t', (Function.update_of_ne hne _ _).trans ht'⟩))

/-- The background thread, between two tasks, is not what keeps a task under way, unless it
is about to submit one. -/
theorem Underway.background {s : Scheduler} (h : s.Underway) {pc : MaybePc}
    (here : s.background = .maybe pc) (ne : pc ≠ .submit) (next : BackgroundPc) :
    Underway { s with background := next } := by
  rcases h with h | h | h | h
  · exact .inl h
  · exact absurd h (by simp [here, BackgroundPc.Running])
  · exact absurd (BackgroundPc.maybe.inj (here.symm.trans h)) ne
  · exact .inr (.inr (.inr h))

/-- Somebody is in `MaybeScheduleCompaction`. -/
def Asking (s : Scheduler) : Prop := (∃ pc, s.background = .maybe pc) ∨ ∃ t pc, s.writer t = some pc

/-- **The invariant of a scheduler.** -/
structure Invariant (s : Scheduler) : Prop where
  noError : s.caughtError = false
  flag : s.scheduled = true → s.Underway
  imm : s.machine.store.imm ≠ none → s.shuttingDown = false → s.Underway ∨ s.Asking

namespace Invariant

variable {s : Scheduler}

theorem init : Invariant .new where
  noError := rfl
  flag h := absurd h (by simp [Scheduler.new])
  imm h := absurd rfl h

/-- A step of the background thread inside a task. -/
theorem running (h : Invariant s) {m : Machine} {scheduled : Bool} {pc : BackgroundPc}
    (runs : pc.Running) :
    Invariant { s with machine := m, scheduled := scheduled, background := pc } :=
  ⟨h.noError, fun _ => .inr (.inl runs), fun _ _ => .inl (.inr (.inl runs))⟩

/-- A step that only changes the machine, and not its `imm_`. -/
theorem beside (h : Invariant s) {m : Machine} (same : m.store.imm = s.machine.store.imm) :
    Invariant { s with machine := m } :=
  ⟨h.noError, h.flag, fun himm => h.imm (same ▸ himm)⟩

/-- A writer goes on in `MaybeScheduleCompaction`, before it has set the mark. -/
theorem ask (h : Invariant s) {t : ℕ} {pc : MaybePc} (here : s.writer t ≠ some .submit) :
    Invariant { s with writer := Function.update s.writer t (some pc) } :=
  ⟨h.noError, fun hset => (h.flag hset).update here _,
    fun _ _ => .inr (.inr ⟨t, pc, Function.update_self _ _ _⟩)⟩

/-- A writer leaves `MaybeScheduleCompaction` when there is nothing to do or the mark is
set. -/
theorem leave (h : Invariant s) {t : ℕ} (here : s.writer t ≠ some .submit)
    (may : s.machine.store.imm ≠ none → s.shuttingDown = false → s.scheduled = true) :
    Invariant { s with writer := Function.update s.writer t none } :=
  ⟨h.noError, fun hset => (h.flag hset).update here _,
    fun himm hup => .inl ((h.flag (may himm hup)).update here _)⟩

/-- **A writer takes a step in `MaybeScheduleCompaction`.** -/
theorem writer (h : Invariant s) {t : ℕ} {pc : MaybePc} (here : s.writer t = some pc) :
    Invariant { (s.maybe pc).1 with writer := Function.update s.writer t (s.maybe pc).2 } := by
  cases pc with
  | testFlag =>
      have hne : s.writer t ≠ some .submit := by simp [here]
      by_cases hset : s.scheduled = true
      · simpa only [maybe, if_pos hset] using h.leave hne fun _ _ => hset
      · simpa only [maybe, if_neg hset] using h.ask hne
  | testShutdown =>
      have hne : s.writer t ≠ some .submit := by simp [here]
      by_cases hdown : s.shuttingDown = true
      · simpa only [maybe, if_pos hdown] using h.leave hne fun _ hup => by simp [hdown] at hup
      · simpa only [maybe, if_neg hdown] using h.ask hne
  | testError =>
      have hne : s.writer t ≠ some .submit := by simp [here]
      simpa only [maybe, h.noError, Bool.false_eq_true, if_false] using h.ask hne
  | testImm =>
      have hne : s.writer t ≠ some .submit := by simp [here]
      by_cases himm : s.machine.store.imm = none
      · simpa only [maybe, himm, Option.isNone_none, if_true] using
          h.leave hne fun hsome => absurd himm hsome
      · simpa only [maybe, Option.isNone_iff_eq_none, if_neg himm] using h.ask hne
  | setFlag =>
      have hsubmit : Underway { s with
          scheduled := true, writer := Function.update s.writer t (some .submit) } :=
        .inr (.inr (.inr ⟨t, Function.update_self _ _ _⟩))
      exact ⟨h.noError, fun _ => hsubmit, fun _ _ => .inl hsubmit⟩
  | submit =>
      have hqueued : Underway { s with
          queue := s.queue + 1, writer := Function.update s.writer t none } :=
        .inl (Nat.succ_pos _)
      exact ⟨h.noError, fun _ => hqueued, fun _ _ => .inl hqueued⟩

/-- The background thread leaves `MaybeScheduleCompaction`. -/
theorem rest (h : Invariant s) {pc : MaybePc} (here : s.background = .maybe pc) (ne : pc ≠ .submit)
    (may : s.machine.store.imm ≠ none → s.shuttingDown = false → s.scheduled = true) :
    Invariant { s with background := .idle } :=
  ⟨h.noError, fun hset => (h.flag hset).background here ne _,
    fun himm hup => .inl ((h.flag (may himm hup)).background here ne _)⟩

/-- The background thread goes on in `MaybeScheduleCompaction`. -/
theorem goOn (h : Invariant s) {pc next : MaybePc} (here : s.background = .maybe pc)
    (ne : pc ≠ .submit) : Invariant { s with background := .maybe next } :=
  ⟨h.noError, fun hset => (h.flag hset).background here ne _,
    fun _ _ => .inr (.inl ⟨next, rfl⟩)⟩

/-- **The background thread takes a step in `MaybeScheduleCompaction`.** -/
theorem background (h : Invariant s) {pc : MaybePc} (here : s.background = .maybe pc) :
    Invariant { (s.maybe pc).1 with background := behind (s.maybe pc).2 } := by
  cases pc with
  | testFlag =>
      by_cases hset : s.scheduled = true
      · simpa only [maybe, behind, if_pos hset] using h.rest here (by decide) fun _ _ => hset
      · simpa only [maybe, behind, if_neg hset] using h.goOn here (by decide)
  | testShutdown =>
      by_cases hdown : s.shuttingDown = true
      · simpa only [maybe, behind, if_pos hdown] using
          h.rest here (by decide) fun _ hup => by simp [hdown] at hup
      · simpa only [maybe, behind, if_neg hdown] using h.goOn here (by decide)
  | testError =>
      simpa only [maybe, behind, h.noError, Bool.false_eq_true, if_false] using h.goOn here (by decide)
  | testImm =>
      by_cases himm : s.machine.store.imm = none
      · simpa only [maybe, behind, himm, Option.isNone_none, if_true] using
          h.rest here (by decide) fun hsome => absurd himm hsome
      · simpa only [maybe, behind, Option.isNone_iff_eq_none, if_neg himm] using h.goOn here (by decide)
  | setFlag =>
      have hsubmit : Underway { s with scheduled := true, background := .maybe .submit } :=
        .inr (.inr (.inl rfl))
      exact ⟨h.noError, fun _ => hsubmit, fun _ _ => .inl hsubmit⟩
  | submit =>
      have hqueued : Underway { s with queue := s.queue + 1, background := .idle } :=
        .inl (Nat.succ_pos _)
      exact ⟨h.noError, fun _ => hqueued, fun _ _ => .inl hqueued⟩

end Invariant

/-- **Every step keeps the invariant.** -/
theorem Invariant.step {s s' : Scheduler} (h : Invariant s) (taken : Step crc32c s s') :
    Invariant s' := by
  cases taken with
  -- the writer that handed `imm_` over goes on to test the flag
  | @handOver t m here taken =>
      refine ⟨h.noError, fun hset => (h.flag hset).update (by simp [here]) _, fun _ _ => ?_⟩
      exact .inr (.inr ⟨t, .testFlag, Function.update_self _ _ _⟩)
  | writer here => exact h.writer here
  | @take n here ready =>
      have hruns : Underway { s with queue := n, background := .call } := .inr (.inl trivial)
      exact ⟨h.noError, fun _ => hruns, fun _ _ => .inl hruns⟩
  | call here =>
      refine h.running ?_
      split
      · trivial
      · trivial
  | loadImm here =>
      refine h.running ?_
      split
      · trivial
      · trivial
  -- inside the background call any step keeps it underway
  | flush here taken => exact h.running trivial
  | flushFail here taken => exact h.running trivial
  | testShutdown here =>
      refine h.running ?_
      split
      · trivial
      · trivial
  | clearImm here taken => exact h.running trivial
  | recordMemtable here => exact h.running trivial
  | failMemtable here => exact h.running trivial
  | level0 here =>
      refine h.running ?_
      unfold trigger
      split
      · trivial
      · trivial
  | compacted here done => exact h.running trivial
  | compact here taken => exact h.running trivial
  | compactFail here taken => exact h.running trivial
  | recordCompact here => exact h.running trivial
  | failCompact here => exact h.running trivial
  -- the flag is cleared, and the same thread tests it again before it is done
  | clearFlag here =>
      refine ⟨h.noError, fun hset => absurd hset (by simp), fun _ _ => ?_⟩
      exact .inr (.inl ⟨.testFlag, rfl⟩)
  | background here => exact h.background here
  | shutDown => exact ⟨h.noError, h.flag, fun _ hup => absurd hup (by simp)⟩
  | @beside a m beside taken =>
      refine h.beside ?_
      rcases imm_of_machineStep taken with hsame | rfl | ⟨rfl, -⟩
      · exact hsame
      · exact absurd beside (by simp [Beside])
      · exact absurd beside (by simp [Beside])

theorem invariant_of_reachable {s : Scheduler} (h : Reachable crc32c s) : Invariant s := by
  induction h with
  | new => exact .init
  | step _ taken ih => exact ih.step taken

/-- The machine of a scheduler is in a run of its own. -/
theorem Reachable.machine {s : Scheduler} (h : Reachable crc32c s) :
    Machine.Reachable crc32c (fun _ _ => True) s.machine := by
  induction h with
  | new => exact .new
  | @step s s' _ taken ih =>
      have hmaybe : ∀ pc, (s.maybe pc).1.machine = s.machine := by
        intro pc
        cases pc <;> rfl
      cases taken with
      | handOver _ taken | flush _ taken | flushFail _ taken | clearImm _ taken | compact _ taken
      | compactFail _ taken | beside _ taken => exact .step ih trivial taken
      | @writer _ pc | @background pc =>
          rw [← hmaybe pc] at ih
          exact ih
      | _ => exact ih

/-- **No immutable memtable is left behind.**  When no writer is in
`MaybeScheduleCompaction`, the background thread rests and no task is queued, `imm_` is null,
unless the store is shutting down. -/
theorem imm_not_stranded {s : Scheduler} (reached : Reachable crc32c s)
    (writers : ∀ t, s.writer t = none) (rests : s.background = .idle) (empty : s.queue = 0)
    (up : s.shuttingDown = false) : s.machine.store.imm = none := by
  by_contra himm
  rcases (invariant_of_reachable reached).imm himm up with
    (hqueue | hruns | hsubmit | ⟨t, ht⟩) | ⟨pc, hpc⟩ | ⟨t, pc, ht⟩
  · omega
  · exact absurd hruns (by simp [rests, BackgroundPc.Running])
  · exact absurd hsubmit (by simp [rests])
  · exact absurd ht (by simp [writers])
  · exact absurd hpc (by simp [rests])
  · exact absurd ht (by simp [writers])

section Schedule

variable {m : Machine} {q : ℕ} {bg : BackgroundPc} {w : ℕ → Option MaybePc}

/-- **A writer goes through `MaybeScheduleCompaction` and submits a task**, when it finds the mark
clear and an immutable memtable, and nobody is in its way. -/
theorem Later.submits {t : ℕ} (full : m.store.imm ≠ none) (here : w t = some .testFlag) :
    Later crc32c ⟨m, false, false, false, q, bg, w⟩
      ⟨m, true, false, false, q + 1, bg, Function.update w t none⟩ := by
  have hnone : m.store.imm.isNone = false := by simpa [Option.isSome_iff_ne_none] using full
  have h₁ : Later crc32c ⟨m, false, false, false, q, bg, w⟩
      ⟨m, false, false, false, q, bg, Function.update w t (some .testShutdown)⟩ := by
    simpa [maybe] using
      Later.single (.writer (s := ⟨m, false, false, false, q, bg, w⟩) (t := t) here)
  have h₂ : Later crc32c ⟨m, false, false, false, q, bg, w⟩
      ⟨m, false, false, false, q, bg, Function.update w t (some .testError)⟩ := by
    simpa [maybe] using h₁.tail (.writer (t := t) (Function.update_self _ _ _))
  have h₃ : Later crc32c ⟨m, false, false, false, q, bg, w⟩
      ⟨m, false, false, false, q, bg, Function.update w t (some .testImm)⟩ := by
    simpa [maybe] using h₂.tail (.writer (t := t) (Function.update_self _ _ _))
  have h₄ : Later crc32c ⟨m, false, false, false, q, bg, w⟩
      ⟨m, false, false, false, q, bg, Function.update w t (some .setFlag)⟩ := by
    simpa [maybe, hnone] using h₃.tail (.writer (t := t) (Function.update_self _ _ _))
  have h₅ : Later crc32c ⟨m, false, false, false, q, bg, w⟩
      ⟨m, true, false, false, q, bg, Function.update w t (some .submit)⟩ := by
    simpa [maybe] using h₄.tail (.writer (t := t) (Function.update_self _ _ _))
  simpa [maybe] using h₅.tail (.writer (t := t) (Function.update_self _ _ _))

theorem Reachable.submits {t : ℕ} (full : m.store.imm ≠ none)
    (h : Reachable crc32c ⟨m, false, false, false, q, bg, Function.update w t (some .testFlag)⟩) :
    Reachable crc32c ⟨m, true, false, false, q + 1, bg, Function.update w t none⟩ := by
  have hsubmits := h.later (Later.submits full (Function.update_self t (some .testFlag) w))
  rwa [Function.update_idem] at hsubmits

/-- The background thread clears the mark and comes to rest, when there is nothing to
flush. -/
theorem Reachable.rests {scheduled : Bool} (empty : m.store.imm = none)
    (h : Reachable crc32c ⟨m, scheduled, false, false, q, .clearFlag, w⟩) :
    Reachable crc32c ⟨m, false, false, false, q, .idle, w⟩ := by
  have h₁ : Reachable crc32c ⟨m, false, false, false, q, .maybe .testFlag, w⟩ :=
    h.step (.clearFlag rfl)
  have h₂ : Reachable crc32c ⟨m, false, false, false, q, .maybe .testShutdown, w⟩ := by
    simpa [maybe, behind] using h₁.step (.background rfl)
  have h₃ : Reachable crc32c ⟨m, false, false, false, q, .maybe .testError, w⟩ := by
    simpa [maybe, behind] using h₂.step (.background rfl)
  have h₄ : Reachable crc32c ⟨m, false, false, false, q, .maybe .testImm, w⟩ := by
    simpa [maybe, behind] using h₃.step (.background rfl)
  simpa [maybe, behind, empty] using h₄.step (.background rfl)

/-- The background thread takes a task and flushes. -/
theorem Reachable.flushes {m' : Machine} {scheduled : Bool} (full : m.store.imm ≠ none)
    (taken : Machine.Step crc32c m .flush m')
    (h : Reachable crc32c ⟨m, scheduled, false, false, q + 1, .idle, w⟩) :
    Reachable crc32c ⟨m', scheduled, false, false, q, .clearImm, w⟩ := by
  have hnone : m.store.imm.isNone = false := by simpa [Option.isSome_iff_ne_none] using full
  have h₁ : Reachable crc32c ⟨m, scheduled, false, false, q, .call, w⟩ := h.step (.take rfl rfl)
  have h₂ : Reachable crc32c ⟨m, scheduled, false, false, q, .loadImm, w⟩ := h₁.step (.call rfl)
  have h₃ : Reachable crc32c ⟨m, scheduled, false, false, q, .writeLevel0, w⟩ := by
    simpa [hnone] using h₂.step (.loadImm rfl)
  have h₄ : Reachable crc32c ⟨m', scheduled, false, false, q, .testShutdown, w⟩ :=
    h₃.step (.flush rfl taken)
  exact h₄.step (.testShutdown rfl)

end Schedule

/-- A memtable is handed over, flushed and released, and everybody comes to rest. -/
theorem imm_not_stranded_one_flush :
    ∃ s, Reachable crc32cCastagnoli s ∧ s.machine.store.fileno = 1 ∧
      s.background = .idle ∧ s.queue = 0 ∧ s.machine.store.imm = none := by
  let w : Write := ⟨[1], .kTypeValue, [9]⟩
  obtain ⟨st, ok⟩ := Store.VLogsOwned.init.writeImpl_isOk crc32cCastagnoli w .zero 1
  obtain ⟨⟨info, hmem⟩, himm, hlevels, hfileno, -⟩ := Store.writeImpl_fields ok
  let st₁ : Store := { st with imm := some st.mem, mem := .new }
  have hhand : st.handOver = .ok st₁ := by
    simp only [Store.handOver, himm]
    rfl
  obtain ⟨st₂, hflush⟩ : ∃ st₂, st₁.writeLevel0Table st.mem = .ok st₂ := by
    have hkept := tableKept_singleton (k := .ofWrite w.key Store.new.lastSequence w.type)
      (by decide) info
    have hentries : st.mem.entries = [⟨.ofWrite w.key Store.new.lastSequence w.type, info⟩] := by
      rw [hmem]
      rfl
    simp [Store.writeLevel0Table, buildTable, hentries, hkept]
  obtain ⟨e, es, hentries, hst₂⟩ := Store.writeLevel0Table_cases hflush
  have hroom : (levelAt st₂.levels 0).length < kL0CompactionTrigger := by
    have hlevels₁ : st₁.levels = Store.new.levels := hlevels
    rw [hst₂, levelAt_setLevel, if_pos rfl, hlevels₁, Store.levelAt_new]
    exact (show 1 < 4 by decide)
  have hone : st₂.fileno = 1 := by
    rw [hst₂]
    exact congrArg (· + 1) hfileno
  -- The write and the hand-over.
  have r₁ : Reachable crc32cCastagnoli
      ⟨⟨st, false, [w]⟩, false, false, false, 0, .idle, fun _ => none⟩ :=
    Reachable.new.step (.beside (a := .write w .zero 1) trivial (.write ok))
  have r₂ : Reachable crc32cCastagnoli ⟨⟨st₁, false, [w]⟩, false, false, false, 0, .idle,
      Function.update (fun _ => none) 0 (some .testFlag)⟩ :=
    r₁.step (.handOver (t := 0) rfl (.handOver hhand))
  have r₃ := r₂.submits (by simp [st₁])
  -- The task of the background thread.
  have r₄ := r₃.flushes (by simp [st₁]) (.flush rfl rfl hflush)
  have r₅ : Reachable crc32cCastagnoli ⟨⟨st₂.clearImm, false, [w]⟩, true, false, false, 0, .level0,
      Function.update (fun _ => none) 0 none⟩ := r₄.step (.clearImm rfl (.clearImm rfl))
  have r₆ : Reachable crc32cCastagnoli ⟨⟨st₂.clearImm, false, [w]⟩, true, false, false, 0, .clearFlag,
      Function.update (fun _ => none) 0 none⟩ := by
    have htrigger : trigger ⟨⟨st₂.clearImm, false, [w]⟩, true, false, false, 0, .level0,
        Function.update (fun _ => none) 0 none⟩ = .clearFlag := if_pos hroom
    simpa only [htrigger] using r₅.step (.level0 rfl)
  have r₇ := r₆.rests rfl
  have hwriters : ∀ t, Function.update (fun _ : ℕ => (none : Option MaybePc)) 0 none t = none := by
    simp
  exact ⟨_, r₇, hone, rfl, rfl, imm_not_stranded r₇ hwriters rfl rfl rfl⟩

end Scheduler

end Lsmkv
