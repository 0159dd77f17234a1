import Lsmkv.Lib.Interleaving
import Lsmkv.Lib.Sums
import Mathlib.Algebra.Order.BigOperators.Group.List
import Mathlib.Algebra.Order.Group.Nat

/-!
# Batch reads and their counter

`LevelCache::get` reads the tables that may hold a key in one batch: `ReadAsyncBatch`
(`src/include/reader.h`) starts a coroutine for every table, each with at most one read in a
ring of the batch's own, and processes completions as long as `active_tasks` is positive.  The
counter is raised by the number of tables and by every task, and lowered twice by every task,
because its guard is destroyed by hand and again at the end of its scope.

The counter belongs to the reader, and all gets share the reader.  As long as only one batch
runs at a time and no read fails, the counter is the sum of what the batch's tasks have to give
back, so the loop waits only for a read that is under way (`BatchRead.never_blocks`).  With
another batch under way it waits for completions that cannot come
(`BatchRead.blocks_beside_another`), and so it does behind a failed read.
-/

namespace Lsmkv

namespace BatchRead

open Interleaving

/-- What has become of a task of a batch. -/
inductive Task
  /-- `Async_ReadOne` is not called yet. -/
  | created
  /-- The task runs, and so many reads are behind it. -/
  | inside (stage : ℕ)
  /-- A read is submitted. -/
  | submitted (stage : ℕ)
  /-- The completion of a read is in the ring, with its result's sign. -/
  | completed (stage : ℕ) (ok : Bool)
  /-- The result was negative, and the task was not resumed. -/
  | lost
  /-- The guard is to be destroyed by hand. -/
  | leaving
  /-- The guard is to be destroyed at the end of its scope. -/
  | left
  | done
  deriving DecidableEq

/-- Where a batch is. -/
inductive Place
  | idle
  /-- `active_tasks += metas.size()`. -/
  | adding
  /-- The loop that calls `Async_ReadOne`. -/
  | creating
  /-- A task has the thread, called from the loop or resumed by a completion. -/
  | run (task : ℕ) (called : Bool)
  /-- The test of `active_tasks`. -/
  | testing
  /-- `io_uring_wait_cqe`. -/
  | waiting
  /-- The loop over the completions. -/
  | processing
  /-- Behind the loop of `ReadAsyncBatch`. -/
  | ended
  deriving DecidableEq

/-- A call of `ReadAsyncBatch` with its tasks. -/
structure Batch where
  place : Place
  tasks : List Task
  deriving DecidableEq

/-- The completion of a read of the task is in the ring. -/
def Task.isCompleted : Task → Bool
  | .completed _ _ => true
  | _ => false

/-- The completion is there, with a negative result. -/
def Task.failed : Task → Bool
  | .completed _ ok => !ok
  | _ => false

/-- A batch goes on, and one of its tasks changes. -/
def Batch.set (b : Batch) (place : Place) (k : ℕ) (t : Task) : Batch := ⟨place, b.tasks.set k t⟩

/-- The thread goes back to who called or resumed a task. -/
def back (called : Bool) : Place := if called then .creating else .processing

/-- A step down of the counter. -/
def decrement (active : ℕ) : ℕ := (active + 2 ^ 32 - 1) % 2 ^ 32

/-- **One step of a batch.**  The counter `active_tasks` is shared by all batches. -/
inductive Next {ι : Type*} (i : ι) : ℕ → Batch → ℕ → Batch → Prop
  /-- A batch of more than one table; a ring takes at most 32768. -/
  | call {active : ℕ} {b : Batch} (size : ℕ) (idle : b.place = .idle) (more : 1 < size)
      (fits : size ≤ 32768) : Next i active b active ⟨.adding, List.replicate size .created⟩
  | add {active : ℕ} {b : Batch} (here : b.place = .adding) :
      Next i active b ((active + b.tasks.length) % 2 ^ 32) { b with place := .creating }
  /-- `Async_ReadOne` opens the file and makes its guard. -/
  | create {active : ℕ} {b : Batch} (k : ℕ) (here : b.place = .creating)
      (this : b.tasks[k]? = some .created) (first : ∀ j < k, b.tasks[j]? ≠ some .created) :
      Next i active b ((active + 1) % 2 ^ 32) (b.set (.run k true) k (.inside 0))
  | created {active : ℕ} {b : Batch} (here : b.place = .creating)
      (all : ∀ t ∈ b.tasks, t ≠ .created) : Next i active b active { b with place := .testing }
  /-- The task submits its next read, the fourth at the latest, and suspends. -/
  | submit {active : ℕ} {b : Batch} {k stage : ℕ} {called : Bool} (here : b.place = .run k called)
      (runs : b.tasks[k]? = some (.inside stage)) (more : stage < 4) :
      Next i active b active (b.set (back called) k (.submitted stage))
  /-- The task has its result: an error, that the key is not there, or its place. -/
  | leave {active : ℕ} {b : Batch} {k stage : ℕ} {called : Bool} (here : b.place = .run k called)
      (runs : b.tasks[k]? = some (.inside stage)) :
      Next i active b active (b.set (.run k called) k .leaving)
  | destroy {active : ℕ} {b : Batch} {k : ℕ} {called : Bool} (here : b.place = .run k called)
      (leaves : b.tasks[k]? = some .leaving) :
      Next i active b (decrement active) (b.set (.run k called) k .left)
  | scopeEnd {active : ℕ} {b : Batch} {k : ℕ} {called : Bool} (here : b.place = .run k called)
      (leaves : b.tasks[k]? = some .left) :
      Next i active b (decrement active) (b.set (back called) k .done)
  | test {active : ℕ} {b : Batch} (here : b.place = .testing) :
      Next i active b active { b with place := if active = 0 then .ended else .waiting }
  | woken {active : ℕ} {b : Batch} {k stage : ℕ} {ok : Bool} (here : b.place = .waiting)
      (ready : b.tasks[k]? = some (.completed stage ok)) :
      Next i active b active { b with place := .processing }
  | resume {active : ℕ} {b : Batch} {k stage : ℕ} (here : b.place = .processing)
      (ready : b.tasks[k]? = some (.completed stage true)) :
      Next i active b active (b.set (.run k false) k (.inside (stage + 1)))
  /-- The result is negative, and is only reported. -/
  | report {active : ℕ} {b : Batch} {k stage : ℕ} (here : b.place = .processing)
      (ready : b.tasks[k]? = some (.completed stage false)) :
      Next i active b active (b.set .processing k .lost)
  | advance {active : ℕ} {b : Batch} (here : b.place = .processing)
      (none : ∀ t ∈ b.tasks, t.isCompleted = false) :
      Next i active b active { b with place := .testing }
  | ret {active : ℕ} {b : Batch} (here : b.place = .ended) :
      Next i active b active { b with place := .idle }
  /-- The kernel completes a read. -/
  | complete {active : ℕ} {b : Batch} {k stage : ℕ} (ok : Bool)
      (under : b.tasks[k]? = some (.submitted stage)) :
      Next i active b active (b.set b.place k (.completed stage ok))

/-- The reader when it is made. -/
def new {ι : Type*} : Config ι ℕ Batch := ⟨0, fun _ => ⟨.idle, []⟩⟩

/-- The ring has a read of the task that is not consumed. -/
def Task.pending : Task → Bool
  | .submitted _ | .completed _ _ => true
  | _ => false

/-- A batch starts only when no other runs. -/
def StartsAlone {ι : Type*} (c : Config ι ℕ Batch) (i : ι) (c' : Config ι ℕ Batch) : Prop :=
  (c.pc i).place = .idle → (c'.pc i).place = .adding → ∀ j, (c.pc j).place = .idle

/-- No read has a negative result. -/
def AllRead {ι : Type*} (_ : Config ι ℕ Batch) (i : ι) (c' : Config ι ℕ Batch) : Prop :=
  ∀ stage, .completed stage false ∉ (c'.pc i).tasks

/-! ## What the tasks have to give back -/

/-- What a task has to give back of the counter. -/
def Task.weight : Task → ℕ
  | .created | .left => 1
  | .inside _ | .submitted _ | .completed _ _ | .lost | .leaving => 2
  | .done => 0

/-- What all tasks of a batch have to give back. -/
def Batch.total (b : Batch) : ℕ := (b.tasks.map Task.weight).sum

/-- What a batch has put on the counter and not taken off. -/
def Batch.counted (b : Batch) : ℕ := if b.place = .adding then 0 else b.total

/-- A task that the batch can leave alone: its read is under way, or it is done. -/
def Task.Settled : Task → Prop
  | .submitted _ | .completed _ true | .done => True
  | _ => False

/-- A task that has the thread. -/
def Task.Running : Task → Prop
  | .inside _ | .leaving | .left => True
  | _ => False

/-- What a task may be when its batch is at a place. -/
def Place.Allows (k : ℕ) (t : Task) : Place → Prop
  | .idle => t = .done
  | .adding => t = .created
  | .creating => t = .created ∨ t.Settled
  | .run j called => (k = j ∧ t.Running) ∨ (k ≠ j ∧ (t.Settled ∨ (called = true ∧ t = .created)))
  | .testing | .waiting | .processing | .ended => t.Settled

/-- **What holds of a batch.** -/
structure Sound (b : Batch) : Prop where
  fits : b.tasks.length ≤ 32768
  allows : ∀ k t, b.tasks[k]? = some t → b.place.Allows k t
  waits : b.place = .waiting → ∃ t ∈ b.tasks, t.pending = true
  ended : b.place = .ended → ∀ t ∈ b.tasks, t = .done

theorem total_set {b : Batch} {k : ℕ} {t : Task} (this : b.tasks[k]? = some t) (p : Place)
    (t' : Task) : (b.set p k t').total + t.weight = b.total + t'.weight :=
  Sums.sum_map_set Task.weight this t'

theorem total_le (b : Batch) : b.total ≤ 2 * b.tasks.length := by
  unfold Batch.total
  induction b.tasks with
  | nil => simp
  | cons t ts ih =>
      have ht : t.weight ≤ 2 := by cases t <;> simp [Task.weight]
      simp only [List.map_cons, List.sum_cons, List.length_cons]
      omega

/-- One task changes, and the others are allowed where the batch goes. -/
theorem allows_set {b : Batch} {p : Place} {k : ℕ} {t : Task}
    (others : ∀ j u, j ≠ k → b.tasks[j]? = some u → p.Allows j u) (this : p.Allows k t) (j : ℕ)
    (u : Task) (h : (b.set p k t).tasks[j]? = some u) : p.Allows j u := by
  rw [Batch.set, List.getElem?_set] at h
  split at h
  · rename_i heq
    split at h
    · rw [← Option.some.inj h, ← heq]
      exact this
    · simp at h
  · exact others j u (fun heq => ‹¬ k = j› heq.symm) h

/-- Settled tasks are pending or done. -/
theorem Task.Settled.cases {t : Task} (h : t.Settled) : t.pending = true ∨ t = .done := by
  cases t <;> simp_all [Task.Settled, Task.pending]

theorem Task.Settled.allows {t : Task} (h : t.Settled) (called : Bool) (k : ℕ) :
    (back called).Allows k t := by
  cases called with
  | true => exact .inr h
  | false => exact h

/-- When all tasks are settled and nothing is to be given back, all are done. -/
theorem done_of_total {b : Batch} (settled : ∀ t ∈ b.tasks, t.Settled) (zero : b.total = 0) :
    ∀ t ∈ b.tasks, t = .done := by
  intro t ht
  rcases (settled t ht).cases with hpend | hdone
  · have hle : t.weight ≤ b.total := List.single_le_sum (by simp) _ (List.mem_map_of_mem ht)
    cases t <;> simp_all [Task.pending, Task.weight]
  · exact hdone

/-- When all tasks are settled and something is to be given back, a read is under way. -/
theorem pending_of_total {b : Batch} (settled : ∀ t ∈ b.tasks, t.Settled) (pos : b.total ≠ 0) :
    ∃ t ∈ b.tasks, t.pending = true := by
  by_contra hnone
  simp only [not_exists, not_and] at hnone
  refine pos (List.sum_eq_zero fun n hn => ?_)
  obtain ⟨t, ht, rfl⟩ := List.mem_map.mp hn
  rcases (settled t ht).cases with hpend | rfl
  · exact absurd hpend (hnone t ht)
  · rfl

section Steps

variable {ι : Type*} {i : ι} {active active' : ℕ} {b b' : Batch}

theorem Sound.settled (h : Sound b)
    (here : b.place = .testing ∨ b.place = .waiting ∨ b.place = .processing ∨ b.place = .ended) :
    ∀ t ∈ b.tasks, t.Settled := by
  intro t ht
  obtain ⟨k, hk⟩ := List.mem_iff_getElem?.mp ht
  have hallows := h.allows k t hk
  rcases here with here | here | here | here
  all_goals rwa [here] at hallows

/-- The counter of a batch that runs alone is far from its bounds. -/
theorem Sound.total_lt (h : Sound b) : b.total + 32768 < 2 ^ 32 := by
  have := total_le b
  have := h.fits
  omega

theorem Sound.set_fits (h : Sound b) (p : Place) (k : ℕ) (t : Task) :
    (b.set p k t).tasks.length ≤ 32768 := by
  rw [Batch.set, List.length_set]
  exact h.fits

/-- A task that runs changes, and keeps the thread. -/
theorem Sound.set_run (h : Sound b) {k : ℕ} {called : Bool} (here : b.place = .run k called)
    {t : Task} (runs : t.Running) : Sound (b.set (.run k called) k t) where
  fits := h.set_fits _ _ _
  allows := by
    refine allows_set (fun j u hj hu => ?_) (.inl ⟨rfl, runs⟩)
    have := h.allows j u hu
    rwa [here] at this
  waits hwait := by simp [Batch.set] at hwait
  ended hend := by simp [Batch.set] at hend

/-- A task that runs is settled, and gives the thread back. -/
theorem Sound.set_back (h : Sound b) {k : ℕ} {called : Bool} (here : b.place = .run k called)
    {t : Task} (settled : t.Settled) : Sound (b.set (back called) k t) where
  fits := h.set_fits _ _ _
  allows := by
    refine allows_set (fun j u hj hu => ?_) (settled.allows called k)
    have hallows := h.allows j u hu
    rw [here] at hallows
    rcases hallows with ⟨heq, -⟩ | ⟨-, hu | ⟨rfl, rfl⟩⟩
    · exact absurd heq hj
    · exact hu.allows called j
    · exact .inl rfl
  waits hwait := by cases called <;> simp [Batch.set, back] at hwait
  ended hend := by cases called <;> simp [Batch.set, back] at hend

/-- A settled task of a batch that processes completions is resumed. -/
theorem Sound.set_resume (h : Sound b) (here : b.place = .processing) {k : ℕ} {t : Task}
    (runs : t.Running) : Sound (b.set (.run k false) k t) where
  fits := h.set_fits _ _ _
  allows := by
    refine allows_set (fun j u hj hu => .inr ⟨hj, .inl ?_⟩) (.inl ⟨rfl, runs⟩)
    exact h.settled (.inr (.inr (.inl here))) u (List.mem_of_getElem? hu)
  waits hwait := by simp [Batch.set] at hwait
  ended hend := by simp [Batch.set] at hend

/-- A task is called. -/
theorem Sound.set_create (h : Sound b) (here : b.place = .creating) {k : ℕ} {t : Task}
    (runs : t.Running) : Sound (b.set (.run k true) k t) where
  fits := h.set_fits _ _ _
  allows := by
    refine allows_set (fun j u hj hu => ?_) (.inl ⟨rfl, runs⟩)
    have hallows := h.allows j u hu
    rw [here] at hallows
    exact .inr ⟨hj, hallows.symm.imp_right fun hu => ⟨rfl, hu⟩⟩
  waits hwait := by simp [Batch.set] at hwait
  ended hend := by simp [Batch.set] at hend

/-- No read is under way before the tasks are called, and behind the batch. -/
theorem Sound.not_under (h : Sound b) (here : b.place = .idle ∨ b.place = .adding) {k stage : ℕ}
    (under : b.tasks[k]? = some (.submitted stage)) : False := by
  have hallows := h.allows k _ under
  rcases here with here | here
  · rw [here] at hallows
    simp [Place.Allows] at hallows
  · rw [here] at hallows
    simp [Place.Allows] at hallows

/-- **The kernel completes a read**, wherever the batch is. -/
theorem Sound.complete (h : Sound b) {k stage : ℕ} (under : b.tasks[k]? = some (.submitted stage)) :
    Sound (b.set b.place k (.completed stage true)) where
  fits := h.set_fits _ _ _
  allows := by
    refine allows_set (fun j u hj hu => h.allows j u hu) ?_
    have hallows := h.allows k _ under
    cases hp : b.place with
    | run j called =>
        rw [hp] at hallows
        rcases hallows with ⟨-, hrun⟩ | ⟨hne, -⟩
        · exact absurd hrun (by simp [Task.Running])
        · exact .inr ⟨hne, .inl trivial⟩
    | idle | adding => exact (h.not_under (by simp [hp]) under).elim
    | creating => exact .inr trivial
    | _ => trivial
  waits _ := by
    obtain ⟨hk, -⟩ := List.getElem?_eq_some_iff.mp under
    exact ⟨_, List.mem_set hk _, rfl⟩
  ended hend := by
    have hall := h.ended hend _ (List.mem_of_getElem? under)
    simp at hall

/-- What a batch that runs alone leaves on the counter. -/
def Balanced (active : ℕ) (b : Batch) : Prop := if b.place = .idle then active = 0 else active = b.counted

theorem Balanced.total (h : Balanced active b) (busy : b.place ≠ .idle) (added : b.place ≠ .adding) :
    active = b.total := by
  rwa [Balanced, if_neg busy, Batch.counted, if_neg added] at h

theorem Balanced.of_total (h : active = b.total) (busy : b.place ≠ .idle) (added : b.place ≠ .adding) :
    Balanced active b := by
  rwa [Balanced, if_neg busy, Batch.counted, if_neg added]

/-- A task changes and keeps what it has to give back. -/
theorem Balanced.set (h : Balanced active b) (busy : b.place ≠ .idle) (added : b.place ≠ .adding)
    {k : ℕ} {t t' : Task} {p : Place} (this : b.tasks[k]? = some t) (same : t'.weight = t.weight)
    (busy' : p ≠ .idle) (added' : p ≠ .adding) : Balanced active (b.set p k t') := by
  refine .of_total ?_ busy' added'
  have := total_set this p t'
  rw [h.total busy added]
  omega

/-- A task gives one back. -/
theorem Balanced.decrement (h : Balanced active b) (sound : Sound b) (busy : b.place ≠ .idle)
    (added : b.place ≠ .adding) {k : ℕ} {t t' : Task} {p : Place} (this : b.tasks[k]? = some t)
    (less : t'.weight + 1 = t.weight) (busy' : p ≠ .idle) (added' : p ≠ .adding) :
    Balanced (decrement active) (b.set p k t') := by
  refine .of_total ?_ busy' added'
  have hset := total_set this p t'
  have hlt := sound.total_lt
  rw [h.total busy added, BatchRead.decrement]
  have hsub : b.total + 2 ^ 32 - 1 = b.total - 1 + 2 ^ 32 := by omega
  rw [hsub, Nat.add_mod_right, Nat.mod_eq_of_lt (by omega)]
  omega

theorem back_ne (called : Bool) : back called ≠ .idle ∧ back called ≠ .adding := by
  cases called <;> exact ⟨by decide, by decide⟩

/-- **A step of a batch that runs alone**, and whose reads succeed. -/
theorem Sound.step (h : Sound b) (balanced : Balanced active b)
    (moved : Next i active b active' b') (reads : ∀ stage, .completed stage false ∉ b'.tasks) :
    Sound b' ∧ Balanced active' b' := by
  cases moved with
  | call size idle more fits =>
      refine ⟨⟨by simpa using fits, fun k t hk => ?_, by simp, by simp⟩, ?_⟩
      · exact List.eq_of_mem_replicate (List.mem_of_getElem? hk)
      · rw [Balanced, if_pos idle] at balanced
        simp [Balanced, Batch.counted, balanced]
  -- `AddTasks` counts every task before any of them runs
  | add here =>
      have hall : ∀ (k : ℕ) (t : Task), b.tasks[k]? = some t → t = .created := by
        intro k t hk
        have := h.allows k t hk
        rwa [here] at this
      refine ⟨⟨h.fits, fun k t hk => .inl (hall k t hk), by simp, by simp⟩, .of_total ?_ (by simp) (by simp)⟩
      have hzero : active = 0 := by
        rw [Balanced, if_neg (by simp [here]), Batch.counted, if_pos here] at balanced
        exact balanced
      have htotal : b.total = b.tasks.length := by
        have hmap : b.tasks.map Task.weight = List.replicate b.tasks.length 1 := by
          refine List.eq_replicate_iff.mpr ⟨by simp, fun n hn => ?_⟩
          obtain ⟨t, ht, rfl⟩ := List.mem_map.mp hn
          obtain ⟨k, hk⟩ := List.mem_iff_getElem?.mp ht
          rw [hall k t hk]
          rfl
        rw [Batch.total, hmap, List.sum_replicate_nat, Nat.mul_one]
      have := h.fits
      rw [hzero, Nat.zero_add, Nat.mod_eq_of_lt (by omega)]
      exact htotal.symm
  -- a task runs up to its first suspension while the batch is still being created
  | create k here this first =>
      refine ⟨h.set_create here trivial, .of_total ?_ (by simp [Batch.set]) (by simp [Batch.set])⟩
      have hset := total_set this (.run k true) (.inside 0)
      have hlt := h.total_lt
      rw [balanced.total (by simp [here]) (by simp [here]), Nat.mod_eq_of_lt (by omega)]
      simp only [Task.weight] at hset
      omega
  | created here all =>
      refine ⟨⟨h.fits, fun k t hk => ?_, by simp, by simp⟩, .of_total ?_ (by simp) (by simp)⟩
      · have hallows := h.allows k t hk
        rw [here] at hallows
        exact hallows.resolve_left (all t (List.mem_of_getElem? hk))
      · exact balanced.total (by simp [here]) (by simp [here])
  | submit here runs more =>
      exact ⟨h.set_back here trivial,
        balanced.set (by simp [here]) (by simp [here]) runs rfl (back_ne _).1 (back_ne _).2⟩
  | leave here runs =>
      exact ⟨h.set_run here trivial,
        balanced.set (by simp [here]) (by simp [here]) runs rfl (by simp) (by simp)⟩
  -- the two decrements: the weight of the task goes down with the count
  | destroy here leaves =>
      exact ⟨h.set_run here trivial,
        balanced.decrement h (by simp [here]) (by simp [here]) leaves rfl (by simp) (by simp)⟩
  | scopeEnd here leaves =>
      exact ⟨h.set_back here trivial,
        balanced.decrement h (by simp [here]) (by simp [here]) leaves rfl (back_ne _).1 (back_ne _).2⟩
  -- the test of `Run`: the count is zero exactly if no task has anything left
  | test here =>
      have hsettled := h.settled (.inl here)
      have htotal := balanced.total (by simp [here]) (by simp [here])
      by_cases hzero : active = 0
      · simp only [if_pos hzero]
        refine ⟨⟨h.fits, fun k t hk => hsettled t (List.mem_of_getElem? hk), by simp, fun _ => ?_⟩,
          .of_total htotal (by simp) (by simp)⟩
        exact done_of_total hsettled (htotal.symm.trans hzero)
      · simp only [if_neg hzero]
        refine ⟨⟨h.fits, fun k t hk => hsettled t (List.mem_of_getElem? hk), fun _ => ?_, by simp⟩,
          .of_total htotal (by simp) (by simp)⟩
        exact pending_of_total hsettled (htotal ▸ hzero)
  | woken here ready =>
      have hsettled := h.settled (.inr (.inl here))
      exact ⟨⟨h.fits, fun k t hk => hsettled t (List.mem_of_getElem? hk), by simp, by simp⟩,
        .of_total (balanced.total (by simp [here]) (by simp [here])) (by simp) (by simp)⟩
  | resume here ready =>
      exact ⟨h.set_resume here trivial,
        balanced.set (by simp [here]) (by simp [here]) ready rfl (by simp) (by simp)⟩
  -- a settled batch has no failed read to report
  | @report k stage here ready =>
      have hsettled := h.settled (.inr (.inr (.inl here))) _ (List.mem_of_getElem? ready)
      exact absurd hsettled (by simp [Task.Settled])
  | advance here none =>
      have hsettled := h.settled (.inr (.inr (.inl here)))
      exact ⟨⟨h.fits, fun k t hk => hsettled t (List.mem_of_getElem? hk), by simp, by simp⟩,
        .of_total (balanced.total (by simp [here]) (by simp [here])) (by simp) (by simp)⟩
  | ret here =>
      refine ⟨⟨h.fits, fun k t hk => h.ended here t (List.mem_of_getElem? hk), by simp, by simp⟩, ?_⟩
      have hdone : b.total = 0 := by
        refine List.sum_eq_zero fun n hn => ?_
        obtain ⟨t, ht, rfl⟩ := List.mem_map.mp hn
        rw [h.ended here t ht]
        rfl
      simp only [Balanced, if_true]
      rw [balanced.total (by simp [here]) (by simp [here]), hdone]
  -- a completion does not change the count, and a failed one is excluded by `reads`
  | @complete k stage ok under =>
      cases ok with
      | false =>
          obtain ⟨hk, -⟩ := List.getElem?_eq_some_iff.mp under
          exact absurd (List.mem_set hk _) (reads stage)
      | true =>
          refine ⟨h.complete under, ?_⟩
          have hidle : b.place ≠ .idle := fun here => h.not_under (.inl here) under
          have hadded : b.place ≠ .adding := fun here => h.not_under (.inr here) under
          exact balanced.set hidle hadded under rfl hidle hadded

/-- An idle batch can only be called. -/
theorem Sound.adding_of_idle (h : Sound b) (idle : b.place = .idle)
    (moved : Next i active b active' b') : b'.place = .adding := by
  cases moved with
  | call size _ more fits => rfl
  | complete ok under => exact (h.not_under (.inl idle) under).elim
  | create _ here _ _ | add here | created here _ | submit here _ _ | leave here _ | destroy here _
  | scopeEnd here _ | test here | woken here _ | resume here _ | report here _ | advance here _
  | ret here => exact absurd (idle.symm.trans here) (by simp)

end Steps

section Runs

variable {ι : Type*} [DecidableEq ι] {c : Config ι ℕ Batch}

/-- **What holds of the batches of a run**, each alone. -/
structure Whole (c : Config ι ℕ Batch) : Prop where
  alone : ∀ i j, (c.pc i).place ≠ .idle → (c.pc j).place ≠ .idle → i = j
  rest : (∀ i, (c.pc i).place = .idle) → c.shared = 0

/-- What holds of a batch and the counter. -/
def Assertion (_ : ι) (active : ℕ) (b : Batch) : Prop :=
  Sound b ∧ (b.place ≠ .idle → active = b.counted)

/-- A batch that moves has the counter for itself. -/
theorem Whole.balanced (h : Whole c) (batches : ∀ j, Assertion j c.shared (c.pc j)) {i : ι}
    {active : ℕ} {b : Batch} (moved : Next i c.shared (c.pc i) active b)
    (alone : StartsAlone c i (c.move i active b)) :
    Balanced c.shared (c.pc i) ∧ ∀ j, j ≠ i → (c.pc j).place = .idle := by
  by_cases hidle : (c.pc i).place = .idle
  · have hadding := (batches i).1.adding_of_idle hidle moved
    have hall := alone hidle (by rwa [Config.move_pc_self])
    rw [Balanced, if_pos hidle]
    exact ⟨h.rest hall, fun j _ => hall j⟩
  · rw [Balanced, if_neg hidle]
    refine ⟨(batches i).2 hidle, fun j hj => ?_⟩
    by_contra hbusy
    exact hj (h.alone j i hbusy hidle)

theorem invariant_of_reachable
    (h : Reachable Next (fun c i c' => StartsAlone c i c' ∧ AllRead c i c') new c) :
    Whole c ∧ ∀ i, Assertion i c.shared (c.pc i) := by
  refine h.outline ⟨by simp [new], by simp [new]⟩ (fun i => ⟨⟨?_, ?_, ?_, ?_⟩, ?_⟩)
    (fun c i active b hwhole hbatches hmoved hmeets => ?_)
    (fun c i active b j hwhole hbatches hmoved hmeets hne => ?_)
  · simp [new]
  · simp [new]
  · simp [new]
  · simp [new]
  · simp [new]
  · obtain ⟨hbal, hothers⟩ := hwhole.balanced hbatches hmoved hmeets.1
    have hreads := hmeets.2
    rw [AllRead, Config.move_pc_self] at hreads
    obtain ⟨hsound, hbal'⟩ := (hbatches i).1.step hbal hmoved hreads
    have hidle : ∀ j, ((c.move i active b).pc j).place ≠ .idle → j = i := by
      intro j hj
      by_contra hne
      rw [Config.move_pc_of_ne c hne] at hj
      exact hj (hothers j hne)
    refine ⟨⟨fun j k hj hk => (hidle j hj).trans (hidle k hk).symm, fun hall => ?_⟩, hsound, ?_⟩
    · have hi := hall i
      rw [Config.move_pc_self] at hi
      rwa [Balanced, if_pos hi] at hbal'
    · intro hbusy
      rwa [Balanced, if_neg hbusy] at hbal'
  · refine ⟨(hbatches j).1, fun hbusy => absurd ?_ hbusy⟩
    exact (hwhole.balanced hbatches hmoved hmeets.1).2 j hne

/-- **A batch read never waits for nothing**, in every run in which batches do not overlap and
no read fails: where its loop waits for a completion, its ring has a read that is submitted and
not consumed; and behind its loop all its tasks are done. -/
theorem never_blocks
    (reached : Reachable Next (fun c i c' => StartsAlone c i c' ∧ AllRead c i c') new c) (i : ι) :
    ((c.pc i).place = .waiting → ∃ t ∈ (c.pc i).tasks, t.pending = true) ∧
      ((c.pc i).place = .ended → ∀ t ∈ (c.pc i).tasks, t = .done) := by
  obtain ⟨-, hbatches⟩ := invariant_of_reachable reached
  exact ⟨(hbatches i).1.waits, (hbatches i).1.ended⟩

end Runs

/-- A batch of two tables waits for its first reads. -/
theorem never_blocks_two_tables :
    ∃ c : Config (Fin 1) ℕ Batch,
      Reachable Next (fun c i c' => StartsAlone c i c' ∧ AllRead c i c') new c ∧
      (c.pc 0).place = .waiting ∧ ∃ t ∈ (c.pc 0).tasks, t.pending = true := by
  have hmeets : ∀ (c : Config (Fin 1) ℕ Batch) (m : ℕ) (b : Batch),
      (∀ t ∈ b.tasks, t.isCompleted = false) →
      StartsAlone c 0 (c.move 0 m b) ∧ AllRead c 0 (c.move 0 m b) := by
    intro c m b hb
    refine ⟨fun hidle _ j => ?_, fun stage hmem => ?_⟩
    · rwa [Subsingleton.elim j 0]
    · rw [Config.move_pc_self] at hmem
      simpa [Task.isCompleted] using hb _ hmem
  have h₀ : Reachable Next (fun c i c' => StartsAlone c i c' ∧ AllRead c i c')
      (new : Config (Fin 1) ℕ Batch) new := .start
  have h₁ := h₀.move 0 (.call 2 rfl (by decide) (by decide)) (hmeets _ _ _ (by decide))
  have h₂ := h₁.move 0 (.add rfl) (hmeets _ _ _ (by decide))
  have h₃ := h₂.move 0 (.create 0 rfl rfl (by decide)) (hmeets _ _ _ (by decide))
  have h₄ := h₃.move 0 (.submit rfl rfl (by decide)) (hmeets _ _ _ (by decide))
  have h₅ := h₄.move 0 (.create 1 rfl rfl (by decide)) (hmeets _ _ _ (by decide))
  have h₆ := h₅.move 0 (.submit rfl rfl (by decide)) (hmeets _ _ _ (by decide))
  have h₇ := h₆.move 0 (.created rfl (by decide)) (hmeets _ _ _ (by decide))
  have h₈ := h₇.move 0 (.test rfl) (hmeets _ _ _ (by decide))
  exact ⟨_, h₈, rfl, (never_blocks h₈ 0).1 rfl⟩

/-- **A batch blocks beside another one.**  Two gets read two tables each.  The first one has
all its answers, from two reads for each table, while the second one has only raised the
counter: the counter is 2, and the first one waits, with nothing under way in its ring. -/
theorem blocks_beside_another :
    ∃ c : Config (Fin 2) ℕ Batch, Reachable Next AllRead new c ∧
      (c.pc 0).place = .waiting ∧ ∀ t ∈ (c.pc 0).tasks, t.pending = false := by
  have hread : ∀ (c : Config (Fin 2) ℕ Batch) (i : Fin 2) (m : ℕ) (b : Batch),
      (∀ t ∈ b.tasks, t.failed = false) → AllRead c i (c.move i m b) := by
    intro c i m b hb stage hmem
    rw [Config.move_pc_self] at hmem
    simpa [Task.failed] using hb _ hmem
  have h₀ : Reachable Next AllRead (new : Config (Fin 2) ℕ Batch) new := .start
  have h₁ := h₀.move 0 (.call 2 rfl (by decide) (by decide)) (hread _ _ _ _ (by decide))
  have h₂ := h₁.move 0 (.add rfl) (hread _ _ _ _ (by decide))
  have h₃ := h₂.move 0 (.create 0 rfl rfl (by decide)) (hread _ _ _ _ (by decide))
  have h₄ := h₃.move 0 (.submit rfl rfl (by decide)) (hread _ _ _ _ (by decide))
  have h₅ := h₄.move 0 (.create 1 rfl rfl (by decide)) (hread _ _ _ _ (by decide))
  have h₆ := h₅.move 0 (.submit rfl rfl (by decide)) (hread _ _ _ _ (by decide))
  have h₇ := h₆.move 0 (.created rfl (by decide)) (hread _ _ _ _ (by decide))
  have h₈ := h₇.move 0 (.test rfl) (hread _ _ _ _ (by decide))
  -- The second get raises the counter.
  have h₉ := h₈.move 1 (.call 2 rfl (by decide) (by decide)) (hread _ _ _ _ (by decide))
  have h₁₀ := h₉.move 1 (.add rfl) (hread _ _ _ _ (by decide))
  -- The reads of the first get complete, and it asks for the filters.
  have h₁₁ := h₁₀.move 0 (.complete (k := 0) true rfl) (hread _ _ _ _ (by decide))
  have h₁₂ := h₁₁.move 0 (.complete (k := 1) true rfl) (hread _ _ _ _ (by decide))
  have h₁₃ := h₁₂.move 0 (.woken (k := 0) rfl rfl) (hread _ _ _ _ (by decide))
  have h₁₄ := h₁₃.move 0 (.resume (k := 0) rfl rfl) (hread _ _ _ _ (by decide))
  have h₁₅ := h₁₄.move 0 (.submit rfl rfl (by decide)) (hread _ _ _ _ (by decide))
  have h₁₆ := h₁₅.move 0 (.resume (k := 1) rfl rfl) (hread _ _ _ _ (by decide))
  have h₁₇ := h₁₆.move 0 (.submit rfl rfl (by decide)) (hread _ _ _ _ (by decide))
  have h₁₈ := h₁₇.move 0 (.complete (k := 0) true rfl) (hread _ _ _ _ (by decide))
  have h₁₉ := h₁₈.move 0 (.complete (k := 1) true rfl) (hread _ _ _ _ (by decide))
  -- The filters say that the key is in neither table.
  have h₂₀ := h₁₉.move 0 (.resume (k := 0) rfl rfl) (hread _ _ _ _ (by decide))
  have h₂₁ := h₂₀.move 0 (.leave rfl rfl) (hread _ _ _ _ (by decide))
  have h₂₂ := h₂₁.move 0 (.destroy rfl rfl) (hread _ _ _ _ (by decide))
  have h₂₃ := h₂₂.move 0 (.scopeEnd rfl rfl) (hread _ _ _ _ (by decide))
  have h₂₄ := h₂₃.move 0 (.resume (k := 1) rfl rfl) (hread _ _ _ _ (by decide))
  have h₂₅ := h₂₄.move 0 (.leave rfl rfl) (hread _ _ _ _ (by decide))
  have h₂₆ := h₂₅.move 0 (.destroy rfl rfl) (hread _ _ _ _ (by decide))
  have h₂₇ := h₂₆.move 0 (.scopeEnd rfl rfl) (hread _ _ _ _ (by decide))
  have h₂₈ := h₂₇.move 0 (.advance rfl (by decide)) (hread _ _ _ _ (by decide))
  have h₂₉ := h₂₈.move 0 (.test rfl) (hread _ _ _ _ (by decide))
  exact ⟨_, h₂₉, rfl, by decide⟩

/-- **A batch blocks behind a failed read.**  One read of a get that runs alone fails; its task
is not resumed, and the counter stays positive. -/
theorem blocks_behind_failed_read :
    ∃ c : Config (Fin 1) ℕ Batch, Reachable Next StartsAlone new c ∧
      (c.pc 0).place = .waiting ∧ ∀ t ∈ (c.pc 0).tasks, t.pending = false := by
  have halone : ∀ (c c' : Config (Fin 1) ℕ Batch), StartsAlone c 0 c' := by
    intro c c' hidle _ j
    rwa [Subsingleton.elim j 0]
  have h₀ : Reachable Next StartsAlone (new : Config (Fin 1) ℕ Batch) new := .start
  have h₁ := h₀.move 0 (.call 2 rfl (by decide) (by decide)) (halone _ _)
  have h₂ := h₁.move 0 (.add rfl) (halone _ _)
  have h₃ := h₂.move 0 (.create 0 rfl rfl (by decide)) (halone _ _)
  have h₄ := h₃.move 0 (.submit rfl rfl (by decide)) (halone _ _)
  have h₅ := h₄.move 0 (.create 1 rfl rfl (by decide)) (halone _ _)
  have h₆ := h₅.move 0 (.submit rfl rfl (by decide)) (halone _ _)
  have h₇ := h₆.move 0 (.created rfl (by decide)) (halone _ _)
  have h₈ := h₇.move 0 (.test rfl) (halone _ _)
  have h₉ := h₈.move 0 (.complete (k := 0) false rfl) (halone _ _)
  have h₁₀ := h₉.move 0 (.complete (k := 1) false rfl) (halone _ _)
  have h₁₁ := h₁₀.move 0 (.woken (k := 0) rfl rfl) (halone _ _)
  have h₁₂ := h₁₁.move 0 (.report (k := 0) rfl rfl) (halone _ _)
  have h₁₃ := h₁₂.move 0 (.report (k := 1) rfl rfl) (halone _ _)
  have h₁₄ := h₁₃.move 0 (.advance rfl (by decide)) (halone _ _)
  have h₁₅ := h₁₄.move 0 (.test rfl) (halone _ _)
  exact ⟨_, h₁₅, rfl, by decide⟩

/-- A batch blocks in either case. -/
theorem blocks_on_idle_ring :
    (∃ c : Config (Fin 2) ℕ Batch, Reachable Next AllRead new c ∧
      (c.pc 0).place = .waiting ∧ ∀ t ∈ (c.pc 0).tasks, t.pending = false) ∧
    ∃ c : Config (Fin 1) ℕ Batch, Reachable Next StartsAlone new c ∧
      (c.pc 0).place = .waiting ∧ ∀ t ∈ (c.pc 0).tasks, t.pending = false :=
  ⟨blocks_beside_another, blocks_behind_failed_read⟩

end BatchRead

end Lsmkv
