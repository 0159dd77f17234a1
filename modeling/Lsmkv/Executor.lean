import Lsmkv.Lib.Custody
import Mathlib.Algebra.Order.BigOperators.Group.Finset
import Mathlib.Algebra.Order.Group.Multiset
import Mathlib.Data.Fintype.Sum
import Mathlib.Tactic.DeriveFintype

/-!
# The executor

`Executor` (`utils/executor.h`) runs tasks on a fixed number of threads: the flushes and
compactions of a store, and the deletion of its files.  `submit` pushes a task on a queue and
releases a semaphore; a thread acquires the semaphore, tests `stop_`, pops a task and runs it.
`Shutdown` sets `stop_`, releases the semaphore once for every thread, and joins them.

A thread that has acquired a token owes the queue a task, and somebody who has pushed a task
owes the semaphore a token (`Executor.Whole`).  So there is a token for every task that waits,
`pop` never finds the queue empty (`Executor.tokens_match`), and tasks are started in the order
in which they were submitted, each once (`Executor.tasks_once`).  Every thread gets to see
`stop_`; the tasks that are still in the queue then are never run
(`Executor.shutdown_abandons`).

`push` and `pop` of the queue are one step each here; `Lsmkv.ExecutorQueue` takes them step by step.
-/

namespace Lsmkv

namespace Executor

open Interleaving

/-- The threads of the executor, those that submit tasks, and the owner, which shuts it down. -/
inductive Thread (n : ℕ) (κ : Type)
  | worker (i : Fin n)
  | client (k : κ)
  | owner
  deriving DecidableEq, Fintype

/-- The executor.  `gone` are the threads that have left `StartSchedule`.  The last four fields
say what has happened: the tokens that `Shutdown` has released, and the tasks that were pushed,
popped and run to their end. -/
structure Shared (n : ℕ) (T : Type) where
  stop : Bool
  sem : ℕ
  queue : List T
  gone : Fin n → Bool
  released : ℕ
  submitted : List T
  started : List T
  finished : List T

/-- The next step of a thread. -/
inductive Place (T : Type)
  /-- `StartSchedule`: acquiring the semaphore, the test of `stop_`, the pop, and the task. -/
  | acquire
  | testStop
  | pop
  | run (t : T)
  | exited
  /-- The task submits another one: the semaphore is still to be released. -/
  | runPost (t : T)
  /-- A thread that submits tasks, and behind the push of one. -/
  | idle
  | post
  /-- `Shutdown`: before it, the release of the semaphore, and joining thread `k`. -/
  | running
  | releaseAll
  | join (k : ℕ)

section Steps

variable {n : ℕ} {κ T : Type}

/-- A task is pushed. -/
def Shared.push (m : Shared n T) (t : T) : Shared n T :=
  { m with queue := m.queue ++ [t], submitted := m.submitted ++ [t] }

/-- **One step of a thread.** -/
inductive Next : Thread n κ → Shared n T → Place T → Shared n T → Place T → Prop
  | submit {k : κ} {m : Shared n T} (t : T) : Next (.client k) m .idle (m.push t) .post
  | post {k : κ} {m : Shared n T} :
      Next (.client k) m .post { m with sem := m.sem + 1 } .idle
  | acquire {i : Fin n} {m : Shared n T} {k : ℕ} (token : m.sem = k + 1) :
      Next (.worker i) m .acquire { m with sem := k } .testStop
  | stops {i : Fin n} {m : Shared n T} (stop : m.stop = true) :
      Next (.worker i) m .testStop { m with gone := Function.update m.gone i true } .exited
  | goesOn {i : Fin n} {m : Shared n T} (stop : m.stop = false) :
      Next (.worker i) m .testStop m .pop
  | pop {i : Fin n} {m : Shared n T} {t : T} {rest : List T} (front : m.queue = t :: rest) :
      Next (.worker i) m .pop { m with queue := rest, started := m.started ++ [t] } (.run t)
  | popFails {i : Fin n} {m : Shared n T} (empty : m.queue = []) :
      Next (.worker i) m .pop m .acquire
  | runSubmit {i : Fin n} {m : Shared n T} {t : T} (t' : T) :
      Next (.worker i) m (.run t) (m.push t') (.runPost t)
  | runPost {i : Fin n} {m : Shared n T} {t : T} :
      Next (.worker i) m (.runPost t) { m with sem := m.sem + 1 } (.run t)
  | finish {i : Fin n} {m : Shared n T} {t : T} :
      Next (.worker i) m (.run t) { m with finished := m.finished ++ [t] } .acquire
  | shutdown {m : Shared n T} : Next .owner m .running { m with stop := true } .releaseAll
  | releaseAll {m : Shared n T} :
      Next .owner m .releaseAll { m with sem := m.sem + n, released := n } (.join 0)
  | join {m : Shared n T} {k : ℕ} (lt : k < n) (gone : m.gone ⟨k, lt⟩ = true) :
      Next .owner m (.join k) m (.join (k + 1))

/-- The executor when it is made. -/
def new : Config (Thread n κ) (Shared n T) (Place T) :=
  ⟨⟨false, 0, [], fun _ => false, 0, [], [], []⟩, fun
    | .worker _ => .acquire
    | .client _ => .idle
    | .owner => .running⟩

end Steps

namespace Place

variable {T : Type}

/-- The token that the thread has acquired. -/
def holding : Place T → ℕ
  | .testStop | .pop => 1
  | _ => 0

/-- The task that the thread is about to pop. -/
def popping : Place T → ℕ
  | .pop => 1
  | _ => 0

/-- The token that the thread has to release for a task it has pushed. -/
def posting : Place T → ℕ
  | .post | .runPost _ => 1
  | _ => 0

/-- The token with which the thread has left its loop. -/
def left : Place T → ℕ
  | .exited => 1
  | _ => 0

/-- The task that the thread runs. -/
def task : Place T → Multiset T
  | .run t | .runPost t => {t}
  | _ => 0

end Place

/-! ## The invariant -/

section Invariant

variable {n : ℕ} {κ T : Type} [Fintype κ]

/-- **What holds of the whole.**  Tokens that were acquired and tasks whose token is not
released yet make up for the difference between the semaphore and the queue. -/
structure Whole (c : Config (Thread n κ) (Shared n T) (Place T)) : Prop where
  order : c.shared.submitted = c.shared.started ++ c.shared.queue
  tasks : (c.shared.started : Multiset T) = c.shared.finished + c.sum Place.task
  tokens : c.shared.sem + c.sum Place.holding + c.sum Place.left
    + c.sum Place.posting = c.shared.queue.length + c.shared.released
  room : c.sum Place.popping + c.sum Place.posting ≤ c.shared.queue.length
  stays : c.shared.stop = false → c.sum Place.left = 0
  released : c.shared.stop = false → c.shared.released = 0

/-- **What holds of a thread**: it is at a place of its own, and what the shared state says
about it is so. -/
def Assertion : Thread n κ → Shared n T → Place T → Prop
  | .worker i, m, p => (m.gone i = true ↔ p.left = 1) ∧
      match p with
      | .acquire | .testStop | .pop | .run _ | .runPost _ | .exited => True
      | _ => False
  | .client _, _, p => p = .idle ∨ p = .post
  | .owner, m, p =>
      (p = .running ∧ m.stop = false ∧ m.released = 0) ∨ (p = .releaseAll ∧ m.stop = true ∧ m.released = 0) ∨
        ∃ k ≤ n, p = .join k ∧ m.stop = true ∧ m.released = n ∧ ∀ i : Fin n, i < k → m.gone i = true

theorem whole_new : Whole (new : Config (Thread n κ) (Shared n T) (Place T)) := by
  have hsum : ∀ {M : Type} [AddCommMonoid M] (f : Place T → M), f .acquire = 0 → f .idle = 0 →
      f .running = 0 → (new : Config (Thread n κ) (Shared n T) (Place T)).sum f = 0 := by
    intro M _ f hacquire hidle hrunning
    refine Finset.sum_eq_zero fun t _ => ?_
    cases t with
    | worker i => exact hacquire
    | client k => exact hidle
    | owner => exact hrunning
  constructor
  · rfl
  · rw [hsum _ rfl rfl rfl]
    rfl
  · rw [hsum _ rfl rfl rfl, hsum _ rfl rfl rfl, hsum _ rfl rfl rfl]
    rfl
  · rw [hsum _ rfl rfl rfl, hsum _ rfl rfl rfl]
    rfl
  · exact fun _ => hsum _ rfl rfl rfl
  · exact fun _ => rfl

omit [Fintype κ] in
theorem assertion_new (t : Thread n κ) :
    Assertion t (new : Config (Thread n κ) (Shared n T) (Place T)).shared (new.pc t) := by
  cases t with
  | worker i => exact ⟨by simp [new, Place.left], trivial⟩
  | client k => exact .inl rfl
  | owner => exact .inl ⟨rfl, rfl, rfl⟩

variable [DecidableEq κ] {c : Config (Thread n κ) (Shared n T) (Place T)} {t : Thread n κ}
  {m : Shared n T} {p : Place T}

/-- **The order of the tasks behind a step.** -/
theorem Whole.order_move (h : Whole c) (moved : Next t c.shared (c.pc t) m p) :
    m.submitted = m.started ++ m.queue ∧
      (m.started : Multiset T) = m.finished + (c.move t m p).sum Place.task := by
  obtain ⟨order, tasks, -⟩ := h
  have hsum := c.sum_move Place.task t m p
  generalize c.shared = s at *
  generalize c.pc t = p₀ at *
  cases moved with
  | pop front =>
      rw [front] at order
      refine ⟨by simp [order], ?_⟩
      simp only [Place.task, add_zero] at hsum
      rw [hsum, ← add_assoc, ← tasks]
      rfl
  | finish =>
      refine ⟨order, ?_⟩
      simp only [Place.task, add_zero] at hsum
      rw [tasks, ← hsum, ← Multiset.coe_add, add_assoc, Multiset.coe_singleton, add_comm _ {_}]
  | runSubmit | runPost =>
      refine ⟨by simp [Shared.push, order], ?_⟩
      rw [add_left_injective _ hsum]
      exact tasks
  | submit | post | acquire | stops | goesOn | popFails | shutdown | releaseAll | join =>
      refine ⟨by simp [Shared.push, order], ?_⟩
      simp only [Place.task, add_zero] at hsum
      rw [hsum]
      exact tasks

omit [DecidableEq κ] in
/-- Who is about to pop a task has acquired a token. -/
theorem popping_le_holding (c : Config (Thread n κ) (Shared n T) (Place T)) :
    c.sum Place.popping ≤ c.sum Place.holding := by
  refine Finset.sum_le_sum fun t _ => ?_
  cases c.pc t <;> simp [Place.popping, Place.holding]

/-- **The tokens behind a step.** -/
theorem Whole.tokens_move (h : Whole c) (own : Assertion t c.shared (c.pc t))
    (moved : Next t c.shared (c.pc t) m p) :
    (m.sem + (c.move t m p).sum Place.holding + (c.move t m p).sum Place.left
      + (c.move t m p).sum Place.posting = m.queue.length + m.released) ∧
    (c.move t m p).sum Place.popping + (c.move t m p).sum Place.posting
      ≤ m.queue.length ∧
    (m.stop = false → (c.move t m p).sum Place.left = 0) ∧
    (m.stop = false → m.released = 0) := by
  obtain ⟨-, -, tokens, room, stays, released⟩ := h
  have hholding := c.sum_move Place.holding t m p
  have hpopping := c.sum_move Place.popping t m p
  have hposting := c.sum_move Place.posting t m p
  have hleft := c.sum_move Place.left t m p
  have hle := popping_le_holding (c.move t m p)
  generalize c.shared = s at *
  generalize c.pc t = p₀ at *
  cases moved with
  | pop front =>
      simp only [Place.holding, Place.popping, Place.posting, Place.left, front, List.length_cons] at *
      exact ⟨by omega, by omega, fun h => by have := stays h; omega, released⟩
  | submit | runSubmit =>
      simp only [Place.holding, Place.popping, Place.posting, Place.left, Shared.push,
        List.length_append, List.length_singleton] at *
      exact ⟨by omega, by omega, fun h => by have := stays h; omega, released⟩
  | post | acquire | finish | runPost | join =>
      simp only [Place.holding, Place.popping, Place.posting, Place.left] at *
      exact ⟨by omega, by omega, fun h => by have := stays h; omega, released⟩
  | stops stop =>
      simp only [Place.holding, Place.popping, Place.posting, Place.left] at *
      exact ⟨by omega, by omega, fun h => absurd (stop.symm.trans h) (by simp), released⟩
  | goesOn stop =>
      -- Nobody has left, and there are no tokens but those of tasks.
      have hstays := stays stop
      have hreleased := released stop
      simp only [Place.holding, Place.popping, Place.posting, Place.left] at *
      exact ⟨by omega, by omega, fun _ => by omega, released⟩
  | popFails empty =>
      simp only [Place.holding, Place.popping, Place.posting, Place.left, empty, List.length_nil] at *
      omega
  | shutdown =>
      simp only [Place.holding, Place.popping, Place.posting, Place.left] at *
      exact ⟨by omega, by omega, fun h => absurd h (by simp), fun h => absurd h (by simp)⟩
  | releaseAll =>
      obtain ⟨h, -⟩ | ⟨-, hstop, hnone⟩ | ⟨k, -, h, -⟩ := own
      · simp at h
      · simp only [Place.holding, Place.popping, Place.posting, Place.left] at *
        exact ⟨by omega, by omega, fun h => absurd (hstop.symm.trans h) (by simp),
          fun h => absurd (hstop.symm.trans h) (by simp)⟩
      · simp at h

/-- **A step keeps the invariant.** -/
theorem Whole.move (h : Whole c) (own : Assertion t c.shared (c.pc t))
    (moved : Next t c.shared (c.pc t) m p) : Whole (c.move t m p) := by
  obtain ⟨horder, htasks⟩ := h.order_move moved
  obtain ⟨htokens, hroom, hstays, hreleased⟩ := h.tokens_move own moved
  exact ⟨horder, htasks, htokens, hroom, hstays, hreleased⟩

omit [Fintype κ] [DecidableEq κ] in
/-- The assertion of the thread that moves. -/
theorem Assertion.own {s : Shared n T} {p₀ : Place T} (h : Assertion t s p₀)
    (moved : Next t s p₀ m p) : Assertion t m p := by
  cases moved with
  | submit => exact .inr rfl
  | post => exact .inl rfl
  | stops => exact ⟨by simp [Place.left], trivial⟩
  | acquire | goesOn | pop | popFails | runSubmit | runPost | finish =>
      exact ⟨h.1.trans (by simp [Place.left]), trivial⟩
  | shutdown =>
      obtain ⟨-, -, hnone⟩ | ⟨h, -⟩ | ⟨k, -, h, -⟩ := h
      · exact .inr (.inl ⟨rfl, rfl, hnone⟩)
      · cases h
      · cases h
  | releaseAll =>
      obtain ⟨h, -⟩ | ⟨-, hstop, -⟩ | ⟨k, -, h, -⟩ := h
      · cases h
      · exact .inr (.inr ⟨0, Nat.zero_le n, rfl, hstop, rfl, fun i hi => absurd hi (Nat.not_lt_zero i)⟩)
      · cases h
  | join lt gone =>
      obtain ⟨h, -⟩ | ⟨h, -⟩ | ⟨k, -, h, hstop, hreleased, hgone⟩ := h
      · cases h
      · cases h
      · cases h
        refine .inr (.inr ⟨_, lt, rfl, hstop, hreleased, fun i hi => ?_⟩)
        rcases Nat.lt_succ_iff_lt_or_eq.mp hi with hi | rfl
        · exact hgone i hi
        · exact gone

omit [Fintype κ] [DecidableEq κ] in
/-- The assertions of the other threads. -/
theorem Assertion.other {s : Shared n T} {p₀ q : Place T} {t' : Thread n κ} (h : Assertion t' s q)
    (moved : Next t s p₀ m p) (ne : t' ≠ t) : Assertion t' m q := by
  have howner : t' = .owner → m.stop = s.stop ∧ m.released = s.released ∧
      ∀ i, s.gone i = true → m.gone i = true := by
    rintro rfl
    cases moved with
    | @stops i =>
        refine ⟨rfl, rfl, fun j hj => ?_⟩
        by_cases hji : j = i
        · exact hji ▸ Function.update_self _ _ _
        · exact (Function.update_of_ne hji _ _).trans hj
    | shutdown | releaseAll | join => exact absurd rfl ne
    | _ => exact ⟨rfl, rfl, fun _ h => h⟩
  have hworker : ∀ i, t' = .worker i → m.gone i = s.gone i := by
    rintro i rfl
    cases moved with
    | stops => exact Function.update_of_ne (fun h => ne (congrArg _ h)) _ _
    | _ => rfl
  cases t' with
  | worker i => exact ⟨by rw [hworker i rfl]; exact h.1, h.2⟩
  | client k => exact h
  | owner =>
      obtain ⟨hstop, hreleased, hgone⟩ := howner rfl
      simp only [Assertion, hstop, hreleased]
      refine h.imp_right (Or.imp_right ?_)
      rintro ⟨k, hk, hp, hstop, hreleased, hall⟩
      exact ⟨k, hk, hp, hstop, hreleased, fun i hi => hgone i (hall i hi)⟩

/-- **The invariant of every run.** -/
theorem whole_of_reachable (h : Reachable Next (fun _ _ _ => True) new c) :
    Whole c ∧ ∀ t, Assertion t c.shared (c.pc t) :=
  h.outline whole_new assertion_new
    (fun _ t _ _ hwhole hall hmoved _ => ⟨hwhole.move (hall t) hmoved, (hall t).own hmoved⟩)
    fun _ _ _ _ t' _ hall hmoved _ hne => (hall t').other hmoved hne

/-! ## Tasks and tokens -/

/-- A run: two tasks are submitted to one thread, and the executor is shut down while the first
one runs. -/
theorem run_shutdown : ∃ c : Config (Thread 1 Unit) (Shared 1 ℕ) (Place ℕ),
    Reachable Next (fun _ _ _ => True) new c ∧ c.shared.stop = true ∧
      c.shared.submitted = [7, 8] ∧ c.shared.started = [7] ∧ c.shared.queue = [8] ∧
      c.shared.gone = (fun _ => false) ∧ c.shared.sem = 2 ∧ c.pc (.worker 0) = .run 7 ∧
      c.pc .owner = .join 0 := by
  have h₀ : Reachable Next (fun _ _ _ => True)
    (new : Config (Thread 1 Unit) (Shared 1 ℕ) (Place ℕ)) new := .start
  have h₁ := h₀.move (.client ()) (.submit 7) trivial
  have h₂ := h₁.move (.client ()) .post trivial
  have h₃ := h₂.move (.client ()) (.submit 8) trivial
  have h₄ := h₃.move (.client ()) .post trivial
  have h₅ := h₄.move (.worker 0) (.acquire rfl) trivial
  have h₆ := h₅.move (.worker 0) (.goesOn rfl) trivial
  have h₇ := h₆.move (.worker 0) (.pop rfl) trivial
  have h₈ := h₇.move .owner .shutdown trivial
  have h₉ := h₈.move .owner .releaseAll trivial
  exact ⟨_, h₉, rfl, rfl, rfl, rfl, rfl, rfl, rfl, rfl⟩

/-- **Each task is started once, in the order of submission.**  In every run, what was submitted
is what was started followed by the queue, and the tasks that were started have finished or are
each run by a thread. -/
theorem tasks_once (h : Reachable Next (fun _ _ _ => True) new c) :
    c.shared.submitted = c.shared.started ++ c.shared.queue ∧
      (c.shared.started : Multiset T) = c.shared.finished + c.sum Place.task :=
  ⟨(whole_of_reachable h).1.order, (whole_of_reachable h).1.tasks⟩

theorem tasks_once_run : ∃ c : Config (Thread 1 Unit) (Shared 1 ℕ) (Place ℕ),
    c.shared.started = [7] ∧ c.shared.queue = [8] ∧ c.shared.submitted = [7] ++ [8] ∧
      (c.shared.started : Multiset ℕ) = c.shared.finished + c.sum Place.task := by
  obtain ⟨c, h, -, -, hstarted, hqueue, -⟩ := run_shutdown
  obtain ⟨horder, htasks⟩ := tasks_once h
  rw [hstarted, hqueue] at horder
  exact ⟨c, hstarted, hqueue, horder, htasks⟩

/-- The thread can make a step. -/
def CanStep (c : Config (Thread n κ) (Shared n T) (Place T)) (t : Thread n κ) : Prop :=
  ∃ m p, Next t c.shared (c.pc t) m p

omit [Fintype κ] [DecidableEq κ] in
/-- A thread of the executor waits for a token and for nothing else. -/
theorem waits_or_canStep (hall : ∀ t, Assertion t c.shared (c.pc t)) (i : Fin n) :
    c.pc (.worker i) = .exited ∨ (c.pc (.worker i) = .acquire ∧ c.shared.sem = 0) ∨
      CanStep c (.worker i) := by
  have h := hall (.worker i)
  unfold CanStep
  clear hall
  generalize c.shared = m at h ⊢
  generalize c.pc (.worker i) = p at h ⊢
  cases p with
  | exited => exact .inl rfl
  | acquire =>
      rcases hsem : m.sem with _ | k
      · exact .inr (.inl ⟨rfl, rfl⟩)
      · exact .inr (.inr ⟨_, _, .acquire hsem⟩)
  | testStop =>
      rcases hstop : m.stop with _ | _
      · exact .inr (.inr ⟨_, _, .goesOn hstop⟩)
      · exact .inr (.inr ⟨_, _, .stops hstop⟩)
  | pop =>
      rcases hqueue : m.queue with _ | ⟨t, rest⟩
      · exact .inr (.inr ⟨_, _, .popFails hqueue⟩)
      · exact .inr (.inr ⟨_, _, .pop hqueue⟩)
  | run t => exact .inr (.inr ⟨_, _, .finish⟩)
  | runPost t => exact .inr (.inr ⟨_, _, .runPost⟩)
  | idle | post | running | releaseAll | join => exact absurd h.2 id

omit [DecidableEq κ] in
/-- What a thread holds is part of the sum. -/
theorem le_sum (f : Place T → ℕ) (t : Thread n κ) : f (c.pc t) ≤ c.sum f :=
  Finset.single_le_sum (f := fun t => f (c.pc t)) (fun _ _ => Nat.zero_le _) (Finset.mem_univ t)

omit [DecidableEq κ] in
/-- The thread that is about to pop has a task to pop. -/
theorem Whole.queue_ne_nil (h : Whole c) (here : c.pc t = .pop) : c.shared.queue ≠ [] := by
  intro hempty
  have hroom := h.room
  have hone := le_sum (c := c) Place.popping t
  rw [hempty, List.length_nil] at hroom
  rw [here] at hone
  simp only [Place.popping] at hone
  omega

omit [DecidableEq κ] in
/-- When all threads are at rest, nobody holds anything. -/
theorem sum_eq_zero {M : Type} [AddCommMonoid M] {f : Place T → M} (acquire : f .acquire = 0)
    (idle : f .idle = 0) (running : f .running = 0) (workers : ∀ i, c.pc (.worker i) = .acquire)
    (clients : ∀ k, c.pc (.client k) = .idle) (owner : c.pc .owner = .running) : c.sum f = 0 := by
  refine Finset.sum_eq_zero fun t _ => ?_
  cases t with
  | worker i => rw [workers i, acquire]
  | client k => rw [clients k, idle]
  | owner => rw [owner, running]

/-- **`pop` finds a task, and no task is forgotten.**  In every run, a thread that is about to
pop has a task to pop; and when an executor that is not shut down has come to rest (nobody is in
the middle of `submit`, and none of its threads can make a step), every task that was submitted
has been run to its end. -/
theorem tokens_match (h : Reachable Next (fun _ _ _ => True) new c) :
    (∀ i, c.pc (.worker i) = .pop → c.shared.queue ≠ []) ∧
      (c.shared.stop = false → 0 < n → (∀ k, c.pc (.client k) = .idle) →
        (∀ i, ¬ CanStep c (.worker i)) →
        c.shared.submitted = c.shared.started ∧
          (c.shared.submitted : Multiset T) = c.shared.finished) := by
  obtain ⟨hwhole, hall⟩ := whole_of_reachable h
  refine ⟨fun i hpop => hwhole.queue_ne_nil hpop, fun hstop hn hclients hstuck => ?_⟩
  have hexited : ∀ i, c.pc (.worker i) ≠ .exited := by
    intro i hexited
    have hle := le_sum (c := c) Place.left (.worker i)
    rw [hexited, hwhole.stays hstop] at hle
    exact absurd hle (by simp [Place.left])
  have hwaits : ∀ i, c.pc (.worker i) = .acquire ∧ c.shared.sem = 0 := by
    intro i
    rcases waits_or_canStep hall i with hp | hp | hp
    · exact absurd hp (hexited i)
    · exact hp
    · exact absurd hp (hstuck i)
  have howner : c.pc .owner = .running := by
    obtain ⟨hp, -⟩ | ⟨-, hstop', -⟩ | ⟨k, -, -, hstop', -⟩ := hall .owner
    · exact hp
    · simp [hstop] at hstop'
    · simp [hstop] at hstop'
  have hsum : ∀ {M : Type} [AddCommMonoid M] (f : Place T → M), f .acquire = 0 → f .idle = 0 →
      f .running = 0 → c.sum f = 0 :=
    fun f ha hi hr => sum_eq_zero ha hi hr (fun i => (hwaits i).1) hclients howner
  have hempty : c.shared.queue = [] := by
    have htokens := hwhole.tokens
    rw [hsum _ rfl rfl rfl, hsum _ rfl rfl rfl, hsum _ rfl rfl rfl, (hwaits ⟨0, hn⟩).2,
      hwhole.released hstop] at htokens
    exact List.length_eq_zero_iff.mp htokens.symm
  have horder : c.shared.submitted = c.shared.started := by simp [hwhole.order, hempty]
  refine ⟨horder, ?_⟩
  rw [horder, hwhole.tasks, hsum _ rfl rfl rfl, add_zero]

theorem tokens_match_run : ∃ c : Config (Thread 1 Unit) (Shared 1 ℕ) (Place ℕ),
    c.shared.stop = false ∧ c.shared.finished = [7] ∧ c.shared.submitted = c.shared.started ∧
      (c.shared.submitted : Multiset ℕ) = c.shared.finished := by
  have h₀ : Reachable Next (fun _ _ _ => True)
    (new : Config (Thread 1 Unit) (Shared 1 ℕ) (Place ℕ)) new := .start
  have h₁ := h₀.move (.client ()) (.submit 7) trivial
  have h₂ := h₁.move (.client ()) .post trivial
  have h₃ := h₂.move (.worker 0) (.acquire rfl) trivial
  have h₄ := h₃.move (.worker 0) (.goesOn rfl) trivial
  have h₅ := h₄.move (.worker 0) (.pop rfl) trivial
  have h₆ := h₅.move (.worker 0) .finish trivial
  refine ⟨_, rfl, rfl, (tokens_match h₆).2 rfl Nat.one_pos (fun _ => rfl) ?_⟩
  rintro i ⟨m, p, hmoved⟩
  obtain rfl : i = 0 := Subsingleton.elim _ _
  cases hmoved with
  | acquire token => exact absurd token.symm (Nat.succ_ne_zero _)

/-! ## Shutting down -/

/-- Once `stop_` is set, no thread gets to the pop any more: only those that are there start a
task. -/
theorem started_le {c' : Config (Thread n κ) (Shared n T) (Place T)}
    (stop : c.shared.stop = true) (later : Reachable Next (fun _ _ _ => True) c c') :
    c'.shared.stop = true ∧ c'.shared.started.length + c'.sum Place.popping
      ≤ c.shared.started.length + c.sum Place.popping := by
  induction later with
  | start => exact ⟨stop, le_rfl⟩
  | @step c' _ t _ _ taken ih =>
      obtain ⟨m, p, hmoved, rfl⟩ := taken
      obtain ⟨hstop, hle⟩ := ih
      have hpopping := c'.sum_move Place.popping t m p
      rw [Config.move_shared]
      generalize c'.shared = s at *
      generalize c'.pc t = p₀ at *
      cases hmoved with
      | goesOn stop => exact absurd (hstop.symm.trans stop) (by simp)
      | pop =>
          simp only [Place.popping, List.length_append, List.length_singleton] at *
          exact ⟨hstop, by omega⟩
      | shutdown => exact ⟨rfl, by simp only [Place.popping] at *; omega⟩
      | _ =>
          simp only [Place.popping, Shared.push] at *
          exact ⟨hstop, by omega⟩

omit [DecidableEq κ] in
/-- A thread that waits for a token has none, and there are fewer than `n` others. -/
theorem held_lt (hall : ∀ t, Assertion t c.shared (c.pc t)) {i : Fin n}
    (here : c.pc (.worker i) = .acquire) : c.sum Place.holding + c.sum Place.left < n := by
  have hworkers : ∑ j : Fin n, (Place.holding (c.pc (.worker j)) + Place.left (c.pc (.worker j)))
      = c.sum Place.holding + c.sum Place.left := by
    unfold Config.sum
    rw [← Finset.sum_add_distrib]
    refine Finset.sum_of_injOn Thread.worker (fun _ _ _ _ h => Thread.worker.inj h)
      (fun _ _ => Finset.mem_univ _) (fun t _ hout => ?_) fun _ _ => rfl
    have h := hall t
    cases t with
    | worker j => exact absurd ⟨j, Finset.mem_univ _, rfl⟩ hout
    | client k =>
        rcases h with hp | hp
        · rw [hp]
          rfl
        · rw [hp]
          rfl
    | owner =>
        obtain ⟨hp, -⟩ | ⟨hp, -⟩ | ⟨_, -, hp, -⟩ := h
        · rw [hp]
          rfl
        · rw [hp]
          rfl
        · rw [hp]
          rfl
  rw [← hworkers]
  refine lt_of_lt_of_eq (Finset.sum_lt_sum (g := fun _ => 1) (fun j _ => ?_)
    ⟨i, Finset.mem_univ i, ?_⟩) (by simp)
  · cases c.pc (.worker j) <;> simp [Place.holding, Place.left]
  · rw [here]
    exact Nat.zero_lt_one

omit [Fintype κ] in
/-- When all threads have left their loops, no task is started any more. -/
theorem started_eq {c' : Config (Thread n κ) (Shared n T) (Place T)}
    (exited : ∀ i, c.pc (.worker i) = .exited) (later : Reachable Next (fun _ _ _ => True) c c') :
    (∀ i, c'.pc (.worker i) = .exited) ∧ c'.shared.started = c.shared.started := by
  induction later with
  | start => exact ⟨exited, rfl⟩
  | @step c' _ t _ _ taken ih =>
      obtain ⟨m, p, hmoved, rfl⟩ := taken
      obtain ⟨hexited, hstarted⟩ := ih
      cases t with
      | worker i =>
          rw [hexited i] at hmoved
          cases hmoved
      | client | owner =>
          refine ⟨fun i => (Config.move_pc_of_ne c' (by simp) m p).trans (hexited i), ?_⟩
          rw [Config.move_shared, ← hstarted]
          generalize c'.pc _ = p₀ at hmoved
          cases hmoved <;> rfl

/-- **`Shutdown` ends, and abandons what is in the queue.**  In every run, from the moment in
which `stop_` is set: only the threads that are about to pop then start another task; a thread
that `Shutdown` waits for has left its loop or can make a step; and once `Shutdown` has joined
all threads, every task that was started has been run to its end, and no other one will ever be
started. -/
theorem shutdown_abandons {c' : Config (Thread n κ) (Shared n T) (Place T)}
    (h : Reachable Next (fun _ _ _ => True) new c) (stop : c.shared.stop = true)
    (later : Reachable Next (fun _ _ _ => True) c c') :
    c'.shared.started.length ≤ c.shared.started.length + c.sum Place.popping ∧
      (∀ k, c'.pc .owner = .join k → ∀ i,
        c'.pc (.worker i) = .exited ∨ CanStep c' (.worker i)) ∧
      (c'.pc .owner = .join n → (c'.shared.started : Multiset T) = c'.shared.finished ∧
        ∀ c'', Reachable Next (fun _ _ _ => True) c' c'' →
          c''.shared.started = c'.shared.started) := by
  obtain ⟨hwhole, hall⟩ := whole_of_reachable (h.trans later)
  refine ⟨by have := (started_le stop later).2; omega, fun k howner i => ?_, fun howner => ?_⟩
  · rcases waits_or_canStep hall i with hp | ⟨hp, hsem⟩ | hp
    · exact .inl hp
    · -- The tokens that `Shutdown` released are for all threads, and this one has got none.
      have hheld := held_lt hall hp
      obtain ⟨hp', -⟩ | ⟨hp', -⟩ | ⟨_, -, -, -, hreleased, -⟩ := hall .owner
      · simp [howner] at hp'
      · simp [howner] at hp'
      · have htokens := hwhole.tokens
        have hroom := hwhole.room
        omega
    · exact .inr hp
  · have hexited : ∀ i, c'.pc (.worker i) = .exited := by
      intro i
      have hgone : c'.shared.gone i = true := by
        obtain ⟨hp, -⟩ | ⟨hp, -⟩ | ⟨k, -, hp, -, -, hall⟩ := hall .owner
        · simp [howner] at hp
        · simp [howner] at hp
        · obtain rfl : n = k := by simpa [howner] using hp
          exact hall i i.isLt
      have hleft := (hall (.worker i)).1.mp hgone
      generalize c'.pc (.worker i) = p at hleft
      cases p <;> simp_all [Place.left]
    refine ⟨?_, fun c'' hrun => (started_eq hexited hrun).2⟩
    have hrest : c'.sum Place.task = 0 := by
      refine Finset.sum_eq_zero fun t _ => ?_
      have h := hall t
      cases t with
      | worker i =>
          rw [hexited i]
          rfl
      | client k =>
          rcases h with hp | hp
          · rw [hp]
            rfl
          · rw [hp]
            rfl
      | owner =>
          rw [howner]
          rfl
    rw [hwhole.tasks, hrest, add_zero]

theorem shutdown_abandons_run : ∃ c c' : Config (Thread 1 Unit) (Shared 1 ℕ) (Place ℕ),
    c.shared.stop = true ∧ c'.shared.queue = [8] ∧ c'.shared.started = [7] ∧
      (c'.shared.started : Multiset ℕ) = c'.shared.finished ∧
      ∀ c'', Reachable Next (fun _ _ _ => True) c' c'' → c''.shared.started = c'.shared.started := by
  obtain ⟨c, h, hstop, -, hstarted, hqueue, -, hsem, hworker, howner⟩ := run_shutdown
  have r₀ : Reachable Next (fun _ _ _ => True) c c := .start
  have r₁ := r₀.moveAt (.worker 0) hworker .finish trivial
  have r₂ := r₁.moveAt (.worker 0) (Config.move_pc_self _ _ _ _) (.acquire hsem) trivial
  have r₃ := r₂.moveAt (.worker 0) (Config.move_pc_self _ _ _ _) (.stops hstop) trivial
  have r₄ := r₃.moveAt .owner howner (.join Nat.one_pos (by
    rw [Config.move_shared]
    exact Function.update_self (0 : Fin 1) true c.shared.gone)) trivial
  obtain ⟨c', hrun, hjoined, hqueue', hstarted'⟩ : ∃ c' : Config (Thread 1 Unit) (Shared 1 ℕ)
      (Place ℕ), Reachable Next (fun _ _ _ => True) c c' ∧ c'.pc .owner = .join 1 ∧
        c'.shared.queue = [8] ∧ c'.shared.started = [7] :=
    ⟨_, r₄, Config.move_pc_self _ _ _ _, hqueue, hstarted⟩
  exact ⟨c, c', hstop, hqueue', hstarted', (shutdown_abandons h hstop hrun).2.2 hjoined⟩

end Invariant

end Executor

end Lsmkv
