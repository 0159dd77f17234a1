import Lsmkv.Lib.Interleaving
import Lsmkv.Threads
import Mathlib.Data.Nat.Bitwise

/-!
# The reader-writer lock, step by step

`RWLock` (`utils/rwlock.h`) keeps a writer bit `X` and the number of readers in one word.
Readers count themselves in by compare-exchange as long as the bit is not set, and under the
mutex otherwise; a writer takes the mutex, sets the bit by a fetch-add and waits until the
readers have left.  `atomic_wait` gives the lock away in the middle and takes it back, and
keeps other writers out meanwhile by the flag `writer_waiting_`.

A place (`RWLock.Place`) stands for every operation on the mutex, the word or the flag that a
call still has to make, and a thread makes one of them at a time (`RWLock.Next`).  Waiting is
a step that may be taken at any time when the code may go on; what the notifications do
beyond that is only to wake threads that may go on.

The mutex decides everything: whoever has set the bit has the mutex, and whoever has got
past the flag has the mutex or is in `atomic_wait` with the flag set (`RWLock.Assertion`).
-/

namespace Lsmkv

namespace RWLock

/-- The writer bit. -/
def X : ℕ := 0x80000000

/-- What a reader adds. -/
def WAITER : ℕ := 1

/-- The members of the lock: who has `mtx_`, the word `readers_`, and `writer_waiting_`. -/
structure Memory (ι : Type*) where
  mtx : Option ι
  readers : ℕ
  writerWaiting : Bool

/-- The next operation of a thread. -/
inductive Place
  /-- No call, and no lock. -/
  | idle
  /-- `shared_lock_inner`: the compare-exchange that expects `lk`. -/
  | sharedLockInner (lk : ℕ)
  /-- `shared_lock_wait`: `mtx_.lock()`, the fetch-add, `mtx_.unlock()`. -/
  | sharedWaitLock
  | sharedWaitAdd
  | sharedWaitUnlock
  /-- The lock is held shared. -/
  | shared
  /-- `unlock_shared`: `readers_.notify_one()`. -/
  | sharedNotify
  /-- `lock`: `mtx_.lock()` and the test of `writer_waiting_`. -/
  | lockMtx
  | lockTest
  /-- `writer_waiting_signal_.wait`: its predicate, the wait without the mutex, and the mutex
  again. -/
  | signalTest
  | signalWait
  | signalLock
  /-- `lock_inner`. -/
  | lockInner
  /-- `lock_inner_wait`: `readers_.wait(lk)` and the load behind it. -/
  | lockInnerWait (lk : ℕ)
  | lockInnerLoad
  /-- The lock is held exclusively. -/
  | exclusive
  /-- `unlock` behind `unlock_inner`: `writer_waiting_` is read, tested and cleared. -/
  | unlockRead
  | unlockTest (needNotify : Bool)
  | unlockClear (needNotify : Bool)
  | unlockMtx (needNotify : Bool)
  | notifyAll
  /-- `before_wait` behind the store to `writer_waiting_`: `unlock_inner`. -/
  | beforeWait
  /-- `atomic_wait`: `mtx_.unlock()`, the wait, `mtx_.lock()`, and `after_wait`. -/
  | waitUnlock
  | waiting
  | waitLock
  | afterWait

/-- **One step of a thread.** -/
inductive Next {ι : Type*} (t : ι) : Memory ι → Place → Memory ι → Place → Prop
  | lockShared {m : Memory ι} : Next t m .idle m (.sharedLockInner 0)
  | sharedLock {m : Memory ι} {lk : ℕ} (equal : m.readers = lk) :
      Next t m (.sharedLockInner lk) { m with readers := (lk + WAITER) % 2 ^ 32 } .shared
  /-- The compare-exchange fails, for a different value or for no reason. -/
  | sharedRetry {m : Memory ι} {lk : ℕ} (free : m.readers &&& X = 0) :
      Next t m (.sharedLockInner lk) m (.sharedLockInner m.readers)
  | sharedBlocked {m : Memory ι} {lk : ℕ} (locked : m.readers &&& X ≠ 0) :
      Next t m (.sharedLockInner lk) m .sharedWaitLock
  | sharedWaitLock {m : Memory ι} (free : m.mtx = none) :
      Next t m .sharedWaitLock { m with mtx := some t } .sharedWaitAdd
  | sharedWaitAdd {m : Memory ι} :
      Next t m .sharedWaitAdd { m with readers := (m.readers + WAITER) % 2 ^ 32 }
        .sharedWaitUnlock
  | sharedWaitUnlock {m : Memory ι} :
      Next t m .sharedWaitUnlock { m with mtx := none } .shared
  | unlockShared {m : Memory ι} :
      Next t m .shared { m with readers := (m.readers + 2 ^ 32 - WAITER) % 2 ^ 32 }
        (if m.readers = X + WAITER then .sharedNotify else .idle)
  | sharedNotify {m : Memory ι} : Next t m .sharedNotify m .idle
  | lock {m : Memory ι} : Next t m .idle m .lockMtx
  | lockMtx {m : Memory ι} (free : m.mtx = none) :
      Next t m .lockMtx { m with mtx := some t } .lockTest
  | lockTest {m : Memory ι} :
      Next t m .lockTest m (if m.writerWaiting then .signalTest else .lockInner)
  /-- The predicate holds. -/
  | signalled {m : Memory ι} (no : m.writerWaiting = false) : Next t m .signalTest m .lockInner
  /-- The predicate does not hold, and the wait gives the mutex away. -/
  | signalTest {m : Memory ι} (waits : m.writerWaiting = true) :
      Next t m .signalTest { m with mtx := none } .signalWait
  /-- The wait ends, notified or not. -/
  | signalWait {m : Memory ι} : Next t m .signalWait m .signalLock
  | signalLock {m : Memory ι} (free : m.mtx = none) :
      Next t m .signalLock { m with mtx := some t } .signalTest
  | lockInner {m : Memory ι} :
      Next t m .lockInner { m with readers := (m.readers + X) % 2 ^ 32 }
        (if m.readers = 0 then .exclusive else .lockInnerWait (m.readers ||| X))
  | lockInnerWait {m : Memory ι} {lk : ℕ} (changed : m.readers ≠ lk) :
      Next t m (.lockInnerWait lk) m .lockInnerLoad
  | lockInnerLoad {m : Memory ι} :
      Next t m .lockInnerLoad m
        (if m.readers = X then .exclusive else .lockInnerWait m.readers)
  /-- `unlock_inner` of `unlock`. -/
  | unlock {m : Memory ι} : Next t m .exclusive { m with readers := 0 } .unlockRead
  | unlockRead {m : Memory ι} : Next t m .unlockRead m (.unlockTest m.writerWaiting)
  | unlockTest {m : Memory ι} {needNotify : Bool} :
      Next t m (.unlockTest needNotify) m
        (if m.writerWaiting then .unlockClear needNotify else .unlockMtx needNotify)
  | unlockClear {m : Memory ι} {needNotify : Bool} :
      Next t m (.unlockClear needNotify) { m with writerWaiting := false } (.unlockMtx needNotify)
  | unlockMtx {m : Memory ι} {needNotify : Bool} :
      Next t m (.unlockMtx needNotify) { m with mtx := none }
        (if needNotify then .notifyAll else .idle)
  | notifyAll {m : Memory ι} : Next t m .notifyAll m .idle
  /-- `atomic_wait` that finds the value and returns. -/
  | atomicFound {m : Memory ι} : Next t m .exclusive m .exclusive
  | atomicWait {m : Memory ι} :
      Next t m .exclusive { m with writerWaiting := true } .beforeWait
  | beforeWait {m : Memory ι} : Next t m .beforeWait { m with readers := 0 } .waitUnlock
  | waitUnlock {m : Memory ι} : Next t m .waitUnlock { m with mtx := none } .waiting
  | waited {m : Memory ι} : Next t m .waiting m .waitLock
  | waitLock {m : Memory ι} (free : m.mtx = none) :
      Next t m .waitLock { m with mtx := some t } .afterWait
  /-- `after_wait`, behind its assertion. -/
  | afterWait {m : Memory ι} (asserted : m.writerWaiting = true) : Next t m .afterWait m .lockInner

namespace Place

/-- The thread is counted as a reader. -/
def isShared : Place → Bool
  | .sharedWaitUnlock | .shared => true
  | _ => false

/-- The thread has set the writer bit: it waits for the readers to leave, or holds the lock. -/
def hasBit : Place → Bool
  | .lockInnerWait _ | .lockInnerLoad | .exclusive | .beforeWait => true
  | _ => false

/-- The thread holds the lock exclusively. -/
def isExclusive : Place → Bool
  | .exclusive | .beforeWait => true
  | _ => false

/-- The thread has the mutex. -/
def hasMtx : Place → Bool
  | .sharedWaitAdd | .sharedWaitUnlock | .lockTest | .signalTest | .lockInner | .lockInnerWait _
  | .lockInnerLoad | .exclusive | .unlockRead | .unlockTest _ | .unlockClear _ | .unlockMtx _
  | .beforeWait | .waitUnlock | .afterWait => true
  | _ => false

/-- The thread is past the flag: other writers are to stay out. -/
def isOwner : Place → Bool
  | .lockInner | .lockInnerWait _ | .lockInnerLoad | .exclusive | .unlockRead | .unlockTest _
  | .unlockClear _ | .unlockMtx _ | .beforeWait | .waitUnlock | .waiting | .waitLock
  | .afterWait => true
  | _ => false

/-- The thread is in `unlock` and has not cleared the flag. -/
def inUnlock : Place → Bool
  | .unlockRead | .unlockTest _ | .unlockClear _ => true
  | _ => false

/-- The thread is in `atomic_wait`. -/
def inWait : Place → Bool
  | .beforeWait | .waitUnlock | .waiting | .waitLock | .afterWait => true
  | _ => false

end Place

/-! ## What a step can do -/

section Steps

variable {ι : Type*} {t : ι} {m m' : Memory ι} {p p' : Place}

/-- A step leaves the mutex alone, takes it when it is free, or gives it back. -/
theorem Next.mtx_cases (h : Next t m p m' p') :
    (m'.mtx = m.mtx ∧ p'.hasMtx = p.hasMtx) ∨
    (m.mtx = none ∧ m'.mtx = some t ∧ p'.hasMtx = true) ∨
    (p.hasMtx = true ∧ m'.mtx = none ∧ p'.hasMtx = false) := by
  cases h with
  | sharedWaitLock free | lockMtx free | signalLock free | waitLock free =>
      exact .inr (.inl ⟨free, rfl, rfl⟩)
  | sharedWaitUnlock | signalTest | waitUnlock => exact .inr (.inr ⟨rfl, rfl, rfl⟩)
  | unlockMtx =>
      refine .inr (.inr ⟨rfl, rfl, ?_⟩)
      split <;> rfl
  | unlockShared | lockTest | lockInner | lockInnerLoad | unlockTest =>
      refine .inl ⟨rfl, ?_⟩
      split <;> rfl
  | _ => exact .inl ⟨rfl, rfl⟩

/-- A step leaves the word alone, counts a reader in, with a compare-exchange or under the
mutex, counts a reader out, sets the writer bit, or stores 0. -/
theorem Next.readers_cases (h : Next t m p m' p') :
    (m'.readers = m.readers ∧ p'.isShared = p.isShared ∧ p'.hasBit = p.hasBit) ∨
    (m'.readers = (m.readers + WAITER) % 2 ^ 32 ∧ p.isShared = false ∧ p'.isShared = true ∧
      p.hasBit = false ∧ p'.hasBit = false ∧
      (p = .sharedLockInner m.readers ∨ p.hasMtx = true)) ∨
    (m'.readers = (m.readers + 2 ^ 32 - WAITER) % 2 ^ 32 ∧ p.isShared = true ∧
      p'.isShared = false ∧ p.hasBit = false ∧ p'.hasBit = false) ∨
    (m'.readers = (m.readers + X) % 2 ^ 32 ∧ p.isShared = false ∧ p'.isShared = false ∧
      p.hasBit = false ∧ p'.hasBit = true ∧ p.hasMtx = true) ∨
    (m'.readers = 0 ∧ p.isShared = false ∧ p'.isShared = false ∧ p.isExclusive = true ∧
      p'.hasBit = false) := by
  cases h with
  | sharedLock equal =>
      subst equal
      exact .inr (.inl ⟨rfl, rfl, rfl, rfl, rfl, .inl rfl⟩)
  | sharedWaitAdd => exact .inr (.inl ⟨rfl, rfl, rfl, rfl, rfl, .inr rfl⟩)
  | unlockShared =>
      refine .inr (.inr (.inl ⟨rfl, rfl, ?_, rfl, ?_⟩))
      · split <;> rfl
      · split <;> rfl
  | lockInner =>
      refine .inr (.inr (.inr (.inl ⟨rfl, rfl, ?_, rfl, ?_, rfl⟩)))
      · split <;> rfl
      · split <;> rfl
  | unlock | beforeWait => exact .inr (.inr (.inr (.inr ⟨rfl, rfl, rfl, rfl, rfl⟩)))
  | lockTest | lockInnerLoad | unlockTest | unlockMtx =>
      refine .inl ⟨rfl, ?_, ?_⟩
      · split <;> rfl
      · split <;> rfl
  | _ => exact .inl ⟨rfl, rfl, rfl⟩

/-- A step leaves the flag alone, sets it in `before_wait`, or clears it in `unlock`. -/
theorem Next.writerWaiting_cases (h : Next t m p m' p') :
    m'.writerWaiting = m.writerWaiting ∨ (m'.writerWaiting = true ∧ p = .exclusive) ∨
      ∃ needNotify, p = .unlockClear needNotify := by
  cases h with
  | atomicWait => exact .inr (.inl ⟨rfl, rfl⟩)
  | unlockClear => exact .inr (.inr ⟨_, rfl⟩)
  | _ => exact .inl rfl

/-- A thread gets past the flag when the flag is not set. -/
theorem Next.isOwner (h : Next t m p m' p') (owner : p'.isOwner = true) :
    p.isOwner = true ∨ (p.hasMtx = true ∧ m.writerWaiting = false) := by
  cases h with
  | lockTest =>
      split at owner
      · simp [Place.isOwner] at owner
      · exact .inr ⟨rfl, by simpa using ‹¬ m.writerWaiting = true›⟩
  | signalled no => exact .inr ⟨rfl, no⟩
  | lockShared | sharedLock | sharedRetry | sharedBlocked | sharedWaitLock | sharedWaitAdd
  | sharedWaitUnlock | sharedNotify | lock | lockMtx | signalTest | signalWait | signalLock
  | notifyAll => simp [Place.isOwner] at owner
  | unlockShared =>
      split at owner
      · simp [Place.isOwner] at owner
      · simp [Place.isOwner] at owner
  | _ => exact .inl rfl

/-- A step goes through `unlock` with the flag as it is, ends it with the flag clear, or is a
step of the exclusive holder. -/
theorem Next.inUnlock_cases (h : Next t m p m' p') :
    (p'.inUnlock = p.inUnlock ∧ m'.writerWaiting = m.writerWaiting) ∨
    (p.inUnlock = true ∧ m'.writerWaiting = false) ∨ p = .exclusive := by
  cases h with
  | unlockTest =>
      split
      · exact .inl ⟨rfl, rfl⟩
      · exact .inr (.inl ⟨rfl, by simpa using ‹¬ m.writerWaiting = true›⟩)
  | unlockClear => exact .inr (.inl ⟨rfl, rfl⟩)
  | unlock | atomicWait | atomicFound => exact .inr (.inr rfl)
  | unlockShared | lockTest | lockInner | lockInnerLoad | unlockMtx =>
      refine .inl ⟨?_, rfl⟩
      split <;> rfl
  | _ => exact .inl ⟨rfl, rfl⟩

/-- How the exclusive holder changes: not at all, behind the wait for the readers, by
`unlock`, or by `before_wait`. -/
theorem Next.isExclusive_cases (h : Next t m p m' p') :
    p'.isExclusive = p.isExclusive ∨
    (p.isExclusive = false ∧ p'.isExclusive = true ∧ p.hasMtx = true) ∨
    (p.isExclusive = true ∧ p' = .unlockRead) ∨ (p.isExclusive = true ∧ p' = .waitUnlock) := by
  cases h with
  | lockInner | lockInnerLoad =>
      split
      · exact .inr (.inl ⟨rfl, rfl, rfl⟩)
      · exact .inl rfl
  | unlock => exact .inr (.inr (.inl ⟨rfl, rfl⟩))
  | beforeWait => exact .inr (.inr (.inr ⟨rfl, rfl⟩))
  | unlockShared | lockTest | unlockTest | unlockMtx =>
      refine .inl ?_
      split <;> rfl
  | _ => exact .inl rfl

/-- In `atomic_wait` the flag is set at the start and not touched. -/
theorem Next.inWait (h : Next t m p m' p') (waits : p'.inWait = true) :
    m'.writerWaiting = true ∨ (p.inWait = true ∧ m'.writerWaiting = m.writerWaiting) := by
  cases h with
  | atomicWait => exact .inl rfl
  | beforeWait | waitUnlock | waited | waitLock => exact .inr ⟨rfl, rfl⟩
  | unlockShared | lockTest | lockInner | lockInnerLoad | unlockTest | unlockMtx =>
      split at waits
      · simp [Place.inWait] at waits
      · simp [Place.inWait] at waits
  | _ => simp [Place.inWait] at waits

/-- The lock is taken exclusively when the word has been seen with the bit alone. -/
theorem Next.isExclusive (h : Next t m p m' p') (only : p'.isExclusive = true) :
    m'.readers = X ∨ (p.isExclusive = true ∧ m'.readers = m.readers) := by
  cases h with
  | lockInner =>
      split at only
      · refine .inl ?_
        rw [‹m.readers = 0›]
        rfl
      · simp [Place.isExclusive] at only
  | lockInnerLoad =>
      split at only
      · exact .inl ‹m.readers = X›
      · simp [Place.isExclusive] at only
  | atomicFound | atomicWait => exact .inr ⟨rfl, rfl⟩
  | unlockShared | lockTest | unlockTest | unlockMtx =>
      split at only
      · simp [Place.isExclusive] at only
      · simp [Place.isExclusive] at only
  | _ => simp [Place.isExclusive] at only

/-- What a reader expects to find in the word has no writer bit. -/
theorem Next.expected (h : Next t m p m' p') {lk : ℕ} (here : p' = .sharedLockInner lk) :
    lk = 0 ∨ (lk = m.readers ∧ m.readers &&& X = 0) := by
  cases h with
  | lockShared => exact .inl (Place.sharedLockInner.inj here).symm
  | sharedRetry free => exact .inr ⟨(Place.sharedLockInner.inj here).symm, free⟩
  | unlockShared | lockTest | lockInner | lockInnerLoad | unlockTest | unlockMtx =>
      split at here
      · simp at here
      · simp at here
  | _ => simp at here

end Steps

/-! ## The invariant -/

theorem Place.isOwner_of_inWait {p : Place} (h : p.inWait = true) : p.isOwner = true := by
  cases p <;> simp_all [Place.inWait, Place.isOwner]

theorem Place.isOwner_of_inUnlock {p : Place} (h : p.inUnlock = true) : p.isOwner = true := by
  cases p <;> simp_all [Place.inUnlock, Place.isOwner]

theorem Place.hasMtx_or_inWait {p : Place} (h : p.isOwner = true) :
    p.hasMtx = true ∨ p.inWait = true := by
  cases p <;> simp_all [Place.inWait, Place.isOwner, Place.hasMtx]

theorem Place.hasMtx_of_hasBit {p : Place} (h : p.hasBit = true) : p.hasMtx = true := by
  cases p <;> simp_all [Place.hasBit, Place.hasMtx]

theorem Place.hasBit_of_isExclusive {p : Place} (h : p.isExclusive = true) : p.hasBit = true := by
  cases p <;> simp_all [Place.hasBit, Place.isExclusive]

/-- A word below `2 ^ 32` without the writer bit is below the bit. -/
theorem lt_X_of_and_eq_zero {n : ℕ} (h : n &&& X = 0) (lt : n < 2 * X) : n < X := by
  have hbit : n &&& 2 ^ 31 = (n.testBit 31).toNat * 2 ^ 31 := Nat.and_two_pow n 31
  have hX : X = 2 ^ 31 := rfl
  rw [hX, hbit, Nat.testBit_eq_decide_div_mod_eq] at h
  simp only [hX] at lt ⊢
  have hmod : n / 2 ^ 31 % 2 = 0 := by simpa using h
  omega

open Interleaving

variable {ι : Type*}

/-- **What a thread knows.** -/
structure Assertion (t : ι) (m : Memory ι) (p : Place) : Prop where
  mtx : p.hasMtx = true ↔ m.mtx = some t
  inWait : p.inWait = true → m.writerWaiting = true
  only : p.isExclusive = true → m.readers = X
  expected : ∀ lk, p = .sharedLockInner lk → lk < X

section Invariant

variable [Fintype ι]

/-- How many threads hold the lock shared. -/
def sharers (c : Config ι (Memory ι) Place) : ℕ := c.count (·.isShared = true)

/-- How many threads have set the writer bit. -/
def writers (c : Config ι (Memory ι) Place) : ℕ := c.count (·.hasBit = true)

/-- **What holds of the lock as a whole.** -/
structure Whole (c : Config ι (Memory ι) Place) : Prop where
  readers : c.shared.readers = sharers c + writers c * X
  few : sharers c < X
  owner : ∀ i j, (c.pc i).isOwner = true → (c.pc j).isOwner = true → i = j

variable {c : Config ι (Memory ι) Place}

/-- Where somebody has the mutex, nobody else has set the writer bit. -/
theorem writers_eq_zero (threads : ∀ j, Assertion j c.shared (c.pc j)) {i : ι}
    (mtx : (c.pc i).hasMtx = true) (bit : (c.pc i).hasBit = false) : writers c = 0 := by
  refine Config.count_eq_zero.mpr fun j hj => ?_
  have hi := (threads i).mtx.mp mtx
  have hj' := (threads j).mtx.mp (Place.hasMtx_of_hasBit hj)
  obtain rfl : i = j := Option.some.inj (hi.symm.trans hj')
  simp [bit] at hj

/-- Where somebody holds the lock exclusively, nobody holds it shared, and nobody else has
set the bit. -/
theorem Whole.alone (h : Whole c) (threads : ∀ j, Assertion j c.shared (c.pc j)) {i : ι}
    (only : (c.pc i).isExclusive = true) : sharers c = 0 ∧ writers c = 1 := by
  have hX : X = 2 ^ 31 := rfl
  have hread := h.readers
  rw [(threads i).only only] at hread
  have hpos : 0 < writers c := Config.count_pos (Place.hasBit_of_isExclusive only)
  have hone : writers c ≤ 1 := by
    by_contra hmore
    have : 2 * X ≤ writers c * X := Nat.mul_le_mul_right X (by omega)
    omega
  have hw : writers c = 1 := by omega
  rw [hw] at hread
  exact ⟨by omega, hw⟩

/-- Writers have the mutex, so there is one at most. -/
theorem writers_le_one (threads : ∀ j, Assertion j c.shared (c.pc j)) : writers c ≤ 1 := by
  refine Finset.card_le_one.mpr fun i hi j hj => ?_
  simp only [Finset.mem_filter, Finset.mem_univ, true_and] at hi hj
  have hi := (threads i).mtx.mp (Place.hasMtx_of_hasBit hi)
  have hj := (threads j).mtx.mp (Place.hasMtx_of_hasBit hj)
  exact Option.some.inj (hi.symm.trans hj)

/-- The word is a word. -/
theorem Whole.readers_lt (h : Whole c) (threads : ∀ j, Assertion j c.shared (c.pc j)) :
    c.shared.readers < 2 * X := by
  rw [h.readers]
  have hfew := h.few
  have hone : writers c * X ≤ 1 * X := Nat.mul_le_mul_right X (writers_le_one threads)
  omega

/-- **The thread that moves knows what it is to know.** -/
theorem Assertion.own (h : Whole c) (threads : ∀ j, Assertion j c.shared (c.pc j)) {i : ι}
    {m : Memory ι} {p : Place} (moved : Next i c.shared (c.pc i) m p) : Assertion i m p where
  mtx := by
    rcases moved.mtx_cases with ⟨hmtx, hhas⟩ | ⟨-, hmtx, hhas⟩ | ⟨-, hmtx, hhas⟩
    · rw [hmtx, hhas]
      exact (threads i).mtx
    · simp [hmtx, hhas]
    · simp [hmtx, hhas]
  inWait hwait := by
    rcases moved.inWait hwait with hset | ⟨hold, hsame⟩
    · exact hset
    · exact hsame.trans ((threads i).inWait hold)
  only honly := by
    rcases moved.isExclusive honly with hX | ⟨hold, hsame⟩
    · exact hX
    · exact hsame.trans ((threads i).only hold)
  expected lk hlk := by
    rcases moved.expected hlk with rfl | ⟨rfl, hfree⟩
    · decide
    · exact lt_X_of_and_eq_zero hfree (h.readers_lt threads)

/-- **A step leaves the others what they know.** -/
theorem Assertion.others (h : Whole c) (threads : ∀ j, Assertion j c.shared (c.pc j)) {i j : ι}
    {m : Memory ι} {p : Place} (moved : Next i c.shared (c.pc i) m p) (ne : j ≠ i) :
    Assertion j m (c.pc j) where
  mtx := by
    rcases moved.mtx_cases with ⟨hmtx, -⟩ | ⟨hfree, hmtx, -⟩ | ⟨hhas, hmtx, -⟩
    · rw [hmtx]
      exact (threads j).mtx
    · rw [(threads j).mtx, hfree, hmtx]
      simp [ne.symm]
    · rw [(threads j).mtx, (threads i).mtx.mp hhas, hmtx]
      simp [ne.symm]
  inWait hwait := by
    rcases moved.writerWaiting_cases with hsame | ⟨hset, -⟩ | ⟨needNotify, hclear⟩
    · exact hsame.trans ((threads j).inWait hwait)
    · exact hset
    · exact absurd (h.owner j i (Place.isOwner_of_inWait hwait) (by rw [hclear]; rfl)) ne
  only honly := by
    have hread := (threads j).only honly
    have halone := (h.alone threads honly).1
    have hmtx : (c.pc i).hasMtx = true → False := by
      intro hi
      have hj := (threads j).mtx.mp (Place.hasMtx_of_hasBit (Place.hasBit_of_isExclusive honly))
      exact ne (Option.some.inj (hj.symm.trans ((threads i).mtx.mp hi)))
    rcases moved.readers_cases with ⟨heq, -⟩ | ⟨-, -, -, -, -, hcas | hhas⟩ | ⟨-, hshared, -⟩ |
      ⟨-, -, -, -, -, hhas⟩ | ⟨-, -, -, hother, -⟩
    · exact heq.trans hread
    · have := (threads i).expected _ hcas
      omega
    · exact (hmtx hhas).elim
    · have : 0 < sharers c := Config.count_pos hshared
      omega
    · exact (hmtx hhas).elim
    · exact (hmtx (Place.hasMtx_of_hasBit (Place.hasBit_of_isExclusive hother))).elim
  expected := (threads j).expected

/-- Fewer than `2 ^ 31` readers hold the lock behind a step. -/
def Few (_ : Config ι (Memory ι) Place) (_ : ι) (c : Config ι (Memory ι) Place) : Prop :=
  sharers c < X

theorem few_of_card (threads : Fintype.card ι < X) (c : Config ι (Memory ι) Place) (i : ι)
    (c' : Config ι (Memory ι) Place) : Few c i c' :=
  (Finset.card_le_univ _).trans_lt threads

variable [DecidableEq ι]

/-- The counts behind a step. -/
theorem counts_move (c : Config ι (Memory ι) Place) (i : ι) (m : Memory ι) (p : Place) :
    sharers (c.move i m p) + (c.pc i).isShared.toNat = sharers c + p.isShared.toNat ∧
      writers (c.move i m p) + (c.pc i).hasBit.toNat = writers c + p.hasBit.toNat := by
  have hnat : ∀ b : Bool, (if b = true then 1 else 0) = b.toNat := by decide
  refine ⟨?_, ?_⟩
  · have h := c.count_move (·.isShared = true) i m p
    rwa [hnat, hnat] at h
  · have h := c.count_move (·.hasBit = true) i m p
    rwa [hnat, hnat] at h

/-- The word behind a step. -/
theorem Whole.readers_move (h : Whole c) (threads : ∀ j, Assertion j c.shared (c.pc j)) {i : ι}
    {m : Memory ι} {p : Place} (moved : Next i c.shared (c.pc i) m p)
    (few : sharers (c.move i m p) < X) :
    m.readers = sharers (c.move i m p) + writers (c.move i m p) * X := by
  have hX : X = 2 ^ 31 := rfl
  have hW : WAITER = 1 := rfl
  have hread := h.readers
  have hlt := h.readers_lt threads
  obtain ⟨hs, hw⟩ := counts_move c i m p
  rcases moved.readers_cases with ⟨heq, h₁, h₂⟩ | ⟨heq, h₁, h₂, h₃, h₄, hhow⟩ |
    ⟨heq, h₁, h₂, h₃, h₄⟩ | ⟨heq, h₁, h₂, h₃, h₄, hmtx⟩ | ⟨heq, h₁, h₂, honly, h₄⟩
  · simp only [h₁, h₂, Nat.add_right_cancel_iff] at hs hw
    rw [heq, hread, hs, hw]
  · simp only [h₁, h₂, h₃, h₄, Bool.toNat_false, Bool.toNat_true, Nat.add_zero] at hs hw
    have hone : writers c * X ≤ 1 * X := Nat.mul_le_mul_right X (writers_le_one threads)
    rw [heq, hread, hs, hw, Nat.mod_eq_of_lt (by omega)]
    omega
  · simp only [h₁, h₂, h₃, h₄, Bool.toNat_false, Bool.toNat_true, Nat.add_zero] at hs hw
    have hsub : c.shared.readers + 2 ^ 32 - WAITER = c.shared.readers - 1 + 2 ^ 32 := by omega
    rw [heq, hsub, Nat.add_mod_right, Nat.mod_eq_of_lt (by omega), hread, ← hs, hw]
    omega
  · simp only [h₁, h₂, h₃, h₄, Bool.toNat_false, Bool.toNat_true, Nat.add_zero] at hs hw
    have hzero := writers_eq_zero threads hmtx h₃
    rw [heq, hread, hs, hw, hzero, Nat.mod_eq_of_lt (by omega)]
    omega
  · obtain ⟨hnone, hone⟩ := h.alone threads honly
    simp only [h₁, h₂, h₄, Place.hasBit_of_isExclusive honly, Bool.toNat_false, Bool.toNat_true,
      Nat.add_zero] at hs hw
    have hzero : writers (c.move i m p) = 0 := by omega
    rw [heq, hs, hzero, hnone]
    omega

/-- **What holds of the whole holds behind a step.** -/
theorem Whole.move (h : Whole c) (threads : ∀ j, Assertion j c.shared (c.pc j)) {i : ι}
    {m : Memory ι} {p : Place} (moved : Next i c.shared (c.pc i) m p)
    (few : sharers (c.move i m p) < X) : Whole (c.move i m p) := by
  refine ⟨h.readers_move threads moved few, few, ?_⟩
  -- Who comes past the flag has the mutex, and nobody else is past it.
  have hnew : p.isOwner = true → ∀ j, j ≠ i → (c.pc j).isOwner = false := by
    intro howner j hne
    by_contra hj
    rw [Bool.not_eq_false] at hj
    rcases moved.isOwner howner with hold | ⟨hmtx, hflag⟩
    · exact hne (h.owner j i hj hold)
    · rcases Place.hasMtx_or_inWait hj with hj | hj
      · have hi := (threads i).mtx.mp hmtx
        exact hne (Option.some.inj (((threads j).mtx.mp hj).symm.trans hi))
      · simp [(threads j).inWait hj] at hflag
  intro a b ha hb
  by_cases hai : a = i
  · by_cases hbi : b = i
    · exact hai.trans hbi.symm
    · subst hai
      rw [Config.move_pc_self] at ha
      rw [Config.move_pc_of_ne c hbi, hnew ha b hbi] at hb
      simp at hb
  · rw [Config.move_pc_of_ne c hai] at ha
    by_cases hbi : b = i
    · subst hbi
      rw [Config.move_pc_self] at hb
      rw [hnew hb a hai] at ha
      simp at ha
    · rw [Config.move_pc_of_ne c hbi] at hb
      exact h.owner a b ha hb

/-- The lock when it is made. -/
def new : Config ι (Memory ι) Place := ⟨⟨none, 0, false⟩, fun _ => .idle⟩

/-- **The invariant of the lock**, in every run with fewer than `2 ^ 31` readers. -/
theorem invariant_of_reachable (h : Reachable Next Few new c) :
    Whole c ∧ ∀ j, Assertion j c.shared (c.pc j) := by
  refine h.outline ⟨?_, ?_, ?_⟩ (fun j => ⟨?_, ?_, ?_, ?_⟩)
    (fun c i m p hwhole hthreads hmoved hfew => ⟨hwhole.move hthreads hmoved hfew, ?_⟩)
    (fun c i m p j hwhole hthreads hmoved _ hne => ?_)
  · simp [new, sharers, writers, Config.count, Place.isShared, Place.hasBit]
  · simp [new, sharers, Config.count, Place.isShared, X]
  · simp [new, Place.isOwner]
  · simp [new, Place.hasMtx]
  · simp [new, Place.inWait]
  · simp [new, Place.isExclusive]
  · simp [new]
  · exact .own hwhole hthreads hmoved
  · exact .others hwhole hthreads hmoved hne

/-- **The lock excludes.**  In every state of every run of any number of threads: an exclusive
holder is the only holder; the word is the number of shared holders, with the writer bit as
long as a writer waits for the readers to leave or holds the lock; there is no reader when
`unlock_inner` stores 0; a reader that leaves was counted; and the assertion of `after_wait`
holds. -/
theorem excludes (h : Reachable Next Few new c) :
    (∀ i j, (c.pc i).isExclusive = true → (c.pc j).isShared = false) ∧
    (∀ i j, (c.pc i).isExclusive = true → (c.pc j).isExclusive = true → i = j) ∧
    c.shared.readers = sharers c + (if ∃ i, (c.pc i).hasBit = true then X else 0) ∧
    (∀ i, c.pc i = .exclusive ∨ c.pc i = .beforeWait → sharers c = 0) ∧
    (∀ i, c.pc i = .shared → c.shared.readers &&& (2 ^ 32 - 1 - X) ≠ 0) ∧
    (∀ i, c.pc i = .afterWait → c.shared.writerWaiting = true) := by
  obtain ⟨hwhole, hthreads⟩ := invariant_of_reachable h
  have hnone : ∀ i, (c.pc i).isExclusive = true → sharers c = 0 := fun i hi =>
    (hwhole.alone hthreads hi).1
  have hbits : writers c * X = if ∃ i, (c.pc i).hasBit = true then X else 0 := by
    split
    · rename_i hbit
      obtain ⟨i, hi⟩ := hbit
      have hpos : 0 < writers c := Config.count_pos hi
      have hone := writers_le_one hthreads
      obtain hw : writers c = 1 := by omega
      rw [hw, one_mul]
    · rename_i hbit
      have hzero : writers c = 0 := Config.count_eq_zero.mpr fun i hi => hbit ⟨i, hi⟩
      rw [hzero, zero_mul]
  refine ⟨fun i j hi => ?_, fun i j hi hj => ?_, ?_, fun i hi => ?_, fun i hi => ?_, fun i hi => ?_⟩
  · have hj := Config.count_eq_zero.mp (hnone i hi) j
    simpa using hj
  · have hi := (hthreads i).mtx.mp (Place.hasMtx_of_hasBit (Place.hasBit_of_isExclusive hi))
    have hj := (hthreads j).mtx.mp (Place.hasMtx_of_hasBit (Place.hasBit_of_isExclusive hj))
    exact Option.some.inj (hi.symm.trans hj)
  · rw [← hbits]
    exact hwhole.readers
  · refine hnone i ?_
    rcases hi with hi | hi
    · rw [hi]
      rfl
    · rw [hi]
      rfl
  · have hpos : 0 < sharers c := Config.count_pos (i := i) (by rw [hi]; rfl)
    have hmask : 2 ^ 32 - 1 - X = 2 ^ 31 - 1 := rfl
    have hmod : c.shared.readers % 2 ^ 31 = sharers c := by
      rw [hwhole.readers, show X = 2 ^ 31 from rfl, Nat.add_mul_mod_self_right]
      exact Nat.mod_eq_of_lt hwhole.few
    rw [hmask, Nat.and_two_pow_sub_one_eq_mod, hmod]
    omega
  · refine (hthreads i).inWait ?_
    rw [hi]
    rfl

end Invariant

/-! ## The lock of the writers

`Lsmkv.Threads` runs the writers of the store on a lock with a holder and a flag.  The lock of
this module is one: whoever holds that lock holds this one exclusively, and its flag is
`writer_waiting_`, except that `unlock` clears it in a step of its own. -/

section Views

variable {n : ℕ} {c : Config (Fin n) (Memory (Fin n)) Place} {l : RWLock} {i : Fin n}
  {m : Memory (Fin n)} {p : Place}

/-- The holder and the flag that the writers see. -/
structure Views (c : Config (Fin n) (Memory (Fin n)) Place) (l : RWLock) : Prop where
  holder : ∀ t, l.holder = some t ↔ ∃ i : Fin n, i.val = t ∧ (c.pc i).isExclusive = true
  writerWaiting : l.holder = none →
    (l.writerWaiting = true ↔
      c.shared.writerWaiting = true ∧ ∀ i, (c.pc i).inUnlock = false)

/-- What a step of thread `t` is for the writers: nothing, `lock` of a free lock, `unlock` or
`before_wait` of the holder, or `after_wait` of a lock that was given away. -/
inductive Seen (t : ℕ) (l : RWLock) : RWLock → Prop
  | nothing : Seen t l l
  | lock (free : l.Free) : Seen t l (.lock t)
  | unlock (holds : l.holder = some t) : Seen t l .unlock
  | beforeWait (holds : l.holder = some t) : Seen t l .beforeWait
  | afterWait (away : l = .beforeWait) : Seen t l (.afterWait t)

theorem Views.holder_eq_none (h : Views c l) (nobody : ∀ i, (c.pc i).isExclusive = false) :
    l.holder = none := by
  refine Option.eq_none_iff_forall_ne_some.mpr fun t ht => ?_
  obtain ⟨i, -, hi⟩ := (h.holder t).mp ht
  simp [nobody i] at hi

/-- A lock without a holder is seen so. -/
theorem Views.of_nobody {flag : Bool} (nobody : ∀ i, (c.pc i).isExclusive = false)
    (flags : flag = true ↔ c.shared.writerWaiting = true ∧ ∀ i, (c.pc i).inUnlock = false) :
    Views c ⟨none, flag⟩ where
  holder := by simp [nobody]
  writerWaiting _ := flags

/-- A lock with a holder is seen so, whatever the flag. -/
theorem Views.of_holder {flag : Bool} (holds : (c.pc i).isExclusive = true)
    (alone : ∀ j, (c.pc j).isExclusive = true → j = i) : Views c ⟨some i.val, flag⟩ where
  holder t := by
    rw [Option.some.injEq]
    refine ⟨fun ht => ⟨i, ht, holds⟩, ?_⟩
    rintro ⟨j, rfl, hj⟩
    rw [alone j hj]
  writerWaiting hnone := absurd hnone (by simp)

/-- **The writers see a lock.**  Every step of a thread is one of the lock that
`Lsmkv.Threads` has, or none at all. -/
theorem Views.step (h : Views c l) (reached : Reachable Next Few new c)
    (moved : Next i c.shared (c.pc i) m p) : ∃ l', Seen i.val l l' ∧ Views (c.move i m p) l' := by
  obtain ⟨hwhole, hthreads⟩ := invariant_of_reachable reached
  have hexcl : ∀ j k, (c.pc j).isExclusive = true → (c.pc k).hasMtx = true → j = k := by
    intro j k hj hk
    have hj := (hthreads j).mtx.mp (Place.hasMtx_of_hasBit (Place.hasBit_of_isExclusive hj))
    exact Option.some.inj (hj.symm.trans ((hthreads k).mtx.mp hk))
  have halone : (c.pc i).hasMtx = true → ∀ j, j ≠ i → ((c.move i m p).pc j).isExclusive = false := by
    intro hhas j hj
    rw [Config.move_pc_of_ne c hj, ← Bool.not_eq_true]
    exact fun hother => hj (hexcl j i hother hhas)
  have hunlock : ∀ j, (c.pc i).isOwner = true → j ≠ i → (c.pc j).inUnlock = false := by
    intro j howner hj
    rw [← Bool.not_eq_true]
    exact fun hother => hj (hwhole.owner j i (Place.isOwner_of_inUnlock hother) howner)
  have hgone : (c.pc i).isExclusive = true → p.isExclusive = false →
      ∀ j, ((c.move i m p).pc j).isExclusive = false := by
    intro hyes hno j
    by_cases hj : j = i
    · rw [hj, Config.move_pc_self, hno]
    · exact halone (Place.hasMtx_of_hasBit (Place.hasBit_of_isExclusive hyes)) j hj
  rcases moved.isExclusive_cases with hsame | ⟨hno, hyes, hhas⟩ | ⟨hyes, rfl⟩ | ⟨hyes, rfl⟩
  · -- Nobody comes or goes.
    refine ⟨l, .nothing, ?_, fun hnone => ?_⟩
    · simpa only [c.forall_move_pc (f := Place.isExclusive) hsame] using h.holder
    · rw [h.writerWaiting hnone]
      rcases moved.inUnlock_cases with ⟨hin, hflag⟩ | ⟨hin, hflag⟩ | hhere
      · simp only [c.forall_move_pc (f := Place.inUnlock) hin, Config.move_shared, hflag]
      · simp only [Config.move_shared, hflag, Bool.false_eq_true, false_and, iff_false, not_and,
          not_forall]
        exact fun _ => ⟨i, by simp [hin]⟩
      · have hholds := (h.holder i.val).mpr ⟨i, rfl, by rw [hhere]; rfl⟩
        simp [hholds] at hnone
  · -- A writer comes, from `lock` or from `atomic_wait`.
    have hnone : l.holder = none := by
      refine h.holder_eq_none fun j => ?_
      by_cases hj : j = i
      · rw [hj, hno]
      · rw [← c.move_pc_of_ne hj m p, halone hhas j hj]
    have hviews : ∀ flag, Views (c.move i m p) ⟨some i.val, flag⟩ := fun flag => by
      refine .of_holder (by rwa [Config.move_pc_self]) fun j hj => ?_
      by_contra hne
      simp [halone hhas j hne] at hj
    obtain ⟨holder, flag⟩ := l
    obtain rfl : holder = none := hnone
    cases flag with
    | false => exact ⟨.lock i.val, .lock ⟨rfl, rfl⟩, hviews false⟩
    | true => exact ⟨.afterWait i.val, .afterWait rfl, hviews true⟩
  · -- The holder unlocks, and has not cleared the flag.
    refine ⟨.unlock, .unlock ((h.holder _).mpr ⟨i, rfl, hyes⟩), .of_nobody (hgone hyes rfl) ?_⟩
    simp only [Bool.false_eq_true, false_iff, not_and, not_forall]
    exact fun _ => ⟨i, by simp [Place.inUnlock]⟩
  · -- The holder gives the lock away, with the flag set.
    refine ⟨.beforeWait, .beforeWait ((h.holder _).mpr ⟨i, rfl, hyes⟩),
      .of_nobody (hgone hyes rfl) ?_⟩
    refine ⟨fun _ => ⟨(Assertion.own hwhole hthreads moved).inWait rfl, fun j => ?_⟩, fun _ => rfl⟩
    by_cases hj : j = i
    · rw [hj, Config.move_pc_self]
      rfl
    · rw [Config.move_pc_of_ne c hj]
      refine hunlock j ?_ hj
      revert hyes
      cases c.pc i <;> simp [Place.isExclusive, Place.isOwner]

end Views

/-- A reader and a writer: the writer sets the bit, the reader leaves, and the writer has the
lock. -/
theorem excludes_reader_then_writer :
    ∃ c : Config (Fin 2) (Memory (Fin 2)) Place, Reachable Next Few new c ∧
      c.pc 1 = .exclusive ∧ c.shared.readers = X ∧ (c.pc 0).isShared = false := by
  have hfew : ∀ (c : Config (Fin 2) (Memory (Fin 2)) Place) i c', Few c i c' :=
    few_of_card (by decide)
  have h₀ : Reachable Next Few (new : Config (Fin 2) (Memory (Fin 2)) Place) new := .start
  have h₁ := h₀.move 0 .lockShared (hfew _ _ _)
  have h₂ := h₁.move 0 (.sharedLock rfl) (hfew _ _ _)
  have h₃ := h₂.move 1 .lock (hfew _ _ _)
  have h₄ := h₃.move 1 (.lockMtx rfl) (hfew _ _ _)
  have h₅ := h₄.move 1 .lockTest (hfew _ _ _)
  have h₆ := h₅.move 1 .lockInner (hfew _ _ _)
  have h₇ := h₆.move 0 .unlockShared (hfew _ _ _)
  have h₈ := h₇.move 0 .sharedNotify (hfew _ _ _)
  have h₉ := h₈.move 1 (.lockInnerWait (by decide)) (hfew _ _ _)
  have h := h₉.move 1 .lockInnerLoad (hfew _ _ _)
  exact ⟨_, h, rfl, rfl, (excludes h).1 1 0 rfl⟩

end RWLock

end Lsmkv
