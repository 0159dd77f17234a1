import Lsmkv.RWLock

/-!
# Waiting on the lock

In `Lsmkv.RWLock` a thread that waits may go on as soon as the code lets it.  In the program it is
blocked: `readers_.wait(lk)` puts it to sleep if the word still is `lk`, and
`writer_waiting_signal_.wait` gives the mutex away and puts it to sleep in the same step.  It sleeps
until another thread wakes it, with `readers_.notify_one()` or `writer_waiting_signal_.notify_all()`,
or for no reason.  Here the threads that are asleep are part of the state (`RWLock.Blocking`).

A wake-up would be lost if the word became `X`, or the flag were cleared, and nobody were left who
is about to notify.  The last reader that leaves notifies, and no reader comes while a writer waits,
since the writer has the mutex; whoever clears the flag has seen it set before, and notifies after
the mutex is free.  So no wake-up is lost, and when nobody holds the lock some thread can go on
(`RWLock.no_lost_wakeup`).
-/

namespace Lsmkv

namespace RWLock

open Interleaving

/-! ## What the threads know of the flag -/

section Steps

variable {ι : Type*} {t : ι} {m m' : Memory ι} {p p' : Place}

/-- The value that a writer waits to see gone is not the one that it waits for. -/
theorem Next.awaits (h : Next t m p m' p') {lk : ℕ} (here : p' = .lockInnerWait lk) :
    (p = .lockInner ∧ m.readers ≠ 0 ∧ lk = (m.readers ||| X)) ∨ lk ≠ X := by
  cases h with
  | lockInner =>
      split at here
      · cases here
      · exact .inl ⟨rfl, ‹_›, (Place.lockInnerWait.inj here).symm⟩
  | lockInnerLoad =>
      split at here
      · cases here
      · rename_i hne
        rw [← Place.lockInnerWait.inj here]
        exact .inr hne
  | unlockShared | lockTest | unlockTest | unlockMtx =>
      split at here
      · cases here
      · cases here
  | _ => cases here

/-- A reader that leaves notifies if it is the last one and a writer has set the bit. -/
theorem Next.leaves (h : Next t m p m' p') (was : p.isShared = true) (gone : p'.isShared = false) :
    p' = if m.readers = X + WAITER then .sharedNotify else .idle := by
  cases h with
  | unlockShared => rfl
  | sharedWaitUnlock => cases gone
  | _ => cases was

/-- `unlock` tests what it has read. -/
theorem Next.unlockTest_eq (h : Next t m p m' p') {b : Bool} (here : p' = .unlockTest b) :
    b = m'.writerWaiting := by
  cases h with
  | unlockRead => exact (Place.unlockTest.inj here).symm
  | unlockShared | lockTest | lockInner | lockInnerLoad | unlockTest | unlockMtx =>
      split at here
      · cases here
      · cases here
  | _ => cases here

/-- The flag is cleared behind a test that has found it set. -/
theorem Next.unlockClear_eq (h : Next t m p m' p') {b : Bool} (here : p' = .unlockClear b) :
    p = .unlockTest b ∧ m.writerWaiting = true := by
  cases h with
  | unlockTest =>
      split at here
      · exact ⟨by rw [Place.unlockClear.inj here], ‹_›⟩
      · cases here
  | unlockShared | lockTest | lockInner | lockInnerLoad | unlockMtx =>
      split at here
      · cases here
      · cases here
  | _ => cases here

/-- Behind the flag it is clear. -/
theorem Next.unlockMtx_eq (h : Next t m p m' p') {b : Bool} (here : p' = .unlockMtx b) :
    m'.writerWaiting = false := by
  cases h with
  | unlockTest =>
      split at here
      · cases here
      · simpa using ‹¬ m.writerWaiting = true›
  | unlockClear => rfl
  | unlockShared | lockTest | lockInner | lockInnerLoad | unlockMtx =>
      split at here
      · cases here
      · cases here
  | _ => cases here

/-- Whoever is past the flag stays so until it gives the mutex back. -/
theorem Next.isOwner_kept (h : Next t m p m' p') (owner : p.isOwner = true) :
    p'.isOwner = true ∨ ∃ b, p = .unlockMtx b := by
  cases h with
  | unlockMtx => exact .inr ⟨_, rfl⟩
  | lockInner | lockInnerLoad | unlockTest =>
      refine .inl ?_
      split
      · rfl
      · rfl
  | lockInnerWait | unlock | unlockRead | unlockClear | atomicFound | atomicWait | beforeWait
  | waitUnlock | waited | waitLock | afterWait => exact .inl rfl
  | _ => cases owner

/-- A clear flag stays clear unless the exclusive holder sets it. -/
theorem Next.stays_clear (h : Next t m p m' p') (clear : m.writerWaiting = false)
    (other : p ≠ .exclusive) : m'.writerWaiting = false := by
  rcases h.writerWaiting_cases with hsame | ⟨-, hexcl⟩ | ⟨b, hclear⟩
  · exact hsame.trans clear
  · exact absurd hexcl other
  · subst hclear
    cases h
    rfl

end Steps

/-- A word with readers in it and the bit set is not the bit alone. -/
theorem or_X_ne {n : ℕ} (ne : n ≠ 0) (lt : n < X) : (n ||| X) ≠ X := by
  have hor := Nat.two_pow_add_eq_or_of_lt (i := 31) lt 1
  have hX : X = 2 ^ 31 := rfl
  rw [Nat.mul_one] at hor
  rw [Nat.or_comm, hX, ← hor]
  omega

/-- **What a thread knows of the flag and of the word that it waits on.** -/
structure Knows (m : Memory ι) (p : Place) : Prop where
  awaits : ∀ lk, p = .lockInnerWait lk → lk ≠ X
  test : ∀ b, p = .unlockTest b → b = m.writerWaiting
  clear : ∀ b, p = .unlockClear b → b = true
  cleared : ∀ b, p = .unlockMtx b → m.writerWaiting = false

/-- **A step leaves the flag set, or somebody who notifies.** -/
theorem Next.flag_kept {ι : Type*} {t : ι} {m m' : Memory ι} {p p' : Place} (h : Next t m p m' p')
    (knows : Knows m p) (set : m.writerWaiting = true) :
    m'.writerWaiting = true ∨ p' = .unlockMtx true := by
  rcases h.writerWaiting_cases with hsame | ⟨hset, -⟩ | ⟨b, hclear⟩
  · exact .inl (hsame.trans set)
  · exact .inl hset
  · obtain rfl := knows.clear b hclear
    subst hclear
    cases h
    exact .inr rfl

/-- **What a thread with the mutex can do**: a step that blocks nobody, unless it holds the lock, has
found the word that it waits to see gone, or has found the flag set. -/
theorem Next.exists_of_hasMtx {ι : Type*} {m : Memory ι} {p : Place} (t : ι) (mtx : p.hasMtx = true)
    (asserted : p = .afterWait → m.writerWaiting = true) :
    p = .exclusive ∨ (∃ lk, p = .lockInnerWait lk ∧ m.readers = lk) ∨
      (p = .signalTest ∧ m.writerWaiting = true) ∨ ∃ m' p', Next t m p m' p' ∧ p' ≠ .signalWait := by
  cases p with
  | sharedWaitAdd => exact .inr (.inr (.inr ⟨_, _, .sharedWaitAdd, by simp⟩))
  | sharedWaitUnlock => exact .inr (.inr (.inr ⟨_, _, .sharedWaitUnlock, by simp⟩))
  | lockTest => exact .inr (.inr (.inr ⟨_, _, .lockTest, by split <;> simp⟩))
  | signalTest =>
      cases hflag : m.writerWaiting with
      | false => exact .inr (.inr (.inr ⟨_, _, .signalled hflag, by simp⟩))
      | true => exact .inr (.inr (.inl ⟨rfl, rfl⟩))
  | lockInner => exact .inr (.inr (.inr ⟨_, _, .lockInner, by split <;> simp⟩))
  | lockInnerWait lk =>
      by_cases hsame : m.readers = lk
      · exact .inr (.inl ⟨lk, rfl, hsame⟩)
      · exact .inr (.inr (.inr ⟨_, _, .lockInnerWait hsame, by simp⟩))
  | lockInnerLoad => exact .inr (.inr (.inr ⟨_, _, .lockInnerLoad, by split <;> simp⟩))
  | exclusive => exact .inl rfl
  | unlockRead => exact .inr (.inr (.inr ⟨_, _, .unlockRead, by simp⟩))
  | unlockTest b => exact .inr (.inr (.inr ⟨_, _, .unlockTest, by split <;> simp⟩))
  | unlockClear b => exact .inr (.inr (.inr ⟨_, _, .unlockClear, by simp⟩))
  | unlockMtx b => exact .inr (.inr (.inr ⟨_, _, .unlockMtx, by split <;> simp⟩))
  | beforeWait => exact .inr (.inr (.inr ⟨_, _, .beforeWait, by simp⟩))
  | waitUnlock => exact .inr (.inr (.inr ⟨_, _, .waitUnlock, by simp⟩))
  | afterWait => exact .inr (.inr (.inr ⟨_, _, .afterWait (asserted rfl), by simp⟩))
  | _ => cases mtx

section Flag

variable {ι : Type*} [Fintype ι] [DecidableEq ι] {c : Config ι (Memory ι) Place}

/-- A set flag has an owner, and everybody in `unlock` knows it. -/
structure Flagged (c : Config ι (Memory ι) Place) : Prop where
  knows : ∀ i, Knows c.shared (c.pc i)
  owner : c.shared.writerWaiting = true → ∃ i, (c.pc i).isOwner = true

/-- A step keeps what everybody knows. -/
theorem Flagged.knows_move (h : Flagged c) (reached : Reachable Next Few new c) {i : ι} {m : Memory ι}
    {p : Place} (moved : Next i c.shared (c.pc i) m p) (j : ι) : Knows m ((c.move i m p).pc j) := by
  obtain ⟨hwhole, hthreads⟩ := invariant_of_reachable reached
  by_cases hj : j = i
  · subst hj
    rw [Config.move_pc_self]
    refine ⟨fun lk hlk => ?_, fun b hb => moved.unlockTest_eq hb, fun b hb => ?_,
      fun b hb => moved.unlockMtx_eq hb⟩
    · rcases moved.awaits hlk with ⟨hhere, hne, rfl⟩ | hne
      · have hzero := writers_eq_zero hthreads (i := j) (by rw [hhere]; rfl) (by rw [hhere]; rfl)
        have hread := hwhole.readers
        have hfew := hwhole.few
        rw [hzero] at hread
        exact or_X_ne hne (by omega)
      · exact hne
    · obtain ⟨hhere, hflag⟩ := moved.unlockClear_eq hb
      exact ((h.knows j).test b hhere).trans hflag
  · rw [Config.move_pc_of_ne c hj]
    -- The others have no part in the flag while `j` is in `unlock`.
    have hother : (c.pc j).isOwner = true → (c.pc i).isOwner = false := fun howner => by
      rw [← Bool.not_eq_true]
      exact fun h => hj (hwhole.owner j i howner h)
    have hsame : (c.pc j).isOwner = true → m.writerWaiting = c.shared.writerWaiting := by
      intro howner
      have hno := hother howner
      rcases moved.writerWaiting_cases with hsame | ⟨-, hexcl⟩ | ⟨b, hclear⟩
      · exact hsame
      · rw [hexcl] at hno
        cases hno
      · rw [hclear] at hno
        cases hno
    refine ⟨(h.knows j).awaits, fun b hb => ?_, (h.knows j).clear, fun b hb => ?_⟩
    · rw [hsame (by rw [hb]; rfl)]
      exact (h.knows j).test b hb
    · rw [hsame (by rw [hb]; rfl)]
      exact (h.knows j).cleared b hb

omit [Fintype ι] in
/-- Behind a step, a set flag has an owner. -/
theorem Flagged.owner_move (h : Flagged c) {i : ι} {m : Memory ι} {p : Place}
    (moved : Next i c.shared (c.pc i) m p) (set : m.writerWaiting = true) :
    ∃ j, ((c.move i m p).pc j).isOwner = true := by
  cases hflag : c.shared.writerWaiting with
  | false =>
      -- The holder has set the flag, and is past it.
      have hexcl : c.pc i = .exclusive := by
        by_contra hne
        rw [moved.stays_clear hflag hne] at set
        cases set
      refine ⟨i, ?_⟩
      rw [Config.move_pc_self]
      rcases moved.isOwner_kept (by rw [hexcl]; rfl) with hkept | ⟨b, hmtx⟩
      · exact hkept
      · rw [hexcl] at hmtx
        cases hmtx
  | true =>
      obtain ⟨j, hj⟩ := h.owner hflag
      refine ⟨j, ?_⟩
      by_cases hji : j = i
      · subst hji
        rw [Config.move_pc_self]
        rcases moved.isOwner_kept hj with hkept | ⟨b, hmtx⟩
        · exact hkept
        · rw [(h.knows j).cleared b hmtx] at hflag
          cases hflag
      · rwa [Config.move_pc_of_ne c hji]

/-- **In every run the flag has an owner**, and everybody in `unlock` knows it. -/
theorem flagged_of_reachable (h : Reachable Next Few new c) : Flagged c := by
  induction h with
  | start => exact ⟨fun i => ⟨by simp [new], by simp [new], by simp [new], by simp [new]⟩, by simp [new]⟩
  | @step c c' i reached _ taken ih =>
      obtain ⟨m, p, hmoved, rfl⟩ := taken
      exact ⟨fun j => ih.knows_move reached hmoved j, fun hset => ih.owner_move hmoved hset⟩

end Flag

/-- Who is not where the thread that moves was stays where it is. -/
theorem pc_move_of_pc {ι σ π : Type*} [DecidableEq ι] {c : Config ι σ π} {q : π} {i j : ι}
    (here : c.pc j = q) (ne : c.pc i ≠ q) (s : σ) (p : π) : (c.move i s p).pc j = q := by
  have hne : j ≠ i := by
    rintro rfl
    exact ne here
  rw [Config.move_pc_of_ne c hne, here]

/-! ## Threads that are asleep -/

/-- The lock, and the threads that are asleep: in `readers_.wait`, and in
`writer_waiting_signal_.wait`. -/
structure Blocking (ι : Type*) extends Memory ι where
  asleep : Finset ι
  waiters : Finset ι

/-- The thread notifies nobody by its next step. -/
def Place.isQuiet : Place → Bool
  | .sharedNotify | .notifyAll => false
  | _ => true

theorem Place.isQuiet_of_hasMtx {p : Place} (h : p.hasMtx = true) : p.isQuiet = true := by
  cases p with
  | sharedNotify | notifyAll => cases h
  | _ => rfl

section Blocking

variable {ι : Type*} {c : Config ι (Blocking ι) Place}

/-- **No wake-up is lost.**  Whoever sleeps is where it went to sleep.  As long as a writer sleeps on
the word, the word is not the one that it waits for, or a reader is about to notify; as long as a
writer waits for the flag, the flag is set, or a writer is about to notify. -/
structure Blocking.Sound (c : Config ι (Blocking ι) Place) : Prop where
  asleep : ∀ i ∈ c.shared.asleep, ∃ lk, c.pc i = .lockInnerWait lk
  waiters : ∀ i ∈ c.shared.waiters, c.pc i = .signalWait
  word : ∀ i ∈ c.shared.asleep, c.shared.readers ≠ X ∨ ∃ j, c.pc j = .sharedNotify
  flag : ∀ i ∈ c.shared.waiters, c.shared.writerWaiting = true ∨
    ∃ j, c.pc j = .unlockMtx true ∨ c.pc j = .notifyAll

/-- One thread sleeps on the word at most: it has the mutex. -/
theorem Blocking.Sound.asleep_unique (h : Blocking.Sound c)
    (threads : ∀ j, Assertion j c.shared.toMemory (c.pc j)) {s s' : ι} (hs : s ∈ c.shared.asleep)
    (hs' : s' ∈ c.shared.asleep) : s = s' := by
  obtain ⟨lk, hlk⟩ := h.asleep s hs
  obtain ⟨lk', hlk'⟩ := h.asleep s' hs'
  have hmtx := (threads s).mtx.mp (by rw [hlk]; rfl)
  have hmtx' := (threads s').mtx.mp (by rw [hlk']; rfl)
  exact Option.some.inj (hmtx.symm.trans hmtx')

/-- Who is not at a wait is awake. -/
theorem Blocking.Sound.awake {i : ι} (sound : Blocking.Sound c) (word : ∀ lk, c.pc i ≠ .lockInnerWait lk)
    (flag : c.pc i ≠ .signalWait) : i ∉ c.shared.asleep ∧ i ∉ c.shared.waiters := by
  refine ⟨fun hi => ?_, fun hi => flag (sound.waiters i hi)⟩
  obtain ⟨lk, hlk⟩ := sound.asleep i hi
  exact word lk hlk

variable [DecidableEq ι]

/-- **One step of a thread**, which sleeps and is woken. -/
inductive Blocking.Next (t : ι) : Blocking ι → Place → Blocking ι → Place → Prop
  /-- A step of a thread that is awake. -/
  | runs {b : Blocking ι} {m : Memory ι} {p p' : Place} (moved : RWLock.Next t b.toMemory p m p')
      (up : t ∉ b.asleep) (out : t ∉ b.waiters) (quiet : p.isQuiet = true) (stays : p' ≠ .signalWait) :
      Blocking.Next t b p { b with toMemory := m } p'
  /-- `readers_.wait(lk)` finds `lk` in the word. -/
  | sleeps {b : Blocking ι} {lk : ℕ} (equal : b.readers = lk) :
      Blocking.Next t b (.lockInnerWait lk) { b with asleep := insert t b.asleep } (.lockInnerWait lk)
  /-- `writer_waiting_signal_.wait` finds that the predicate does not hold. -/
  | waits {b : Blocking ι} (no : b.writerWaiting = true) :
      Blocking.Next t b .signalTest { b with mtx := none, waiters := insert t b.waiters } .signalWait
  /-- `readers_.notify_one()`, with somebody asleep and with nobody. -/
  | notifyOne {b : Blocking ι} {s : ι} (one : s ∈ b.asleep) :
      Blocking.Next t b .sharedNotify { b with asleep := b.asleep.erase s } .idle
  | notifyNobody {b : Blocking ι} (nobody : b.asleep = ∅) : Blocking.Next t b .sharedNotify b .idle
  /-- `writer_waiting_signal_.notify_all()`. -/
  | notifyAll {b : Blocking ι} : Blocking.Next t b .notifyAll { b with waiters := ∅ } .idle
  /-- A thread wakes up for no reason. -/
  | wakes {b : Blocking ι} {p : Place} (sleeping : t ∈ b.asleep ∨ t ∈ b.waiters) :
      Blocking.Next t b p { b with asleep := b.asleep.erase t, waiters := b.waiters.erase t } p

/-- The lock without its sleepers. -/
def Blocking.project (c : Config ι (Blocking ι) Place) : Config ι (Memory ι) Place :=
  ⟨c.shared.toMemory, c.pc⟩

/-- The lock when it is made. -/
def Blocking.new : Config ι (Blocking ι) Place := ⟨⟨⟨none, 0, false⟩, ∅, ∅⟩, fun _ => .idle⟩

/-- A step is one of the lock without sleepers, or changes the sleepers alone. -/
theorem Blocking.Next.project {b b' : Blocking ι} {t : ι} {p p' : Place}
    (h : Blocking.Next t b p b' p') :
    RWLock.Next t b.toMemory p b'.toMemory p' ∨ (b'.toMemory = b.toMemory ∧ p' = p) := by
  cases h with
  | runs moved => exact .inl moved
  | sleeps | wakes => exact .inr ⟨rfl, rfl⟩
  | waits no => exact .inl (.signalTest no)
  | notifyOne | notifyNobody => exact .inl .sharedNotify
  | notifyAll => exact .inl .notifyAll

/-- The thread can take a step, and not one for no reason. -/
def Blocking.Moves (c : Config ι (Blocking ι) Place) (i : ι) : Prop :=
  ∃ b p, Blocking.Next i c.shared (c.pc i) b p ∧ i ∉ c.shared.asleep ∧ i ∉ c.shared.waiters

/-- Whether the thread goes on is up to its caller: it holds the lock, or is in the wait of
`atomic_wait`. -/
def Place.holds : Place → Bool
  | .shared | .exclusive | .waiting => true
  | _ => false

/-- Some thread in a call can go on, or its caller has it hold the lock. -/
def Blocking.Goes (c : Config ι (Blocking ι) Place) : Prop :=
  ∃ j, c.pc j ≠ .idle ∧ (Blocking.Moves c j ∨ (c.pc j).holds = true)

/-- A thread at a known place that is awake and has a step before it moves. -/
theorem Blocking.moves_of_pc {i : ι} {b : Blocking ι} {p₀ p : Place} (here : c.pc i = p₀)
    (awake : i ∉ c.shared.asleep ∧ i ∉ c.shared.waiters) (moved : Blocking.Next i c.shared p₀ b p) :
    Blocking.Moves c i :=
  ⟨b, p, here ▸ moved, awake⟩

/-- A notification that leaves nobody asleep, or nobody waiting for the flag. -/
theorem Blocking.Sound.notifies (h : Blocking.Sound c) {i : ι} {b : Blocking ι}
    (here : (c.pc i = .sharedNotify ∧ b.asleep = ∅) ∨ (c.pc i = .notifyAll ∧ b.waiters = ∅))
    (memory : b.toMemory = c.shared.toMemory) (asleep : b.asleep ⊆ c.shared.asleep)
    (waiters : b.waiters ⊆ c.shared.waiters) (p : Place) : Blocking.Sound (c.move i b p) := by
  have hreaders : b.readers = c.shared.readers := congrArg Memory.readers memory
  have hflag : b.writerWaiting = c.shared.writerWaiting := congrArg Memory.writerWaiting memory
  refine ⟨fun s hs => ?_, fun s hs => ?_, fun s hs => ?_, fun s hs => ?_⟩
  · obtain ⟨lk, hlk⟩ := h.asleep s (asleep hs)
    refine ⟨lk, pc_move_of_pc hlk ?_ _ _⟩
    rcases here with ⟨heq, -⟩ | ⟨heq, -⟩ <;> simp [heq]
  · refine pc_move_of_pc (h.waiters s (waiters hs)) ?_ _ _
    rcases here with ⟨heq, -⟩ | ⟨heq, -⟩ <;> simp [heq]
  · rcases here with ⟨-, hnone⟩ | ⟨heq, -⟩
    · rw [Config.move_shared, hnone] at hs
      cases hs
    · rw [Config.move_shared, hreaders]
      rcases h.word s (asleep hs) with hne | ⟨j, hj⟩
      · exact .inl hne
      · exact .inr ⟨j, pc_move_of_pc hj (by simp [heq]) _ _⟩
  · rcases here with ⟨heq, -⟩ | ⟨-, hnone⟩
    · rw [Config.move_shared, hflag]
      rcases h.flag s (waiters hs) with hset | ⟨j, hj | hj⟩
      · exact .inl hset
      · exact .inr ⟨j, .inl (pc_move_of_pc hj (by simp [heq]) _ _)⟩
      · exact .inr ⟨j, .inr (pc_move_of_pc hj (by simp [heq]) _ _)⟩
    · rw [Config.move_shared, hnone] at hs
      cases hs

/-- A thread that falls asleep on the word, or wakes up for no reason, stays at its place. -/
theorem Blocking.Sound.stays (h : Blocking.Sound c) {i : ι} {b : Blocking ι}
    (memory : b.toMemory = c.shared.toMemory) (waiters : b.waiters ⊆ c.shared.waiters)
    (asleep : ∀ s ∈ b.asleep, s ∈ c.shared.asleep ∨
      ((∃ lk, c.pc s = .lockInnerWait lk) ∧ c.shared.readers ≠ X)) :
    Blocking.Sound (c.move i b (c.pc i)) := by
  have hpc : (c.move i b (c.pc i)).pc = c.pc := Function.update_eq_self i c.pc
  have hreaders : b.readers = c.shared.readers := congrArg Memory.readers memory
  have hflag : b.writerWaiting = c.shared.writerWaiting := congrArg Memory.writerWaiting memory
  refine ⟨fun s hs => ?_, fun s hs => ?_, fun s hs => ?_, fun s hs => ?_⟩
  · rw [hpc]
    rcases asleep s hs with hs | ⟨hlk, -⟩
    · exact h.asleep s hs
    · exact hlk
  · rw [hpc]
    exact h.waiters s (waiters hs)
  · rw [hpc, Config.move_shared, hreaders]
    rcases asleep s hs with hs | ⟨-, hne⟩
    · exact h.word s hs
    · exact .inl hne
  · rw [hpc, Config.move_shared, hflag]
    exact h.flag s (waiters hs)

/-- A thread that gives the mutex away for the flag has seen it set. -/
theorem Blocking.Sound.waits (h : Blocking.Sound c) {i : ι} (here : c.pc i = .signalTest)
    (no : c.shared.writerWaiting = true) :
    Blocking.Sound (c.move i { c.shared with mtx := none, waiters := insert i c.shared.waiters }
      .signalWait) := by
  refine ⟨fun s hs => ?_, fun s hs => ?_, fun s hs => ?_, fun s hs => .inl no⟩
  · obtain ⟨lk, hlk⟩ := h.asleep s hs
    exact ⟨lk, pc_move_of_pc hlk (by simp [here]) _ _⟩
  · by_cases hsi : s = i
    · rw [hsi, Config.move_pc_self]
    · rw [Config.move_pc_of_ne c hsi]
      exact h.waiters s (Finset.mem_of_mem_insert_of_ne hs hsi)
  · rcases h.word s hs with hne | ⟨j, hj⟩
    · exact .inl hne
    · exact .inr ⟨j, pc_move_of_pc hj (by simp [here]) _ _⟩

variable [Fintype ι]

/-- Fewer than `2 ^ 31` readers hold the lock behind a step. -/
def Blocking.Few (_ : Config ι (Blocking ι) Place) (_ : ι) (c : Config ι (Blocking ι) Place) : Prop :=
  sharers (Blocking.project c) < X

/-- **A run with sleepers is a run of the lock.** -/
theorem Blocking.reachable (h : Reachable Blocking.Next Blocking.Few Blocking.new c) :
    Reachable RWLock.Next RWLock.Few RWLock.new (Blocking.project c) := by
  induction h with
  | start => exact .start
  | @step c c' i _ few taken ih =>
      obtain ⟨b, p, hmoved, rfl⟩ := taken
      rcases hmoved.project with hbase | ⟨hmem, hplace⟩
      · exact .step ih few ⟨_, _, hbase, rfl⟩
      · have hsame : Blocking.project (c.move i b p) = Blocking.project c := by
          simp only [Blocking.project, Config.move, hmem, hplace, Function.update_eq_self]
        rwa [hsame]

/-- **A step past a sleeping writer leaves readers, or somebody who notifies.** -/
theorem Next.word_kept {c : Config ι (Memory ι) Place}
    (reached : Reachable RWLock.Next RWLock.Few RWLock.new c) {i s : ι} {lk : ℕ} {m : Memory ι}
    {p : Place} (here : c.pc s = .lockInnerWait lk) (ne : s ≠ i)
    (moved : RWLock.Next i c.shared (c.pc i) m p) (readers : c.shared.readers ≠ X) :
    m.readers ≠ X ∨ p = .sharedNotify := by
  obtain ⟨hwhole, hthreads⟩ := invariant_of_reachable reached
  have hmtx : (c.pc i).hasMtx = false := by
    rw [← Bool.not_eq_true]
    intro hhas
    have hs := (hthreads s).mtx.mp (by rw [here]; rfl)
    exact ne (Option.some.inj (hs.symm.trans ((hthreads i).mtx.mp hhas)))
  have hbit : 0 < writers c := Config.count_pos (i := s) (by rw [here]; rfl)
  have hone := writers_le_one hthreads
  have hword := hwhole.readers
  rw [show writers c = 1 by omega, one_mul] at hword
  have hfew := hwhole.few
  have hX : X = 2 ^ 31 := rfl
  have hW : WAITER = 1 := rfl
  rcases moved.readers_cases with ⟨heq, -⟩ | ⟨-, -, -, -, -, hcas | hhas⟩ | ⟨heq, hwas, hgone, -⟩ |
    ⟨-, -, -, -, -, hhas⟩ | ⟨-, -, -, hexcl, -⟩
  · exact .inl (heq ▸ readers)
  · have hlt := (hthreads i).expected _ hcas
    omega
  · rw [hmtx] at hhas
    cases hhas
  · -- A reader leaves: it notifies if it was the last one.
    by_cases hlast : c.shared.readers = X + WAITER
    · right
      rw [moved.leaves hwas hgone, if_pos hlast]
    · left
      rw [heq]
      omega
  · rw [hmtx] at hhas
    cases hhas
  · rw [Place.hasMtx_of_hasBit (Place.hasBit_of_isExclusive hexcl)] at hmtx
    cases hmtx

/-- **A step of a thread that is awake loses no wake-up.** -/
theorem Blocking.Sound.runs (h : Blocking.Sound c)
    (reached : Reachable RWLock.Next RWLock.Few RWLock.new (Blocking.project c)) {i : ι} {m : Memory ι}
    {p : Place} (moved : RWLock.Next i c.shared.toMemory (c.pc i) m p) (up : i ∉ c.shared.asleep)
    (out : i ∉ c.shared.waiters) (quiet : (c.pc i).isQuiet = true) :
    Blocking.Sound (c.move i { c.shared with toMemory := m } p) := by
  have hflagged := flagged_of_reachable reached
  have hasleep : ∀ s ∈ c.shared.asleep, s ≠ i := fun s hs heq => up (heq ▸ hs)
  have hwaiters : ∀ s ∈ c.shared.waiters, s ≠ i := fun s hs heq => out (heq ▸ hs)
  have hno : c.pc i ≠ .sharedNotify ∧ c.pc i ≠ .notifyAll := by
    refine ⟨fun heq => ?_, fun heq => ?_⟩
    · rw [heq] at quiet
      cases quiet
    · rw [heq] at quiet
      cases quiet
  refine ⟨fun s hs => ?_, fun s hs => ?_, fun s hs => ?_, fun s hs => ?_⟩
  · rw [Config.move_pc_of_ne c (hasleep s hs)]
    exact h.asleep s hs
  · rw [Config.move_pc_of_ne c (hwaiters s hs)]
    exact h.waiters s hs
  · rcases h.word s hs with hne | ⟨j, hj⟩
    · obtain ⟨lk, hlk⟩ := h.asleep s hs
      rcases Next.word_kept reached hlk (hasleep s hs) moved hne with hne' | rfl
      · exact .inl hne'
      · exact .inr ⟨i, Config.move_pc_self c i _ _⟩
    · exact .inr ⟨j, pc_move_of_pc hj hno.1 _ _⟩
  · rcases h.flag s hs with hset | ⟨j, hj⟩
    · rcases moved.flag_kept (hflagged.knows i) hset with hset' | rfl
      · exact .inl hset'
      · exact .inr ⟨i, .inl (Config.move_pc_self c i _ _)⟩
    · refine .inr ?_
      by_cases hji : j = i
      · -- The one that was about to give the mutex back has done it.
        subst hji
        refine ⟨j, .inr ?_⟩
        rw [Config.move_pc_self]
        rcases hj with hj | hj
        · rw [hj] at moved
          cases moved
          rfl
        · exact absurd hj hno.2
      · exact ⟨j, by rwa [Config.move_pc_of_ne c hji]⟩

/-- **No step loses a wake-up.** -/
theorem Blocking.Sound.step (h : Blocking.Sound c)
    (reached : Reachable RWLock.Next RWLock.Few RWLock.new (Blocking.project c)) {i : ι}
    {b : Blocking ι} {p : Place} (moved : Blocking.Next i c.shared (c.pc i) b p) :
    Blocking.Sound (c.move i b p) := by
  have hthreads := (invariant_of_reachable reached).2
  generalize hshared : c.shared = b₀ at moved
  generalize hplace : c.pc i = p₀ at moved
  cases moved with
  | runs moved up out quiet _ =>
      subst hshared hplace
      exact h.runs reached moved up out quiet
  | sleeps equal =>
      subst hshared
      rw [← hplace]
      refine h.stays rfl (Finset.Subset.refl _) fun s hs => ?_
      rcases Finset.mem_insert.mp hs with rfl | hs
      · refine .inr ⟨⟨_, hplace⟩, ?_⟩
        rw [equal]
        exact ((flagged_of_reachable reached).knows s).awaits _ hplace
      · exact .inl hs
  | waits no =>
      subst hshared
      exact h.waits hplace no
  | @notifyOne s one =>
      subst hshared
      -- Nobody else was asleep.
      have hnone : c.shared.asleep.erase s = ∅ := Finset.eq_empty_of_forall_notMem fun s' hs' =>
        (Finset.mem_erase.mp hs').1 (h.asleep_unique hthreads (Finset.mem_erase.mp hs').2 one)
      exact h.notifies (b := { c.shared with asleep := c.shared.asleep.erase s })
        (.inl ⟨hplace, hnone⟩) rfl (Finset.erase_subset _ _) (Finset.Subset.refl _) _
  | notifyNobody nobody =>
      subst hshared
      exact h.notifies (.inl ⟨hplace, nobody⟩) rfl (Finset.Subset.refl _) (Finset.Subset.refl _) _
  | notifyAll =>
      subst hshared
      exact h.notifies (b := { c.shared with waiters := ∅ }) (.inr ⟨hplace, rfl⟩) rfl
        (Finset.Subset.refl _) (Finset.empty_subset _) _
  | wakes sleeping =>
      subst hshared hplace
      exact h.stays rfl (Finset.erase_subset _ _) fun s hs => .inl (Finset.mem_erase.mp hs).2

/-- **No run loses a wake-up.** -/
theorem Blocking.sound_of_reachable (h : Reachable Blocking.Next Blocking.Few Blocking.new c) :
    Blocking.Sound c := by
  induction h with
  | start =>
      exact ⟨by simp [Blocking.new], by simp [Blocking.new], by simp [Blocking.new], by simp [Blocking.new]⟩
  | step reached _ taken ih =>
      obtain ⟨b, p, hmoved, rfl⟩ := taken
      exact ih.step (Blocking.reachable reached) hmoved

/-! ## Nobody is left behind -/

section Goes

variable {i : ι} (h : Reachable Blocking.Next Blocking.Few Blocking.new c)

include h

/-- **A sleeping writer waits for a reader**, which holds the lock or goes on. -/
theorem Blocking.goes_of_asleep (hi : i ∈ c.shared.asleep) : Blocking.Goes c := by
  have hsound := Blocking.sound_of_reachable h
  obtain ⟨hwhole, hthreads⟩ := invariant_of_reachable (Blocking.reachable h)
  obtain ⟨lk, hlk⟩ := hsound.asleep i hi
  rcases hsound.word i hi with hne | ⟨j, hj⟩
  · have hbit : 0 < writers (Blocking.project c) := Config.count_pos (i := i) (by
      change (c.pc i).hasBit = true
      rw [hlk]
      rfl)
    have hone := writers_le_one hthreads
    have hword : c.shared.readers = sharers (Blocking.project c) + writers (Blocking.project c) * X :=
      hwhole.readers
    rw [show writers (Blocking.project c) = 1 by omega, one_mul] at hword
    obtain ⟨j, hj⟩ : ∃ j, (c.pc j).isShared = true := by
      by_contra hno
      have hzero : sharers (Blocking.project c) = 0 :=
        Config.count_eq_zero.mpr fun j hj => hno ⟨j, hj⟩
      omega
    cases hplace : c.pc j with
    | shared => exact ⟨j, by simp [hplace], .inr (by rw [hplace]; rfl)⟩
    | sharedWaitUnlock =>
        have hawake := hsound.awake (i := j) (by simp [hplace]) (by simp [hplace])
        exact ⟨j, by simp [hplace], .inl (Blocking.moves_of_pc hplace hawake
          (.runs .sharedWaitUnlock hawake.1 hawake.2 rfl (by simp)))⟩
    | _ =>
        rw [hplace] at hj
        cases hj
  · exact ⟨j, by simp [hj], .inl (Blocking.moves_of_pc hj
      (hsound.awake (by simp [hj]) (by simp [hj])) (.notifyOne hi))⟩

/-- **Whoever has the mutex goes on**, holds the lock, or waits for a reader. -/
theorem Blocking.goes_of_hasMtx (mtx : (c.pc i).hasMtx = true) : Blocking.Goes c := by
  have hsound := Blocking.sound_of_reachable h
  obtain ⟨hwhole, hthreads⟩ := invariant_of_reachable (Blocking.reachable h)
  have hbusy : c.pc i ≠ .idle := by
    intro heq
    rw [heq] at mtx
    cases mtx
  have hout : i ∉ c.shared.waiters := by
    intro hi
    rw [hsound.waiters i hi] at mtx
    cases mtx
  by_cases hup : i ∈ c.shared.asleep
  · exact Blocking.goes_of_asleep h hup
  · refine ⟨i, hbusy, ?_⟩
    have hasserted : c.pc i = .afterWait → c.shared.writerWaiting = true := fun heq =>
      (hthreads i).inWait (by
        change (c.pc i).inWait = true
        rw [heq]
        rfl)
    rcases Next.exists_of_hasMtx i mtx hasserted with
      hexcl | ⟨lk, hlk, hsame⟩ | ⟨htest, hflag⟩ | ⟨m, p, hmoved, hstays⟩
    · right
      rw [hexcl]
      rfl
    · exact .inl (Blocking.moves_of_pc hlk ⟨hup, hout⟩ (.sleeps hsame))
    · exact .inl (Blocking.moves_of_pc htest ⟨hup, hout⟩ (.waits hflag))
    · exact .inl (Blocking.moves_of_pc rfl ⟨hup, hout⟩
        (.runs hmoved hup hout (Place.isQuiet_of_hasMtx mtx) hstays))

/-- Whoever wants the mutex gets it, or somebody else has it. -/
theorem Blocking.goes_of_wants {p₀ p : Place} (here : c.pc i = p₀) (busy : p₀ ≠ .idle)
    (awake : i ∉ c.shared.asleep ∧ i ∉ c.shared.waiters)
    (takes : c.shared.mtx = none →
      RWLock.Next i c.shared.toMemory p₀ { c.shared.toMemory with mtx := some i } p)
    (quiet : p₀.isQuiet = true) (stays : p ≠ .signalWait) : Blocking.Goes c := by
  cases hmtx : c.shared.mtx with
  | none =>
      exact ⟨i, here ▸ busy, .inl (Blocking.moves_of_pc here awake
        (.runs (takes hmtx) awake.1 awake.2 quiet stays))⟩
  | some j =>
      obtain ⟨-, hthreads⟩ := invariant_of_reachable (Blocking.reachable h)
      exact Blocking.goes_of_hasMtx h (i := j) ((hthreads j).mtx.mpr hmtx)

/-- Whoever is about to notify all does. -/
theorem Blocking.goes_of_notifyAll (here : c.pc i = .notifyAll) : Blocking.Goes c := by
  have hsound := Blocking.sound_of_reachable h
  exact ⟨i, by simp [here], .inl (Blocking.moves_of_pc here
    (hsound.awake (by simp [here]) (by simp [here])) .notifyAll)⟩

/-- Whoever is past the flag goes on, or its caller has it hold the lock. -/
theorem Blocking.goes_of_isOwner (owner : (c.pc i).isOwner = true) : Blocking.Goes c := by
  have hsound := Blocking.sound_of_reachable h
  rcases Place.hasMtx_or_inWait owner with hmtx | hwait
  · exact Blocking.goes_of_hasMtx h hmtx
  · cases hplace : c.pc i with
    | beforeWait | waitUnlock | afterWait =>
        exact Blocking.goes_of_hasMtx h (i := i) (by rw [hplace]; rfl)
    | waiting => exact ⟨i, by simp [hplace], .inr (by rw [hplace]; rfl)⟩
    | waitLock =>
        exact Blocking.goes_of_wants h hplace (by simp)
          (hsound.awake (by simp [hplace]) (by simp [hplace])) .waitLock rfl (by simp)
    | _ =>
        rw [hplace] at hwait
        cases hwait

/-- **While a thread is in a call, some thread in a call goes on**, or its caller has it hold the
lock. -/
theorem Blocking.goes_of_busy (busy : c.pc i ≠ .idle) : Blocking.Goes c := by
  have hsound := Blocking.sound_of_reachable h
  by_cases hmtx : (c.pc i).hasMtx = true
  · exact Blocking.goes_of_hasMtx h hmtx
  by_cases hout : i ∈ c.shared.waiters
  · rcases hsound.flag i hout with hset | ⟨j, hj | hj⟩
    · obtain ⟨j, hj⟩ := (flagged_of_reachable (Blocking.reachable h)).owner hset
      exact Blocking.goes_of_isOwner h hj
    · exact Blocking.goes_of_hasMtx h (i := j) (by rw [hj]; rfl)
    · exact Blocking.goes_of_notifyAll h hj
  by_cases hup : i ∈ c.shared.asleep
  · exact Blocking.goes_of_asleep h hup
  have hawake := And.intro hup hout
  cases hplace : c.pc i with
  | idle => exact absurd hplace busy
  | sharedLockInner lk =>
      refine ⟨i, busy, .inl ?_⟩
      by_cases hfree : c.shared.readers &&& X = 0
      · exact Blocking.moves_of_pc hplace hawake (.runs (.sharedRetry hfree) hup hout rfl (by simp))
      · exact Blocking.moves_of_pc hplace hawake (.runs (.sharedBlocked hfree) hup hout rfl (by simp))
  | sharedWaitLock =>
      exact Blocking.goes_of_wants h hplace (by simp) hawake .sharedWaitLock rfl (by simp)
  | lockMtx => exact Blocking.goes_of_wants h hplace (by simp) hawake .lockMtx rfl (by simp)
  | signalLock => exact Blocking.goes_of_wants h hplace (by simp) hawake .signalLock rfl (by simp)
  | waitLock => exact Blocking.goes_of_wants h hplace (by simp) hawake .waitLock rfl (by simp)
  | shared | waiting => exact ⟨i, busy, .inr (by rw [hplace]; rfl)⟩
  | sharedNotify =>
      refine ⟨i, busy, .inl ?_⟩
      rcases Finset.eq_empty_or_nonempty c.shared.asleep with hnone | ⟨s, hs⟩
      · exact Blocking.moves_of_pc hplace hawake (.notifyNobody hnone)
      · exact Blocking.moves_of_pc hplace hawake (.notifyOne hs)
  | signalWait =>
      exact ⟨i, busy, .inl (Blocking.moves_of_pc hplace hawake
        (.runs .signalWait hup hout rfl (by simp)))⟩
  | notifyAll => exact Blocking.goes_of_notifyAll h hplace
  | _ =>
      rw [hplace] at hmtx
      exact absurd rfl hmtx

/-- **No wake-up is lost, and the lock does not stand still.**  In every state of every run of any
number of threads, with sleeping and waking as they are: a writer that sleeps on the word is at its
wait, and readers are left or one of them is about to notify; a writer that waits for the flag is at
its wait, and the flag is set or a writer is about to notify; and while a thread is in a call, some
thread in a call can take a step, and not by waking up for no reason, or its caller has it hold the
lock. -/
theorem no_lost_wakeup :
    (∀ i ∈ c.shared.asleep, (∃ lk, c.pc i = .lockInnerWait lk) ∧
      (c.shared.readers ≠ X ∨ ∃ j, c.pc j = .sharedNotify)) ∧
    (∀ i ∈ c.shared.waiters, c.pc i = .signalWait ∧ (c.shared.writerWaiting = true ∨
      ∃ j, c.pc j = .unlockMtx true ∨ c.pc j = .notifyAll)) ∧
    ∀ i, c.pc i ≠ .idle → Blocking.Goes c := by
  have hsound := Blocking.sound_of_reachable h
  exact ⟨fun i hi => ⟨hsound.asleep i hi, hsound.word i hi⟩,
    fun i hi => ⟨hsound.waiters i hi, hsound.flag i hi⟩, fun i hi => Blocking.goes_of_busy h hi⟩

end Goes

end Blocking

/-- A writer sleeps, and the last reader leaves: it is about to notify. -/
theorem no_lost_wakeup_reader_leaves :
    ∃ c : Config (Fin 2) (Blocking (Fin 2)) Place, Reachable Blocking.Next Blocking.Few Blocking.new c ∧
      (1 : Fin 2) ∈ c.shared.asleep ∧ c.shared.readers = X ∧ (∃ j, c.pc j = .sharedNotify) ∧
      Blocking.Goes c := by
  have hfew : ∀ (c : Config (Fin 2) (Blocking (Fin 2)) Place) i c', Blocking.Few c i c' :=
    fun c i c' => few_of_card (by decide) (Blocking.project c) i (Blocking.project c')
  have h₀ : Reachable Blocking.Next Blocking.Few
      (Blocking.new : Config (Fin 2) (Blocking (Fin 2)) Place) Blocking.new := .start
  have h₁ := h₀.move (s := ⟨⟨none, 0, false⟩, ∅, ∅⟩) (p := .sharedLockInner 0) 0
    (.runs .lockShared (by decide) (by decide) rfl (by simp)) (hfew _ _ _)
  have h₂ := h₁.move (s := ⟨⟨none, 1, false⟩, ∅, ∅⟩) (p := .shared) 0
    (.runs (.sharedLock rfl) (by decide) (by decide) rfl (by simp)) (hfew _ _ _)
  have h₃ := h₂.move (s := ⟨⟨none, 1, false⟩, ∅, ∅⟩) (p := .lockMtx) 1
    (.runs .lock (by decide) (by decide) rfl (by simp)) (hfew _ _ _)
  have h₄ := h₃.move (s := ⟨⟨some 1, 1, false⟩, ∅, ∅⟩) (p := .lockTest) 1
    (.runs (.lockMtx rfl) (by decide) (by decide) rfl (by simp)) (hfew _ _ _)
  have h₅ := h₄.move (s := ⟨⟨some 1, 1, false⟩, ∅, ∅⟩) (p := .lockInner) 1
    (.runs .lockTest (by decide) (by decide) rfl (by simp)) (hfew _ _ _)
  have h₆ := h₅.move (s := ⟨⟨some 1, 1 + X, false⟩, ∅, ∅⟩) (p := .lockInnerWait (1 + X)) 1
    (.runs .lockInner (by decide) (by decide) rfl (by simp)) (hfew _ _ _)
  have h₇ := h₆.move (s := ⟨⟨some 1, 1 + X, false⟩, {1}, ∅⟩) (p := .lockInnerWait (1 + X)) 1
    (.sleeps rfl) (hfew _ _ _)
  have h := h₇.move (s := ⟨⟨some 1, X, false⟩, {1}, ∅⟩) (p := .sharedNotify) 0
    (.runs .unlockShared (by decide) (by decide) rfl (by simp)) (hfew _ _ _)
  obtain ⟨hword, -, hgoes⟩ := no_lost_wakeup h
  refine ⟨_, h, Finset.mem_singleton_self 1, rfl, ?_, hgoes 1 ?_⟩
  · exact (hword 1 (Finset.mem_singleton_self 1)).2.resolve_left fun hne => hne rfl
  · simp [Config.move]

end RWLock

end Lsmkv
