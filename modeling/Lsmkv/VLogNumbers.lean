import Lsmkv.Lib.Interleaving
import Mathlib.Algebra.Ring.Nat
import Mathlib.Data.Finset.Basic

/-!
# The numbers of the value logs

`Version` (`src/include/version.h`) counts the numbers of the value logs up with a fetch-add
and takes a number back when its file could not be opened: it tests whether the number was
the last one, and stores it then.  Two threads use the counter without a common lock: the
writer, when its log is full (`KVStore::WriteImpl`), and the compaction thread, for every
value log it writes (`LevelCache::BuildWhenCompaction`).

Between the test and the store the other thread may take a number.  As long as none does, a
number that is handed out is not in use (`VLogNumbers.fresh_of_reachable`): numbers in use
are below the counter, and a number that is about to be given back is the one just below it
and nobody else's.
-/

namespace Lsmkv

namespace VLogNumbers

open Interleaving

/-- The two threads. -/
inductive Agent
  | writer
  | compaction
  deriving DecidableEq

/-- Where a thread is. -/
inductive Place
  | idle
  /-- `NewVLogFileNumber`, the fetch-add. -/
  | taking
  /-- `VLogBuilder::Open` with a number. -/
  | opening (fileNo : ℕ)
  /-- A value log is open. -/
  | writing (fileNo : ℕ)
  /-- `ReuseVLogFileNumber`: the test and the store. -/
  | testing (fileNo : ℕ)
  | storing (fileNo : ℕ)

/-- `last_vlog_file_no_`, and the numbers that entries of tables and memtables refer to. -/
structure Memory where
  lastVLogFileNo : ℕ
  referenced : Finset ℕ

/-- **One step of a thread.** -/
inductive Next : Agent → Memory → Place → Memory → Place → Prop
  /-- The log is full: `Close`, which does not fail, so the writer gives no number back. -/
  | rotate {m : Memory} {n : ℕ} : Next .writer m (.writing n) m .taking
  /-- A compaction needs a value log. -/
  | start {m : Memory} : Next .compaction m .idle m .taking
  | newVLogFileNumber {a : Agent} {m : Memory} :
      Next a m .taking { m with lastVLogFileNo := m.lastVLogFileNo + 1 }
        (.opening m.lastVLogFileNo)
  | opened {a : Agent} {m : Memory} {n : ℕ} : Next a m (.opening n) m (.writing n)
  /-- The writer does not look at the result of `Open`. -/
  | openIgnored {m : Memory} {n : ℕ} : Next .writer m (.opening n) m .idle
  | openFailed {m : Memory} {n : ℕ} : Next .compaction m (.opening n) m (.testing n)
  | reuseLast {a : Agent} {m : Memory} {n : ℕ} (last : n + 1 = m.lastVLogFileNo) :
      Next a m (.testing n) m (.storing n)
  | reuseOther {a : Agent} {m : Memory} {n : ℕ} (other : n + 1 ≠ m.lastVLogFileNo) :
      Next a m (.testing n) m .idle
  | reuseStore {a : Agent} {m : Memory} {n : ℕ} :
      Next a m (.storing n) { m with lastVLogFileNo := n } .idle
  /-- A record is appended, and an entry refers to it. -/
  | append {a : Agent} {m : Memory} {n : ℕ} :
      Next a m (.writing n) { m with referenced := insert n m.referenced } (.writing n)
  /-- A value log of a compaction is closed, at its end or because the compaction fails. -/
  | close {m : Memory} {n : ℕ} : Next .compaction m (.writing n) m .idle
  /-- The last entry that refers to a log goes. -/
  | drop {m : Memory} {n : ℕ} :
      Next .compaction m .idle { m with referenced := m.referenced.erase n } .idle

/-- A number that a thread has and that is no log yet. -/
def Place.pending : Place → Option ℕ
  | .opening n | .testing n | .storing n => some n
  | _ => none

/-- The number that a thread has. -/
def Place.held : Place → Option ℕ
  | .opening n | .writing n | .testing n | .storing n => some n
  | _ => none

/-- The memory and the places of both threads. -/
def state (m : Memory) (writer compaction : Place) : Config Agent Memory Place :=
  ⟨m, fun a => match a with
    | .writer => writer
    | .compaction => compaction⟩

/-- The store behind its constructor, which opens log 0. -/
def new : Config Agent Memory Place := state ⟨1, ∅⟩ (.writing 0) .idle

/-- The value log with this number is open or referred to.  `Open` takes its number in 32 bits,
so that numbers that agree there are one log. -/
def InUse (c : Config Agent Memory Place) (fileNo : ℕ) : Prop :=
  ∃ n, n % 2 ^ 32 = fileNo % 2 ^ 32 ∧ (n ∈ c.shared.referenced ∨ ∃ a, c.pc a = .writing n)

/-- The next step of a thread hands this number out. -/
def HandsOut (c : Config Agent Memory Place) (a : Agent) (fileNo : ℕ) : Prop :=
  c.pc a = .taking ∧ c.shared.lastVLogFileNo = fileNo

/-- No number is taken between the test and the store of `ReuseVLogFileNumber`. -/
def Apart (c : Config Agent Memory Place) (a : Agent) (_ : Config Agent Memory Place) : Prop :=
  c.pc a = .taking → ∀ b n, c.pc b ≠ .storing n

/-! ## What a step can do -/

/-- A step takes a number, gives one back, or leaves the counter: then the thread has no
other number than before, gives only the last one back, and refers only to an open log. -/
theorem Next.cases {a : Agent} {m m' : Memory} {p p' : Place} (h : Next a m p m' p') :
    (m' = { m with lastVLogFileNo := m.lastVLogFileNo + 1 } ∧ p = .taking ∧
      p' = .opening m.lastVLogFileNo) ∨
    (∃ n, m' = { m with lastVLogFileNo := n } ∧ p = .storing n ∧ p' = .idle) ∨
    (m'.lastVLogFileNo = m.lastVLogFileNo ∧ (∀ n, p'.held = some n → p.held = some n) ∧
      (∀ n, p'.pending = some n → p.pending = some n) ∧
      (∀ n, p' = .storing n → n + 1 = m.lastVLogFileNo) ∧
      ∀ n ∈ m'.referenced, n ∈ m.referenced ∨ p = .writing n) := by
  cases h with
  | newVLogFileNumber => exact .inl ⟨rfl, rfl, rfl⟩
  | reuseStore => exact .inr (.inl ⟨_, rfl, rfl, rfl⟩)
  | reuseLast last =>
      refine .inr (.inr ⟨rfl, fun n hn => hn, fun n hn => hn, fun n hn => ?_, fun n hn => .inl hn⟩)
      rw [← Place.storing.inj hn]
      exact last
  | append =>
      refine .inr (.inr ⟨rfl, fun n hn => hn, fun n hn => hn, by simp, fun n hn => ?_⟩)
      rcases Finset.mem_insert.mp hn with rfl | hn
      · exact .inr rfl
      · exact .inl hn
  | drop =>
      refine .inr (.inr ⟨rfl, fun n hn => hn, fun n hn => hn, by simp, fun n hn => .inl ?_⟩)
      exact Finset.mem_of_mem_erase hn
  | _ =>
      refine .inr (.inr ⟨rfl, ?_, ?_, by simp, fun n hn => .inl hn⟩)
      · simp [Place.held]
      · simp [Place.pending]

/-! ## The invariant -/

/-- **What a thread knows** of its number: it was handed out, nothing refers to it as long as
there is no log, and a number that goes back was the last one. -/
structure Assertion (_ : Agent) (m : Memory) (p : Place) : Prop where
  below : ∀ n, p.held = some n → n < m.lastVLogFileNo
  unused : ∀ n, p.pending = some n → n ∉ m.referenced
  last : ∀ n, p = .storing n → n + 1 = m.lastVLogFileNo

/-- **What holds of all numbers.** -/
structure Whole (c : Config Agent Memory Place) : Prop where
  below : ∀ n ∈ c.shared.referenced, n < c.shared.lastVLogFileNo
  distinct : ∀ a b n, (c.pc a).held = some n → (c.pc b).held = some n → a = b

theorem Place.held_of_pending {p : Place} {n : ℕ} (h : p.pending = some n) : p.held = some n := by
  cases p <;> simp_all [Place.pending, Place.held]

section Steps

variable {c : Config Agent Memory Place} {a b : Agent} {m : Memory} {p : Place}

/-- **The whole behind a step.** -/
theorem Whole.move (h : Whole c) (threads : ∀ b, Assertion b c.shared (c.pc b))
    (moved : Next a c.shared (c.pc a) m p) : Whole (c.move a m p) := by
  -- A thread has the number it had, or one that nobody has.
  have hheld : (∀ n, p.held = some n → (c.pc a).held = some n ∨ ∀ b, (c.pc b).held ≠ some n) →
      ∀ b b' n, ((c.move a m p).pc b).held = some n → ((c.move a m p).pc b').held = some n →
        b = b' := by
    intro hnew b b' n hb hb'
    have hown : ∀ b', b' ≠ a → p.held = some n → (c.pc b').held = some n → False := by
      intro b' hne hp hb'
      rcases hnew n hp with hold | hnobody
      · exact hne (h.distinct b' a n hb' hold)
      · exact hnobody b' hb'
    by_cases hba : b = a
    · by_cases hba' : b' = a
      · exact hba.trans hba'.symm
      · rw [hba, Config.move_pc_self] at hb
        rw [Config.move_pc_of_ne c hba'] at hb'
        exact (hown b' hba' hb hb').elim
    · rw [Config.move_pc_of_ne c hba] at hb
      by_cases hba' : b' = a
      · rw [hba', Config.move_pc_self] at hb'
        exact (hown b hba hb' hb).elim
      · rw [Config.move_pc_of_ne c hba'] at hb'
        exact h.distinct b b' n hb hb'
  rcases moved.cases with ⟨rfl, -, rfl⟩ | ⟨n, rfl, hhere, rfl⟩ | ⟨hlast, hhave, -, -, href⟩
  · refine ⟨fun n hn => Nat.lt_succ_of_lt (h.below n hn), hheld fun n hn => .inr fun b hb => ?_⟩
    have hlt := (threads b).below n hb
    simp only [Place.held, Option.some.injEq] at hn
    omega
  · refine ⟨fun k hk => ?_, hheld (by simp [Place.held])⟩
    have hlt := h.below k hk
    have hlast := (threads a).last n hhere
    have hne : k ≠ n := by
      rintro rfl
      exact (threads a).unused k (by rw [hhere]; rfl) hk
    show k < n
    omega
  · refine ⟨fun k hk => ?_, hheld fun k hk => .inl (hhave k hk)⟩
    rw [Config.move_shared, hlast]
    rcases href k hk with hk | hhere
    · exact h.below k hk
    · exact (threads a).below k (by rw [hhere]; rfl)

/-- **What the thread that moves knows.** -/
theorem Assertion.own (h : Whole c) (threads : ∀ b, Assertion b c.shared (c.pc b))
    (moved : Next a c.shared (c.pc a) m p) : Assertion a m p := by
  rcases moved.cases with ⟨rfl, -, rfl⟩ | ⟨n, rfl, -, rfl⟩ | ⟨hlast, hhave, hpend, hstore, href⟩
  · refine ⟨fun n hn => ?_, fun n hn hmem => ?_, by simp⟩
    · simp only [Place.held, Option.some.injEq] at hn
      exact hn ▸ Nat.lt_succ_self _
    · simp only [Place.pending, Option.some.injEq] at hn
      have hlt := h.below n hmem
      omega
  · exact ⟨by simp [Place.held], by simp [Place.pending], by simp⟩
  · refine ⟨fun n hn => ?_, fun n hn hmem => ?_, fun n hn => ?_⟩
    · rw [hlast]
      exact (threads a).below n (hhave n hn)
    · rcases href n hmem with hold | hhere
      · exact (threads a).unused n (hpend n hn) hold
      · have hpending := hpend n hn
        simp [hhere, Place.pending] at hpending
    · rw [hlast]
      exact hstore n hn

/-- **What the others know still holds.** -/
theorem Assertion.others (h : Whole c) (threads : ∀ b, Assertion b c.shared (c.pc b))
    (moved : Next a c.shared (c.pc a) m p) (apart : c.pc a = .taking → ∀ b n, c.pc b ≠ .storing n)
    (ne : b ≠ a) : Assertion b m (c.pc b) := by
  rcases moved.cases with ⟨rfl, hhere, rfl⟩ | ⟨n, rfl, hhere, rfl⟩ | ⟨hlast, hhave, -, -, href⟩
  · refine ⟨fun n hn => Nat.lt_succ_of_lt ((threads b).below n hn), (threads b).unused,
      fun n hn => ?_⟩
    exact absurd hn (apart hhere b n)
  · have hlast := (threads a).last n hhere
    -- The number that goes back is not the other thread's.
    have hne : ∀ k, (c.pc b).held = some k → k < n := by
      intro k hk
      have hlt := (threads b).below k hk
      have : k ≠ n := by
        rintro rfl
        exact ne (h.distinct b a k hk (by rw [hhere]; rfl))
      omega
    refine ⟨hne, (threads b).unused, fun k hk => ?_⟩
    have := hne k (by rw [hk]; rfl)
    have := (threads b).last k hk
    omega
  · refine ⟨fun n hn => ?_, fun n hn hmem => ?_, fun n hn => ?_⟩
    · rw [hlast]
      exact (threads b).below n hn
    · rcases href n hmem with hold | hhere
      · exact (threads b).unused n hn hold
      · exact ne (h.distinct b a n (Place.held_of_pending hn) (by rw [hhere]; rfl))
    · rw [hlast]
      exact (threads b).last n hn

end Steps

/-- **The numbers in every run** in which no number is taken while another goes back. -/
theorem invariant_of_reachable {c : Config Agent Memory Place}
    (h : Reachable Next Apart new c) : Whole c ∧ ∀ a, Assertion a c.shared (c.pc a) := by
  refine h.outline ⟨by simp [new, state], ?_⟩ (fun a => ?_)
    (fun c a m p hwhole hthreads hmoved _ => ⟨hwhole.move hthreads hmoved, ?_⟩)
    (fun c a m p b hwhole hthreads hmoved hapart hne => ?_)
  · intro a b n ha hb
    cases a <;> cases b <;> simp_all [new, state, Place.held]
  · cases a with
    | writer =>
        exact ⟨by simp [new, state, Place.held], by simp [new, state, Place.pending],
          by simp [new, state]⟩
    | compaction =>
        exact ⟨by simp [new, state, Place.held], by simp [new, state, Place.pending],
          by simp [new, state]⟩
  · exact .own hwhole hthreads hmoved
  · exact .others hwhole hthreads hmoved hapart hne

/-- **No number is handed out while its log is in use**, in every run in which no number is taken
between the test and the store of `ReuseVLogFileNumber`, as long as the numbers have 32 bits. -/
theorem fresh_of_reachable {c : Config Agent Memory Place} (reached : Reachable Next Apart new c)
    {a : Agent} {fileNo : ℕ} (out : HandsOut c a fileNo) (fits : fileNo < 2 ^ 32) :
    ¬ InUse c fileNo := by
  obtain ⟨hwhole, hthreads⟩ := invariant_of_reachable reached
  rintro ⟨n, hmod, huse⟩
  have hlt : n < c.shared.lastVLogFileNo := by
    rcases huse with href | ⟨b, hb⟩
    · exact hwhole.below n href
    · exact (hthreads b).below n (by rw [hb]; rfl)
  rw [out.2] at hlt
  rw [Nat.mod_eq_of_lt (hlt.trans fits), Nat.mod_eq_of_lt fits] at hmod
  exact hlt.ne hmod

section Traces

variable {meets : Config Agent Memory Place → Agent → Config Agent Memory Place → Prop}
  {m m' : Memory} {w k p : Place}

/-- The writer moves. -/
theorem reachable_writer (h : Reachable Next meets new (state m w k))
    (moved : Next .writer m w m' p)
    (ok : meets (state m w k) .writer (state m' p k)) : Reachable Next meets new (state m' p k) := by
  have heq : (state m w k).move .writer m' p = state m' p k := by
    unfold Config.move state
    congr 1
    funext a
    cases a <;> rfl
  rw [← heq] at ok ⊢
  exact h.move .writer moved ok

/-- The compaction thread moves. -/
theorem reachable_compaction (h : Reachable Next meets new (state m w k))
    (moved : Next .compaction m k m' p)
    (ok : meets (state m w k) .compaction (state m' w p)) :
    Reachable Next meets new (state m' w p) := by
  have heq : (state m w k).move .compaction m' p = state m' w p := by
    unfold Config.move state
    congr 1
    funext a
    cases a <;> rfl
  rw [← heq] at ok ⊢
  exact h.move .compaction moved ok

theorem apart_of_ne {a : Agent} {c : Config Agent Memory Place}
    (writer : ∀ n, w ≠ .storing n) (compaction : ∀ n, k ≠ .storing n) :
    Apart (state m w k) a c := by
  intro _ b n
  cases b with
  | writer => exact writer n
  | compaction => exact compaction n

end Traces

/-- The compaction thread gives number 1 back, and then the writer rotates its log. -/
theorem fresh_of_reachable_given_back :
    ∃ c, Reachable Next Apart new c ∧ HandsOut c .writer 1 ∧ InUse c 0 ∧ ¬ InUse c 1 := by
  have h₀ : Reachable Next Apart new (state ⟨1, ∅⟩ (.writing 0) .idle) := .start
  have h₁ := reachable_writer h₀ .append (apart_of_ne (by simp) (by simp))
  have h₂ := reachable_compaction h₁ .start (apart_of_ne (by simp) (by simp))
  have h₃ := reachable_compaction h₂ .newVLogFileNumber (apart_of_ne (by simp) (by simp))
  have h₄ := reachable_compaction h₃ .openFailed (apart_of_ne (by simp) (by simp))
  have h₅ := reachable_compaction h₄ (.reuseLast rfl) (apart_of_ne (by simp) (by simp))
  have h₆ := reachable_compaction h₅ .reuseStore (by simp [Apart, state])
  have h₇ := reachable_writer h₆ .rotate (apart_of_ne (by simp) (by simp))
  exact ⟨_, h₇, ⟨rfl, rfl⟩, ⟨0, rfl, .inl (by simp [state])⟩,
    fresh_of_reachable (a := .writer) h₇ ⟨rfl, rfl⟩ (by decide)⟩

/-- **A number is handed out twice.**  The compaction thread cannot open log 1 and finds that
1 was the last number; the writer takes number 2 and opens log 2; the compaction thread stores
1, takes number 1 for its next value log, and is about to take number 2. -/
theorem handed_out_in_use :
    ∃ c, Reachable Next (fun _ _ _ => True) new c ∧ HandsOut c .compaction 2 ∧
      c.pc .writer = .writing 2 ∧ InUse c 2 := by
  have h₀ : Reachable Next (fun _ _ _ => True) new (state ⟨1, ∅⟩ (.writing 0) .idle) := .start
  have h₁ := reachable_compaction h₀ .start trivial
  have h₂ := reachable_compaction h₁ .newVLogFileNumber trivial
  have h₃ := reachable_compaction h₂ .openFailed trivial
  have h₄ := reachable_compaction h₃ (.reuseLast rfl) trivial
  have h₅ := reachable_writer h₄ .rotate trivial
  have h₆ := reachable_writer h₅ .newVLogFileNumber trivial
  have h₇ := reachable_writer h₆ .opened trivial
  have h₈ := reachable_compaction h₇ .reuseStore trivial
  have h₉ := reachable_compaction h₈ .start trivial
  have h₁₀ := reachable_compaction h₉ .newVLogFileNumber trivial
  have h₁₁ := reachable_compaction h₁₀ .opened trivial
  have h₁₂ := reachable_compaction h₁₁ .close trivial
  have h₁₃ := reachable_compaction h₁₂ .start trivial
  exact ⟨_, h₁₃, ⟨rfl, rfl⟩, rfl, 2, rfl, .inr ⟨.writer, rfl⟩⟩

end VLogNumbers

end Lsmkv
