import Lsmkv.Expiry
import Lsmkv.Lib.Interleaving

/-!
# Calls of `ExpireAt` at the same time

`ExpireAt(seq)` (`src/kvstore.cc`) loads `LastSequence`, loads `LastLivingSequence`, compares, and
stores `seq + 1`.  Each access is atomic, and no lock is held from one to the next.  Between them
other calls make their steps, and the rest of the store writes, reads, flushes and compacts.

A call that has found the bound low enough stores its own, whatever was stored meanwhile: a call
with a smaller argument takes back what a later one has set, and a version that was expired can be
read again (`ExpireCalls.bound_taken_back`).  As long as no call stores while one with a smaller
argument is about to store, every store raises the bound.  Then the calls act as if each were one
step (`ExpireCalls.run_of_reachable`), and what has expired stays so
(`ExpireCalls.expired_forever`).
-/

namespace Lsmkv

open ByteCode Files

/-- The bound never decreases in a run with undivided calls. -/
theorem Machine.Run.live_le {crc32c : Bytes → ℕ} {cond : Machine → Action → Prop} {m m' : Machine}
    (run : Machine.Run crc32c cond m m') :
    m.store.lastLivingSequence ≤ m'.store.lastLivingSequence := by
  induction run with
  | refl => exact le_rfl
  | tail _ taken ih =>
      obtain ⟨a, -, taken⟩ := taken
      refine ih.trans ?_
      rcases taken.live with ⟨seq, rfl⟩ | hsame
      · exact (taken.quiet trivial).1.live_le
      · exact hsame.ge

namespace ExpireCalls

open Interleaving

/-- Where a call of `ExpireAt(seq)` is: before its load of `LastSequence`, before its load of
`LastLivingSequence`, or before its store. -/
inductive Place
  | idle
  | loadSequence (seq : ℕ)
  | loadLiving (seq : ℕ)
  | storeLiving (seq : ℕ)

/-- The argument of a call that is about to store. -/
def Place.storing : Place → Option ℕ
  | .storeLiving seq => some seq
  | _ => none

/-- `SetLastLivingSequence`. -/
def setLiving (m : Machine) (live : ℕ) : Machine :=
  { m with store := { m.store with lastLivingSequence := live } }

variable {ι : Type*} (crc32c : Bytes → ℕ)

/-- **One step of a thread**: of its call of `ExpireAt`, or, outside of one, any other step of the
store. -/
inductive Next (t : ι) : Machine → Place → Machine → Place → Prop
  | call {m : Machine} (seq : ℕ) : Next t m .idle m (.loadSequence seq)
  /-- `seq is larger than current seq`. -/
  | refused {m : Machine} {seq : ℕ} (larger : m.store.lastSequence < seq) :
      Next t m (.loadSequence seq) m .idle
  | loadSequence {m : Machine} {seq : ℕ} (le : seq ≤ m.store.lastSequence) :
      Next t m (.loadSequence seq) m (.loadLiving seq)
  | done {m : Machine} {seq : ℕ} (lower : seq < m.store.lastLivingSequence) :
      Next t m (.loadLiving seq) m .idle
  | loadLiving {m : Machine} {seq : ℕ} (le : m.store.lastLivingSequence ≤ seq) :
      Next t m (.loadLiving seq) m (.storeLiving seq)
  | storeLiving {m : Machine} {seq : ℕ} :
      Next t m (.storeLiving seq) (setLiving m (seq + 1)) .idle
  | other {m m' : Machine} {a : Action} (not_expireAt : ∀ seq, a ≠ .expireAt seq)
      (taken : Machine.Step crc32c m a m') : Next t m .idle m' .idle

/-- A new store, and no call. -/
def new : Config ι Machine Place := ⟨.new, fun _ => .idle⟩

/-- No call stores while one with a smaller argument is about to store. -/
def InOrder (c : Config ι Machine Place) (i : ι) (_ : Config ι Machine Place) : Prop :=
  ∀ seq, (c.pc i).storing = some seq → ∀ j seq', (c.pc j).storing = some seq' → seq ≤ seq'

variable {crc32c}

/-! ## What a call knows -/

/-- What a call knows of the counters: its argument is not above `LastSequence`, and before its
store the bound is at most what it will store. -/
def Known (m : Machine) : Place → Prop
  | .idle | .loadSequence _ => True
  | .loadLiving seq => seq ≤ m.store.lastSequence
  | .storeLiving seq => seq ≤ m.store.lastSequence ∧ m.store.lastLivingSequence ≤ seq + 1

section Steps

variable {t : ι} {m m' : Machine} {p p' : Place}

/-- A call whose knowledge is right stores as `ExpireAt` does in one step, or what is there. -/
theorem Next.machine (h : Next crc32c t m p m' p') (known : Known m p) :
    m' = m ∨ ∃ a, Machine.Step crc32c m a m' := by
  cases h with
  | call | refused | loadSequence | done | loadLiving => exact .inl rfl
  | @storeLiving seq =>
      obtain ⟨hseq, hlive⟩ := known
      rcases Nat.lt_or_eq_of_le hlive with hlt | heq
      · refine .inr ⟨.expireAt seq, .expireAt ?_⟩
        rw [Store.expireAt, if_neg (not_lt.mpr hseq), if_neg (not_lt.mpr (Nat.le_of_lt_succ hlt))]
      · rw [setLiving, ← heq]
        exact .inl rfl
  | other _ taken => exact .inr ⟨_, taken⟩

/-- A thread knows enough behind its own step. -/
theorem Next.known (h : Next crc32c t m p m' p') (known : Known m p) : Known m' p' := by
  cases h with
  | call | refused | done | storeLiving | other => trivial
  | loadSequence le => exact le
  | loadLiving le => exact ⟨known, le.trans (Nat.le_succ _)⟩

/-- What another thread knows stays right, if a store leaves alone the calls that are about to store
a smaller bound. -/
theorem Next.known_other (h : Next crc32c t m p m' p')
    (grows : m.store.lastSequence ≤ m'.store.lastSequence) {q : Place}
    (order : ∀ seq, p.storing = some seq → ∀ seq', q.storing = some seq' → seq ≤ seq')
    (known : Known m q) : Known m' q := by
  have hlive : ∀ seq, q = .storeLiving seq → m.store.lastLivingSequence ≤ seq + 1 →
      m'.store.lastLivingSequence ≤ seq + 1 := by
    intro seq hq hle
    cases h with
    | call | refused | loadSequence | done | loadLiving => exact hle
    | @storeLiving seq' =>
        exact Nat.succ_le_succ (order seq' rfl seq (by rw [hq]; rfl))
    | other not_expireAt taken =>
        rcases taken.live with ⟨s, hs⟩ | hsame
        · exact absurd hs (not_expireAt s)
        · rwa [hsame]
  cases q with
  | idle | loadSequence => trivial
  | loadLiving seq => exact le_trans known grows
  | storeLiving seq => exact ⟨known.1.trans grows, hlive seq rfl known.2⟩

end Steps

/-! ## Runs -/

section Runs

variable [DecidableEq ι] {c c' : Config ι Machine Place}

theorem lastSequence_le_of_machine {m m' : Machine}
    (reached : Machine.Reachable crc32c (fun _ _ => True) m)
    (same : m' = m ∨ ∃ a, Machine.Step crc32c m a m') :
    m.store.lastSequence ≤ m'.store.lastSequence := by
  rcases same with rfl | ⟨a, taken⟩
  · exact le_rfl
  · have hrun : Machine.Run crc32c (fun _ _ => True) m m' := .step .refl taken trivial
    exact hrun.lastSequence_le reached

/-- **In every run in order**, the store is one that a run with undivided calls reaches, and every
call knows what it has loaded. -/
theorem outline_of_reachable (reached : Reachable (Next crc32c) InOrder new c) :
    Machine.Reachable crc32c (fun _ _ => True) c.shared ∧ ∀ i, Known c.shared (c.pc i) := by
  refine @Reachable.outline _ _ _ _ _ _ new c
    (fun c => Machine.Reachable crc32c (fun _ _ => True) c.shared) (fun _ m p => Known m p)
    .new (fun _ => trivial) ?_ ?_ reached
  · intro c i m p hwhole hknown moved _
    refine ⟨?_, moved.known (hknown i)⟩
    rcases moved.machine (hknown i) with rfl | ⟨a, taken⟩
    · exact hwhole
    · exact .step hwhole trivial taken
  · intro c i m p j hwhole hknown moved order _
    exact moved.known_other (lastSequence_le_of_machine hwhole (moved.machine (hknown i)))
      (fun seq hseq seq' hseq' => order seq hseq j seq' hseq') (hknown j)

/-- **The calls act as if each were one step**: the store takes a run of the machine. -/
theorem run_of_reachable (reached : Reachable (Next crc32c) InOrder new c)
    (later : Reachable (Next crc32c) InOrder c c') :
    Machine.Run crc32c (fun _ _ => True) c.shared c'.shared := by
  induction later with
  | start => exact .refl
  | @step c₁ c₂ i later meets taken ih =>
      obtain ⟨m, p, moved, rfl⟩ := taken
      have hknown := (outline_of_reachable (reached.trans later)).2 i
      rcases moved.machine hknown with hsame | ⟨a, taken⟩
      · rw [Config.move_shared, hsame]
        exact ih
      · exact ih.step taken trivial

/-- **What has expired stays so.**  In every run in which no call of `ExpireAt` stores while one with
a smaller argument is about to store, the bound never decreases, and a version that a reader was
refused is refused from then on. -/
theorem expired_forever (reached : Reachable (Next crc32c) InOrder new c)
    (later : Reachable (Next crc32c) InOrder c c') :
    c.shared.store.lastLivingSequence ≤ c'.shared.store.lastLivingSequence ∧
      ∀ key value, expiryCheck (some c.shared.store.lastLivingSequence) key value = .fail .kExpired →
        expiryCheck (some c'.shared.store.lastLivingSequence) key value = .fail .kExpired := by
  have hle := (run_of_reachable reached later).live_le
  refine ⟨hle, fun key value hexpired => ?_⟩
  obtain ⟨k, hk, hexpired⟩ := Outcome.ofOption_bind_eq_fail.mp hexpired
  have hlt : k.seq < c.shared.store.lastLivingSequence := by
    by_contra hge
    simp [hge] at hexpired
  simp [expiryCheck, hk, lt_of_lt_of_le hlt hle]

/-- A call goes on to its store when its argument is between the counters. -/
theorem reachable_storing (crc32c : Bytes → ℕ) {i : ι} {seq : ℕ} (idle : c.pc i = .idle)
    (le : seq ≤ c.shared.store.lastSequence) (ge : c.shared.store.lastLivingSequence ≤ seq) :
    Reachable (Next crc32c) InOrder c (c.move i c.shared (.storeLiving seq)) := by
  have hquiet : ∀ (d d' : Config ι Machine Place) (p : Place), d.pc i = p → p.storing = none →
      InOrder d i d' := by
    intro d d' p hp hnone seq hseq
    rw [hp, hnone] at hseq
    exact absurd hseq (by simp)
  have h₁ : Reachable (Next crc32c) InOrder c (c.move i c.shared (.loadSequence seq)) :=
    Reachable.start.moveAt i idle (.call seq) (hquiet _ _ _ idle rfl)
  have h₂ := h₁.moveAt i (Config.move_pc_self _ _ _ _) (.loadSequence le)
    (hquiet _ _ _ (Config.move_pc_self _ _ _ _) rfl)
  have h₃ := h₂.moveAt i (Config.move_pc_self _ _ _ _) (.loadLiving ge)
    (hquiet _ _ _ (Config.move_pc_self _ _ _ _) rfl)
  rw [Config.move_move, Config.move_move] at h₃
  exact h₃

end Runs

/-- `ExpireAt(0)` on a new store, and the beginning of another call: the first version stays
expired. -/
theorem expired_forever_first :
    ∃ c c' : Config ℕ Machine Place,
      Reachable (Next crc32cCastagnoli) InOrder new c ∧
      Reachable (Next crc32cCastagnoli) InOrder c c' ∧ c'.pc 1 = .loadSequence 0 ∧
      expiryCheck (some c'.shared.store.lastLivingSequence)
        (InternalKey.ofWrite [1] 0 .kTypeValue).encode [9] = .fail .kExpired := by
  have hstoring : Reachable (Next crc32cCastagnoli) InOrder (new : Config ℕ Machine Place)
      (new.move 0 .new (.storeLiving 0)) :=
    reachable_storing crc32cCastagnoli rfl le_rfl le_rfl
  have hstored := hstoring.moveAt 0 (Config.move_pc_self _ _ _ _) .storeLiving (by
    intro seq hseq j seq' hseq'
    obtain rfl : 0 = seq := by simpa [Place.storing] using hseq
    exact Nat.zero_le _)
  have hcall : Reachable (Next crc32cCastagnoli) InOrder
      (((new : Config ℕ Machine Place).move 0 .new (.storeLiving 0)).move 0 (setLiving .new 1) .idle)
      _ := Reachable.start.moveAt 1 rfl (.call 0) (by
        intro seq hseq
        simp [Config.move, new, Place.storing] at hseq)
  have hforever := (expired_forever hstored hcall).2 (InternalKey.ofWrite [1] 0 .kTypeValue).encode [9]
    (expiryCheck_ofWrite _ _ (by decide) _)
  exact ⟨_, _, hstored, hcall, Config.move_pc_self _ _ _ _, hforever⟩

/-- Two versions in a new store, and what is read of the second one under a bound. -/
theorem exists_two_puts (crc32c : Bytes → ℕ) :
    ∃ m₁ m₂ : Machine, Machine.Step crc32c .new (.write ⟨[1], .kTypeValue, [9]⟩ .zero 1) m₁ ∧
      Machine.Step crc32c m₁ (.write ⟨[2], .kTypeValue, [8]⟩ .zero 1) m₂ ∧
      m₂.store.lastSequence = 2 ∧ m₂.store.lastLivingSequence = 0 ∧
      ∀ seq ≤ 2, ((setLiving m₂ (seq + 1)).store.getImpl crc32c [2]).1
        = if 1 < seq + 1 then .fail .kExpired else .ok [8] := by
  obtain ⟨s₁, ok₁⟩ := Store.VLogsOwned.init.writeImpl_isOk crc32c ⟨[1], .kTypeValue, [9]⟩ .zero 1
  have hreached₁ : Machine.Reachable crc32c Machine.Orderly ⟨s₁, false, [⟨[1], .kTypeValue, [9]⟩]⟩ :=
    .step .new (a := .write ⟨[1], .kTypeValue, [9]⟩ .zero 1)
      ⟨Nat.zero_le _, trivial, by simp only [Machine.Fitting]; decide⟩ (.write ok₁)
  obtain ⟨s₂, ok₂⟩ := (vlogsOwned_of_reachable hreached₁).writeImpl_isOk crc32c
    ⟨[2], .kTypeValue, [8]⟩ .zero 1
  have hseq₁ : s₁.lastSequence = 1 := (accounted_of_reachable hreached₁).length
  have hreached₂ : Machine.Reachable crc32c Machine.Orderly
      ⟨s₂, false, [⟨[1], .kTypeValue, [9]⟩, ⟨[2], .kTypeValue, [8]⟩]⟩ := by
    refine .step hreached₁ (a := .write ⟨[2], .kTypeValue, [8]⟩ .zero 1) ⟨?_, trivial, ?_⟩ (.write ok₂)
    · simp [Machine.Ordering, hseq₁, kMaxSequenceNumber]
    · simp only [Machine.Fitting]
      decide
  have hseq₂ : s₂.lastSequence = 2 := (accounted_of_reachable hreached₂).length
  obtain ⟨-, himm₁, -, -, -, hlive₁⟩ := Store.writeImpl_fields ok₁
  obtain ⟨-, himm₂, -, -, -, hlive₂⟩ := Store.writeImpl_fields ok₂
  have hlive : s₂.lastLivingSequence = 0 := hlive₂.trans hlive₁
  obtain ⟨e, hit, hkey⟩ := (intact_of_reachable (fun _ _ hm => hm) hreached₂).firstHit_of_lastWrite
    (u := [2]) (w := ⟨[2], .kTypeValue, [8]⟩) (n := 1) rfl (by rw [hlive]; exact Nat.zero_le _)
  refine ⟨_, _, .write ok₁, .write ok₂, hseq₂, hlive, fun seq hseq => ?_⟩
  have hset : Machine.Reachable crc32c Machine.Orderly
      (setLiving ⟨s₂, false, [⟨[1], .kTypeValue, [9]⟩, ⟨[2], .kTypeValue, [8]⟩]⟩ (seq + 1)) := by
    refine .step hreached₂ (a := .expireAt seq) ⟨trivial, trivial, trivial⟩ (.expireAt ?_)
    simp [Store.expireAt, hseq₂, hlive, not_lt.mpr hseq]
  have hget := (intact_of_reachable (fun _ _ hm => hm) hset).getImpl_of_value (u := [2]) (e := e)
    (w := ⟨[2], .kTypeValue, [8]⟩) hit (by rw [hkey]; simp) ?_ (by rw [hkey]; rfl)
  · refine hget.trans ?_
    rw [hkey]
    exact expiryCheck_ofWrite [2] [8] (by decide) (seq + 1)
  · rintro ⟨-, imm, himm, -⟩
    exact absurd ((himm₂.trans himm₁).symm.trans himm) (by simp [Store.new])

/-- **A call takes back what another one has set.**  `ExpireAt(0)` has found the bound at 0 when
`ExpireAt(1)` expires both versions of the store; its store makes the second one readable again. -/
theorem bound_taken_back :
    ∃ c c' : Config ℕ Machine Place,
      Reachable (Next crc32cCastagnoli) (fun _ _ _ => True) new c ∧
      Reachable (Next crc32cCastagnoli) (fun _ _ _ => True) c c' ∧
      c'.shared.store.lastLivingSequence < c.shared.store.lastLivingSequence ∧
      (c.shared.store.getImpl crc32cCastagnoli [2]).1 = .fail .kExpired ∧
      (c'.shared.store.getImpl crc32cCastagnoli [2]).1 = .ok [8] := by
  obtain ⟨m₁, m₂, hput₁, hput₂, hseq, hlive, hget⟩ := exists_two_puts crc32cCastagnoli
  have hstay : ∀ m m' : Machine, (⟨m, fun _ => .idle⟩ : Config ℕ Machine Place).move 0 m' .idle
      = ⟨m', fun _ => .idle⟩ := fun m m' => by simp [Config.move]
  let d : Config ℕ Machine Place := ⟨m₂, fun _ => .idle⟩
  have hwritten : Reachable (Next crc32cCastagnoli) (fun _ _ _ => True) new d := by
    have h₁ : Reachable (Next crc32cCastagnoli) (fun _ _ _ => True)
        (new : Config ℕ Machine Place) ⟨m₁, fun _ => .idle⟩ := by
      rw [← hstay .new m₁]
      exact Reachable.start.moveAt 0 rfl (.other (by simp) hput₁) trivial
    show Reachable (Next crc32cCastagnoli) (fun _ _ _ => True) new ⟨m₂, fun _ => .idle⟩
    rw [← hstay m₁ m₂]
    exact h₁.moveAt 0 rfl (.other (by simp) hput₂) trivial
  -- Both calls find the bound at 0.
  let first := d.move 1 m₂ (.storeLiving 0)
  let both := first.move 2 m₂ (.storeLiving 1)
  have hfirst : Reachable (Next crc32cCastagnoli) InOrder d first :=
    reachable_storing crc32cCastagnoli rfl (Nat.zero_le _) hlive.le
  have hboth : Reachable (Next crc32cCastagnoli) InOrder first both :=
    reachable_storing crc32cCastagnoli rfl (by rw [show first.shared = m₂ from rfl, hseq]; decide)
      (hlive.le.trans (Nat.zero_le _))
  have hlarge : Reachable (Next crc32cCastagnoli) (fun _ _ _ => True) new
      (both.move 2 (setLiving m₂ 2) .idle) :=
    (hwritten.trans ((hfirst.trans hboth).mono fun _ _ _ _ => trivial)).moveAt 2 rfl .storeLiving trivial
  have hsmall : Reachable (Next crc32cCastagnoli) (fun _ _ _ => True)
      (both.move 2 (setLiving m₂ 2) .idle)
      ((both.move 2 (setLiving m₂ 2) .idle).move 1 (setLiving m₂ 1) .idle) :=
    Reachable.start.moveAt 1 rfl .storeLiving trivial
  exact ⟨_, _, hlarge, hsmall, Nat.lt_succ_self 1, hget 1 (by decide), hget 0 (by decide)⟩

end ExpireCalls

end Lsmkv
