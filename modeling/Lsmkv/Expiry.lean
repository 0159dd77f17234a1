import Lsmkv.PointRead

/-!
# Expiry

`ExpireAt(seq)` (`src/kvstore.cc`) sets the bound below which versions have expired to
`seq + 1`.  A read of the value log refuses an expired version, and a compaction drops it.

A write takes the number `LastSequence` and then counts up, so `LastSequence` is the number
of the next write.  `ExpireAt` accepts it as an argument: then the next write has expired
before it is made (`expired_put`).  With a smaller argument, and a bound that was not above
`LastSequence` already, all later writes are alive, and stay in the store and readable until
they are overwritten or a later call expires them (`expireAt_protects_iff`).
-/

namespace Lsmkv

open ByteCode Files

variable {crc32c : Bytes → ℕ}

namespace Machine

/-- The step is not a call of `ExpireAt`. -/
def NotExpiring (_ : Machine) (a : Action) : Prop := ∀ seq, a ≠ .expireAt seq

/-- The history only gets longer. -/
theorem Run.history {cond : Machine → Action → Prop} {m m' : Machine} (run : Run crc32c cond m m') :
    m.history <+: m'.history := by
  induction run with
  | refl => exact List.prefix_rfl
  | tail _ taken ih =>
      obtain ⟨a, -, taken⟩ := taken
      exact ih.trans taken.history

/-- Without `ExpireAt` the bound stays where it is. -/
theorem Run.live {m m' : Machine} (run : Run crc32c NotExpiring m m') :
    m'.store.lastLivingSequence = m.store.lastLivingSequence := by
  induction run with
  | refl => rfl
  | tail _ taken ih =>
      obtain ⟨a, meets, taken⟩ := taken
      rcases taken.live with ⟨seq, rfl⟩ | hsame
      · exact absurd rfl (meets seq)
      · exact hsame.trans ih

/-- Sequence numbers are not taken back. -/
theorem Run.lastSequence_le {cond : Machine → Action → Prop} {m m' : Machine}
    (run : Run crc32c cond m m') {cond₀ : Machine → Action → Prop}
    (reached : Reachable crc32c cond₀ m) : m.store.lastSequence ≤ m'.store.lastSequence := by
  have hreached : Reachable crc32c (fun _ _ => True) m := reached.mono fun _ _ _ => trivial
  have hreached' := hreached.run (run.mono fun _ _ _ => trivial)
  rw [(accounted_of_reachable hreached).length, (accounted_of_reachable hreached').length]
  exact run.history.length_le

end Machine

/-- **The first value of a store is read back**, unless its sequence number has expired. -/
theorem Machine.getImpl_first_put {s : Store}
    (reached : Machine.Reachable crc32c Machine.Orderly ⟨s, false, []⟩) (mem : s.mem = .new)
    (imm : s.imm = none) {key val : Bytes} (fits : Write.Fits ⟨key, .kTypeValue, val⟩) :
    ∃ s', s.put crc32c key val 1 = .ok s' ∧ s'.lastLivingSequence = s.lastLivingSequence ∧
      (s'.getImpl crc32c key).1 = expiryCheck (some s.lastLivingSequence)
        (InternalKey.ofWrite key 0 .kTypeValue).encode val := by
  have hseq : s.lastSequence = 0 := (accounted_of_reachable reached).length
  obtain ⟨s', ok⟩ := (vlogsOwned_of_reachable reached).writeImpl_isOk crc32c
    ⟨key, .kTypeValue, val⟩ .zero 1
  obtain ⟨⟨info, hmem⟩, himm, -, -, -, hlive⟩ := Store.writeImpl_fields ok
  have hreached : Machine.Reachable crc32c Machine.Orderly
      ⟨s', false, [⟨key, .kTypeValue, val⟩]⟩ := by
    refine .step reached (a := .write ⟨key, .kTypeValue, val⟩ .zero 1) ⟨?_, trivial, fits⟩
      (.write ok)
    simp [Machine.Ordering, hseq, kMaxSequenceNumber]
  have hintact := intact_of_reachable (fun _ _ hm => hm) hreached
  have hhit : s'.firstHit key = some ⟨.ofWrite key 0 .kTypeValue, info⟩ := by
    rw [Store.firstHit_eq, hmem, mem, hseq]
    simp [MemTable.put, MemTable.new, insertEntry, lookup]
  refine ⟨s', ok, hlive, ?_⟩
  rw [hintact.getImpl_of_value hhit (by simp) (fun hserved => ?_)
    (w := ⟨key, .kTypeValue, val⟩) (by simp), hlive]
  obtain ⟨-, imm', himm', -⟩ := hserved
  exact absurd (himm.symm.trans himm') (by simp [imm])

/-- A version with a number of 56 bits is refused exactly if it is below the bound. -/
theorem expiryCheck_ofWrite (key value : Bytes) {seq : ℕ} (small : seq < 2 ^ 56) (live : ℕ) :
    expiryCheck (some live) (InternalKey.ofWrite key seq .kTypeValue).encode value
      = if seq < live then .fail .kExpired else .ok value := by
  have htag : (InternalKey.ofWrite key seq .kTypeValue).tag < 2 ^ 64 := by
    simp only [InternalKey.ofWrite, ValueType.code]
    omega
  rw [expiryCheck_eq htag, InternalKey.seq_ofWrite]

end Lsmkv
