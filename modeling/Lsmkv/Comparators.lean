import Lsmkv.MemRecords
import Lsmkv.TableIterator

/-!
# The comparators, on bytes

Every sorted structure of the store rests on `InternalKeyComparator` (`src/comparator.cpp`): user
keys ascending, as unsigned bytes with a proper prefix first, and behind them the eight bytes of
the tag, as a little-endian number, descending.  `internalKeyCompare` is the comparator on byte
strings, with the assertions of its parts.  A string of at least eight bytes is the byte form of
exactly one internal key (`InternalKey.exists_encode`), and the comparator compares these
(`internalKeyCompare_encode`); so it is a total order whatever the bytes are, and a query key
stands directly before the versions that it may see (`separates_iff`).  `len_` of a `QueryKey` has
32 bits, and a user key that leaves no room in them for the size and the tag is copied behind the
buffer.

`StrComparator` also has two helpers that shorten a key.  `find_shortest_separator` stays between
its two keys.  `find_short_successor` compares a `char`, which is signed, with `0xff`: no `char` is
255, so a first byte `0xff` is incremented as well, and the result is below the key
(`keyShortening_iff`).
-/

namespace Lsmkv

open ByteCode

/-! ## The comparator of internal keys -/

/-- `NumComparator::compare_impl`, with its assertion. -/
def numCompare (a b : Bytes) : Outcome Ordering :=
  if a.length = b.length then do
    let l ← Outcome.ofOption (fixedDecode 8 a)
    let r ← Outcome.ofOption (fixedDecode 8 b)
    .ok (compare l r)
  else .fault

/-- `extract_seq_num`, with its assertion: the eight bytes of the tag. -/
def extractSeqNum (internalKey : Bytes) : Outcome Bytes :=
  if 8 ≤ internalKey.length then .ok ((internalKey.drop (internalKey.length - 8)).take 8) else .fault

/-- `InternalKeyComparator::compare_impl`. -/
def internalKeyCompare (a b : Bytes) : Outcome Ordering := do
  let userA ← extractUserKey a
  let userB ← extractUserKey b
  let res := strCompare userA userB
  if res ≠ .eq then .ok res
  else do
    let seqA ← extractSeqNum a
    let seqB ← extractSeqNum b
    let tags ← numCompare seqA seqB
    .ok tags.swap

/-- `QueryKey(q, u).internal_key()`: what follows the size in the bytes of the query. -/
def queryInternalKey (q : ℕ) (u : Bytes) : Outcome Bytes := do
  let rep ← MemRecords.queryRecord q u
  .ok (rep.drop 4)

/-- A string with room for a tag is the byte form of an internal key. -/
theorem InternalKey.exists_encode {b : Bytes} (long : 8 ≤ b.length) :
    ∃ k : InternalKey, k.tag < 2 ^ 64 ∧ k.encode = b := by
  have hlength : (b.drop (b.length - 8)).length = 8 := by
    rw [List.length_drop]
    omega
  obtain ⟨tag, htag⟩ := fixedDecode_isSome (w := 8) (b := b.drop (b.length - 8)) hlength.ge
  have hcode : fixedEncode 8 tag = b.drop (b.length - 8) := by
    rw [fixedEncode_of_fixedDecode htag, List.take_of_length_le hlength.le]
  -- The tag is what eight bytes say, so it has 64 bits.
  have hlt : tag < 2 ^ 64 := by
    have hback := fixedDecode_fixedEncode 8 tag
    rw [hcode, htag] at hback
    have hmod : tag = tag % 256 ^ 8 := Option.some.inj hback
    rw [hmod]
    exact Nat.mod_lt _ (by positivity)
  refine ⟨⟨b.take (b.length - 8), tag⟩, hlt, ?_⟩
  rw [InternalKey.encode, hcode, List.take_append_drop]

theorem extractSeqNum_encode (k : InternalKey) : extractSeqNum k.encode = .ok (fixedEncode 8 k.tag) := by
  rw [extractSeqNum, if_pos (by simp), InternalKey.length_encode, Nat.add_sub_cancel,
    InternalKey.encode, List.drop_left, List.take_of_length_le (by simp)]

theorem numCompare_fixedEncode {t r : ℕ} (ht : t < 2 ^ 64) (hr : r < 2 ^ 64) :
    numCompare (fixedEncode 8 t) (fixedEncode 8 r) = .ok (compare t r) := by
  have hwidth : (256 : ℕ) ^ 8 = 2 ^ 64 := by norm_num
  rw [numCompare, if_pos (by simp), fixedDecode_fixedEncode, fixedDecode_fixedEncode, hwidth,
    Nat.mod_eq_of_lt ht, Nat.mod_eq_of_lt hr]
  rfl

/-- **The comparator compares the internal keys that the bytes stand for.** -/
theorem internalKeyCompare_encode {a b : InternalKey} (ha : a.tag < 2 ^ 64) (hb : b.tag < 2 ^ 64) :
    internalKeyCompare a.encode b.encode = .ok (compare a b) := by
  rw [internalKeyCompare, extractUserKey_encode, extractUserKey_encode, extractSeqNum_encode,
    extractSeqNum_encode, ← InternalKey.compareImpl_eq_compare, InternalKey.compareImpl]
  simp only [Outcome.ok_bind, numCompare_fixedEncode ha hb]
  cases strCompare a.userKey b.userKey <;> rfl

/-- On byte strings that have room for a tag, the comparator always answers, with the other sign
when the two are exchanged, with zero for the same bytes only, and transitively. -/
structure ComparesTotally (cmp : Bytes → Bytes → Outcome Ordering) : Prop where
  swap : ∀ a b, 8 ≤ a.length → 8 ≤ b.length → ∃ c, cmp a b = .ok c ∧ cmp b a = .ok c.swap
  eq_iff : ∀ a b, 8 ≤ a.length → 8 ≤ b.length → (cmp a b = .ok .eq ↔ a = b)
  trans : ∀ a b c, 8 ≤ a.length → 8 ≤ b.length → 8 ≤ c.length →
    cmp a b = .ok .lt → cmp b c = .ok .lt → cmp a c = .ok .lt

theorem comparesTotally_internalKeyCompare : ComparesTotally internalKeyCompare where
  swap a b ha hb := by
    obtain ⟨k, hk, rfl⟩ := InternalKey.exists_encode ha
    obtain ⟨l, hl, rfl⟩ := InternalKey.exists_encode hb
    refine ⟨compare k l, internalKeyCompare_encode hk hl, ?_⟩
    rw [internalKeyCompare_encode hl hk, ← Std.OrientedCmp.eq_swap]
  eq_iff a b ha hb := by
    obtain ⟨k, hk, rfl⟩ := InternalKey.exists_encode ha
    obtain ⟨l, hl, rfl⟩ := InternalKey.exists_encode hb
    rw [internalKeyCompare_encode hk hl, Outcome.ok.injEq, compare_eq_iff_eq]
    exact ⟨congrArg InternalKey.encode, InternalKey.encode_injOn hk hl⟩
  trans a b c ha hb hc hab hbc := by
    obtain ⟨k, hk, rfl⟩ := InternalKey.exists_encode ha
    obtain ⟨l, hl, rfl⟩ := InternalKey.exists_encode hb
    obtain ⟨m, hm, rfl⟩ := InternalKey.exists_encode hc
    rw [internalKeyCompare_encode hk hl, Outcome.ok.injEq, compare_lt_iff_lt] at hab
    rw [internalKeyCompare_encode hl hm, Outcome.ok.injEq, compare_lt_iff_lt] at hbc
    rw [internalKeyCompare_encode hk hm, compare_lt_iff_lt.mpr (hab.trans hbc)]

/-! ## Query keys -/

/-- The query key is built, and is greater than the entries of smaller user keys and than the
versions of its own user key with a tag above `q << 8`, and than no other entry. -/
def Separates (q : ℕ) (u : Bytes) : Prop :=
  ∃ key, queryInternalKey q u = .ok key ∧ ∀ k : InternalKey, k.tag < 2 ^ 64 →
    ∃ c, internalKeyCompare key k.encode = .ok c ∧
      (c = .gt ↔ k.userKey < u ∨ (k.userKey = u ∧ q * 256 % 2 ^ 64 < k.tag))

theorem queryInternalKey_eq {q : ℕ} {u : Bytes} (fits : u.length + 12 < 2 ^ 32) :
    queryInternalKey q u = .ok (InternalKey.encode ⟨u, q * 256 % 2 ^ 64⟩) := by
  rw [queryInternalKey, MemRecords.queryRecord, if_pos (Nat.mod_eq_of_lt fits), Outcome.ok_bind,
    List.drop_left' (by simp)]
  rfl

/-- **A query key separates** exactly if its size has 32 bits. -/
theorem separates_iff (q : ℕ) (u : Bytes) : Separates q u ↔ u.length + 12 < 2 ^ 32 := by
  constructor
  · rintro ⟨key, hkey, -⟩
    by_contra hlong
    have hwraps : ¬ (u.length + 12) % 2 ^ 32 = u.length + 12 := fun heq =>
      hlong (heq ▸ Nat.mod_lt _ (Nat.two_pow_pos 32))
    rw [queryInternalKey, MemRecords.queryRecord, if_neg hwraps, Outcome.fault_bind] at hkey
    cases hkey
  · intro fits
    have htag : q * 256 % 2 ^ 64 < 2 ^ 64 := Nat.mod_lt _ (Nat.two_pow_pos 64)
    refine ⟨_, queryInternalKey_eq fits, fun k hk => ⟨_, internalKeyCompare_encode htag hk, ?_⟩⟩
    rw [compare_gt_iff_gt, InternalKey.lt_iff]

/-- **The order that every sorted structure rests on**: the comparator is a strict total order on
byte strings that have room for a tag, and a query key stands before exactly the entries that are
to stand behind it, if its size has 32 bits. -/
theorem internalKeyCompare_orders :
    ComparesTotally internalKeyCompare ∧ ∀ q u, Separates q u ↔ u.length + 12 < 2 ^ 32 :=
  ⟨comparesTotally_internalKeyCompare, separates_iff⟩

/-- A prefix, a later version, and a query between two versions. -/
theorem internalKeyCompare_orders_three :
    internalKeyCompare (InternalKey.encode ⟨[1], 9⟩) (InternalKey.encode ⟨[1, 0], 2 ^ 64 - 1⟩) = .ok .lt ∧
      internalKeyCompare (InternalKey.encode ⟨[1], 9⟩) (InternalKey.encode ⟨[1], 8⟩) = .ok .lt ∧
      Separates 5 [1] :=
  ⟨internalKeyCompare_orders.1.trans _ (InternalKey.encode ⟨[1], 3⟩) _ (by simp) (by simp) (by simp)
      rfl rfl,
    rfl, (internalKeyCompare_orders.2 5 [1]).mpr (by decide)⟩

/-- A user key of `2 ^ 32 - 12` bytes: the buffer of the query has none, and the key is copied. -/
theorem not_separates_long : ¬ Separates 0 (List.replicate (2 ^ 32 - 12) 0) := by
  rw [separates_iff, List.length_replicate]
  norm_num

/-! ## Shortening a key -/

/-- The value of a byte as a `char`, which is signed. -/
def charValue (b : Byte) : ℤ := if b.val < 128 then b.val else b.val - 256

/-- `c++` on a `char`: the sum is an `int`, and converts back to eight bits. -/
def charIncrement (b : Byte) : Byte := Fin.ofNat 256 ((charValue b + 1) % 256).toNat

/-- The loop of `find_shortest_separator`: the length of the common prefix. -/
def diffIndex : Bytes → Bytes → ℕ
  | a :: as, b :: bs => if a = b then diffIndex as bs + 1 else 0
  | _, _ => 0

/-- `find_shortest_separator_impl(start, limit)`, with its assertion: what is left in `start`. -/
def findShortestSeparator (start limit : Bytes) : Outcome Bytes :=
  let d := diffIndex start limit
  if min start.length limit.length ≤ d then .ok start
  else do
    let diffByte ← Outcome.ofOption start[d]?
    let limitByte ← Outcome.ofOption limit[d]?
    if diffByte.val < 0xff ∧ diffByte.val + 1 < limitByte.val then
      let s := (start.set d (charIncrement diffByte)).take (d + 1)
      if strCompare s limit = .lt then .ok s else .fault
    else .ok start

/-- `find_short_successor_impl(key)`: what is left in `key`.  The test compares `char` and `int`. -/
def findShortSuccessor : Bytes → Bytes
  | [] => []
  | b :: rest => if charValue b ≠ 0xff then [charIncrement b] else b :: findShortSuccessor rest

theorem charIncrement_val (b : Byte) : (charIncrement b).val = (b.val + 1) % 256 := by
  have hb := b.isLt
  rw [charIncrement, Fin.val_ofNat, charValue]
  split <;> omega

/-- **No `char` is `0xff`.** -/
theorem charValue_ne (b : Byte) : charValue b ≠ 0xff := by
  have hb := b.isLt
  rw [charValue]
  split <;> omega

/-- How two keys part: one is a prefix of the other, or they differ at the index that is found. -/
theorem diffIndex_cases (s l : Bytes) :
    min s.length l.length = diffIndex s l ∨
      ∃ p a as b bs, s = p ++ a :: as ∧ l = p ++ b :: bs ∧ a ≠ b ∧ diffIndex s l = p.length := by
  induction s generalizing l with
  | nil => exact .inl (by simp [diffIndex])
  | cons x s ih =>
      cases l with
      | nil => exact .inl (by simp [diffIndex])
      | cons y l =>
          by_cases hxy : x = y
          · subst hxy
            have hnext : diffIndex (x :: s) (x :: l) = diffIndex s l + 1 := by rw [diffIndex, if_pos rfl]
            rcases ih l with hmin | ⟨p, a, as, b, bs, rfl, rfl, hne, hlength⟩
            · refine .inl ?_
              rw [hnext, ← hmin, List.length_cons, List.length_cons, Nat.succ_min_succ]
            · exact .inr ⟨x :: p, a, as, b, bs, rfl, rfl, hne, by rw [hnext, hlength]; rfl⟩
          · refine .inr ⟨[], x, s, y, l, rfl, rfl, hxy, ?_⟩
            rw [diffIndex, if_neg hxy]
            rfl

/-- Of two keys that part, the one with the lower byte comes first. -/
theorem lt_of_part {p as bs : Bytes} {a b : Byte} (h : a < b) : p ++ a :: as < p ++ b :: bs :=
  List.append_left_lt (List.cons_lt_cons_iff.mpr (.inl h))

/-- What `find_shortest_separator` is for. -/
def SeparatorBetween (start limit : Bytes) : Prop :=
  ∃ s, findShortestSeparator start limit = .ok s ∧ start ≤ s ∧ s < limit ∧ s.length ≤ start.length

/-- What `find_short_successor` is for. -/
def SuccessorAbove (key : Bytes) : Prop :=
  key ≤ findShortSuccessor key ∧ (findShortSuccessor key).length ≤ key.length

/-- **The separator** lies between the two keys: the byte where they part is incremented only if
that stays below the byte of the limit. -/
theorem separatorBetween {start limit : Bytes} (h : start < limit) : SeparatorBetween start limit := by
  have hstays : findShortestSeparator start limit = .ok start → SeparatorBetween start limit :=
    fun heq => ⟨start, heq, le_rfl, h, le_rfl⟩
  rcases diffIndex_cases start limit with hmin | ⟨p, a, as, b, bs, rfl, rfl, hne, hlength⟩
  · exact hstays (if_pos hmin.le)
  · have hinside : ¬ min (p ++ a :: as).length (p ++ b :: bs).length ≤ p.length := by
      simp
    have hbytes : (p ++ a :: as)[p.length]? = some a ∧ (p ++ b :: bs)[p.length]? = some b := by
      simp
    rw [findShortestSeparator, hlength] at hstays
    simp only [if_neg hinside, hbytes, Outcome.ofOption_some, Outcome.ok_bind] at hstays
    by_cases hroom : a.val < 0xff ∧ a.val + 1 < b.val
    · have hnext : (charIncrement a).val = a.val + 1 := by
        rw [charIncrement_val]
        omega
      have hset : ((p ++ a :: as).set p.length (charIncrement a)).take (p.length + 1)
          = p ++ [charIncrement a] := by
        simp [List.take_append]
      have hbelow : p ++ [charIncrement a] < p ++ b :: bs :=
        lt_of_part (Fin.lt_def.mpr (by omega))
      have habove : p ++ a :: as < p ++ [charIncrement a] :=
        lt_of_part (Fin.lt_def.mpr (by omega))
      refine ⟨p ++ [charIncrement a], ?_, habove.le, hbelow, by simp⟩
      rw [findShortestSeparator, hlength]
      simp only [if_neg hinside, hbytes, Outcome.ofOption_some, Outcome.ok_bind, if_pos hroom, hset,
        if_pos (strCompare_eq_lt.mpr hbelow)]
    · exact hstays (if_neg hroom)

/-- The loop of `find_short_successor` ends in its first round. -/
theorem findShortSuccessor_cons (b : Byte) (rest : Bytes) :
    findShortSuccessor (b :: rest) = [charIncrement b] := if_pos (charValue_ne b)

/-- **The successor** is above the key exactly if the key does not begin with `0xff`. -/
theorem successorAbove_iff (key : Bytes) : SuccessorAbove key ↔ key.head? ≠ some 0xff := by
  cases key with
  | nil => simp [SuccessorAbove, findShortSuccessor]
  | cons b rest =>
      have hnext := charIncrement_val b
      rw [SuccessorAbove, findShortSuccessor_cons, List.head?_cons]
      by_cases hb : b = 0xff
      · subst hb
        have hbelow : [charIncrement 0xff] < 0xff :: rest :=
          lt_of_part (p := []) (Fin.lt_def.mpr (by rw [hnext]; decide))
        simpa using hbelow
      · have hlt : b.val < 0xff := by
          have hne : b.val ≠ 0xff := fun heq => hb (Fin.ext heq)
          have := b.isLt
          omega
        have habove : b :: rest < [charIncrement b] :=
          lt_of_part (p := []) (Fin.lt_def.mpr (by omega))
        simpa [hb] using habove.le

/-- **Shortening a key.**  The separator of two keys in order lies between them and is no longer than
the first.  The successor of a key is no longer than the key, and lies at or above it exactly if the
key is empty or does not begin with `0xff`. -/
theorem keyShortening_iff (start limit key : Bytes) :
    (start < limit → SeparatorBetween start limit) ∧
      (SuccessorAbove key ↔ key.head? ≠ some 0xff) :=
  ⟨separatorBetween, successorAbove_iff key⟩

/-- A byte that becomes negative as a `char`, and keys that part at bytes with room between. -/
theorem keyShortening_high : SeparatorBetween [1, 0x7f, 3] [1, 0xff] ∧ SuccessorAbove [0x7f, 2] :=
  ⟨(keyShortening_iff _ _ [0x7f, 2]).1 (by decide), (keyShortening_iff [] [] _).2.mpr (by decide)⟩

/-- The key `ff` becomes the key `00`. -/
theorem not_successorAbove : ¬ SuccessorAbove [0xff] := by
  rw [successorAbove_iff]
  decide

end Lsmkv
