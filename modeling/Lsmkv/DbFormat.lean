import Lsmkv.Lib.FixedCode
import Mathlib.Data.Prod.Lex

/-!
# Keys, statuses and comparators

An internal key is a user key followed by an eight-byte little-endian tag
`seq << 8 | type`.  Every table, every memtable and every level is ordered by
`InternalKeyComparator`: user keys ascending by unsigned bytes, then tags
descending, so that the newest version of a user key comes first.

`InternalKey` is the parsed form (`InternalKey.encode` / `InternalKey.decode`
are the byte form).  The comparator is translated as the source computes it
(`InternalKey.compareImpl`) and shown to be the comparison of a linear order, so
that all later arguments about sorted tables are arguments about `<`.

The sequence number of a tag is kept as a natural number; the byte form keeps
the low 64 bits of the tag, as `EncodeFixed64` does.
-/

namespace Lsmkv

open ByteCode

/-! ## Statuses -/

/-- The status codes of `utils/status.h`.  The message texts are not modelled:
no function of the store reads them. -/
inductive Code
  | kOk
  | kNotFound
  | kCorruption
  | kNotSupported
  | kInvalidArgument
  | kIOError
  | kBGError
  | kExpired
  deriving DecidableEq, Repr

/-- The value types of a tag. -/
inductive ValueType
  | kTypeDeletion
  | kTypeValue
  deriving DecidableEq, Repr

/-- The byte a value type is stored as. -/
def ValueType.code : ValueType → ℕ
  | .kTypeDeletion => 0
  | .kTypeValue => 1

/-! ## Byte strings -/

/-- `StrComparator::compare_impl`, the three-way comparison of two slices: the
first differing byte decides, and a proper prefix comes first. -/
def strCompare : Bytes → Bytes → Ordering
  | [], [] => .eq
  | [], _ :: _ => .lt
  | _ :: _, [] => .gt
  | a :: as, b :: bs => (compare a.val b.val).then (strCompare as bs)

theorem strCompare_eq_lt {a b : Bytes} : strCompare a b = .lt ↔ a < b := by
  induction a, b using strCompare.induct with
  | case1 => simp [strCompare]
  | case2 b bs => simp [strCompare]
  | case3 a as => simp [strCompare]
  | case4 a as b bs ih =>
      simp [strCompare, Ordering.then_eq_lt, ih, List.cons_lt_cons_iff,
        compare_lt_iff_lt, Fin.ext_iff]

theorem strCompare_eq_eq {a b : Bytes} : strCompare a b = .eq ↔ a = b := by
  induction a, b using strCompare.induct with
  | case1 => simp [strCompare]
  | case2 b bs => simp [strCompare]
  | case3 a as => simp [strCompare]
  | case4 a as b bs ih => simp [strCompare, Ordering.then_eq_eq, ih, Fin.ext_iff]

theorem strCompare_eq_gt {a b : Bytes} : strCompare a b = .gt ↔ b < a := by
  induction a, b using strCompare.induct with
  | case1 => simp [strCompare]
  | case2 b bs => simp [strCompare]
  | case3 a as => simp [strCompare]
  | case4 a as b bs ih =>
      rw [strCompare, Ordering.then_eq_gt, ih, List.cons_lt_cons_iff,
        compare_gt_iff_gt, compare_eq_iff_eq, Fin.val_fin_lt, Fin.val_inj,
        eq_comm (a := a)]

@[simp] theorem strCompare_self (a : Bytes) : strCompare a a = .eq :=
  strCompare_eq_eq.mpr rfl

/-! ## Internal keys -/

/-- A parsed internal key: the user key and the 64-bit tag `seq << 8 | type`. -/
@[ext] structure InternalKey where
  userKey : Bytes
  tag : ℕ
  deriving DecidableEq, Repr

namespace InternalKey

/-- The tag `WriteImpl` builds: `(last_seq << 8) | type`. -/
def ofWrite (key : Bytes) (seq : ℕ) (type : ValueType) : InternalKey where
  userKey := key
  tag := seq * 256 + type.code

/-- `ExtractSequenceNumber`: the tag shifted right by eight. -/
def seq (k : InternalKey) : ℕ := k.tag / 256

/-- `ExtractValueType`: the low byte of the tag.  Readers only ask whether it is
`kTypeValue`, so every other byte reads as a deletion. -/
def type (k : InternalKey) : ValueType :=
  if k.tag % 256 = 1 then .kTypeValue else .kTypeDeletion

/-- The byte form: user key, then the tag in eight little-endian bytes. -/
def encode (k : InternalKey) : Bytes := k.userKey ++ fixedEncode 8 k.tag

/-- The byte form read back.  `none` is the failed assertion
`internal_key.size() >= 8`. -/
def decode (b : Bytes) : Option InternalKey :=
  if 8 ≤ b.length then
    (fixedDecode 8 (b.drop (b.length - 8))).map fun t => ⟨b.take (b.length - 8), t⟩
  else none

@[simp] theorem ofWrite_userKey (key : Bytes) (seq : ℕ) (type : ValueType) :
    (ofWrite key seq type).userKey = key := rfl

@[simp] theorem seq_ofWrite (key : Bytes) (seq : ℕ) (type : ValueType) :
    (ofWrite key seq type).seq = seq := by
  cases type <;> simp only [ofWrite, InternalKey.seq, ValueType.code] <;> omega

@[simp] theorem type_ofWrite (key : Bytes) (seq : ℕ) (type : ValueType) :
    (ofWrite key seq type).type = type := by
  cases type <;> simp [ofWrite, InternalKey.type, ValueType.code, Nat.add_mod]

@[simp] theorem length_encode (k : InternalKey) :
    k.encode.length = k.userKey.length + 8 := by
  simp [encode]

/-- Decoding undoes encoding on tags of 64 bits. -/
theorem decode_encode (k : InternalKey) (h : k.tag < 2 ^ 64) :
    decode k.encode = some k := by
  have hmod : k.tag % 256 ^ 8 = k.tag := Nat.mod_eq_of_lt (by simpa using h)
  have hlen : k.encode.length - 8 = k.userKey.length := by simp
  rw [decode, if_pos (by simp), hlen, encode, List.drop_left, List.take_left,
    fixedDecode_fixedEncode, hmod, Option.map_some]

/-- The byte form determines a key whose tag has 64 bits. -/
theorem encode_injOn {a b : InternalKey} (ha : a.tag < 2 ^ 64) (hb : b.tag < 2 ^ 64)
    (h : a.encode = b.encode) : a = b := by
  have hdec := congrArg decode h
  rw [decode_encode a ha, decode_encode b hb] at hdec
  exact Option.some.inj hdec

/-! ## The comparator -/

/-- `InternalKeyComparator::compare_impl`: user keys by `StrComparator`, then the
tags by `NumComparator`, negated. -/
def compareImpl (a b : InternalKey) : Ordering :=
  (strCompare a.userKey b.userKey).then (compare a.tag b.tag).swap

/-- Sort key of the internal key order: user key ascending, tag descending. -/
def sortKey (k : InternalKey) : Lex (Bytes × ℕᵒᵈ) :=
  toLex (k.userKey, OrderDual.toDual k.tag)

theorem sortKey_injective : Function.Injective sortKey := by
  intro a b h
  have hpair := congrArg ofLex h
  simp only [sortKey, ofLex_toLex, Prod.mk.injEq] at hpair
  exact InternalKey.ext hpair.1 (OrderDual.toDual_inj.mp hpair.2)

/-- The internal key order: user key ascending, then tag descending. -/
instance : LinearOrder InternalKey := LinearOrder.lift' sortKey sortKey_injective

theorem lt_iff {a b : InternalKey} :
    a < b ↔ a.userKey < b.userKey ∨ (a.userKey = b.userKey ∧ b.tag < a.tag) := by
  change sortKey a < sortKey b ↔ _
  simp [sortKey, Prod.Lex.toLex_lt_toLex]

theorem le_iff {a b : InternalKey} :
    a ≤ b ↔ a.userKey < b.userKey ∨ (a.userKey = b.userKey ∧ b.tag ≤ a.tag) := by
  change sortKey a ≤ sortKey b ↔ _
  simp [sortKey, Prod.Lex.toLex_le_toLex]

/-- **The comparator is the comparison of the internal key order.** -/
theorem compareImpl_eq_compare (a b : InternalKey) : compareImpl a b = compare a b := by
  rcases lt_trichotomy a b with hlt | rfl | hgt
  · rw [compare_lt_iff_lt.mpr hlt]
    rcases lt_iff.mp hlt with hu | ⟨hu, ht⟩
    · simp [compareImpl, strCompare_eq_lt.mpr hu]
    · simp [compareImpl, hu, compare_gt_iff_gt.mpr ht]
  · simp [compareImpl]
  · rw [compare_gt_iff_gt.mpr hgt]
    rcases lt_iff.mp hgt with hu | ⟨hu, ht⟩
    · simp [compareImpl, strCompare_eq_gt.mpr hu]
    · simp [compareImpl, hu, compare_lt_iff_lt.mpr ht]

theorem userKey_le_of_le {a b : InternalKey} (h : a ≤ b) : a.userKey ≤ b.userKey := by
  rcases le_iff.mp h with hu | ⟨hu, -⟩
  · exact hu.le
  · exact hu.le

theorem lt_of_userKey_lt {a b : InternalKey} (h : a.userKey < b.userKey) : a < b :=
  lt_iff.mpr (.inl h)

/-- Between two versions of one user key lie only versions of that user key. -/
theorem userKey_eq_of_between {a b c : InternalKey} (hab : a ≤ b) (hbc : b ≤ c)
    (hac : a.userKey = c.userKey) : b.userKey = a.userKey :=
  le_antisymm (hac ▸ userKey_le_of_le hbc) (userKey_le_of_le hab)

/-- Of two versions of one user key the earlier one in the order is the newer. -/
theorem seq_le_of_le {a b : InternalKey} (h : a ≤ b) (hu : a.userKey = b.userKey) :
    b.seq ≤ a.seq := by
  rcases le_iff.mp h with hlt | ⟨-, ht⟩
  · exact absurd hu hlt.ne
  · exact Nat.div_le_div_right ht

theorem le_of_seq_lt {a b : InternalKey} (hu : a.userKey = b.userKey)
    (h : b.seq < a.seq) : a < b :=
  lt_iff.mpr (.inr ⟨hu, lt_of_not_ge fun ht => absurd (Nat.div_le_div_right ht) (not_le.mpr h)⟩)

end InternalKey

/-! ## Query keys -/

/-- The internal key of a `QueryKey`: the user key with tag `seq << 8`, the type
byte left zero. -/
def queryKey (seq : ℕ) (key : Bytes) : InternalKey := ⟨key, seq * 256⟩

/-- A `QueryKey` can hold the user key: its `len_` has 32 bits. -/
def QueryFits (key : Bytes) : Prop := key.length + 12 < 2 ^ 32

instance (key : Bytes) : Decidable (QueryFits key) := inferInstanceAs (Decidable (_ < _))

@[simp] theorem queryKey_userKey (seq : ℕ) (key : Bytes) :
    (queryKey seq key).userKey = key := rfl

@[simp] theorem queryKey_seq (seq : ℕ) (key : Bytes) : (queryKey seq key).seq = seq := by
  simp [queryKey, InternalKey.seq]

/-- **What a query key separates.**  When its sequence number is above every
stored one, a query key lies before a stored key exactly when the stored user
key is not smaller: all versions of the queried user key come after it, and
nothing else of that user key comes before. -/
theorem queryKey_le_iff {q : ℕ} {u : Bytes} {k : InternalKey} (h : k.seq < q) :
    queryKey q u ≤ k ↔ u ≤ k.userKey := by
  have htag : k.tag < q * 256 := by
    have := Nat.div_add_mod k.tag 256
    have hmod := Nat.mod_lt k.tag (show 0 < 256 by norm_num)
    simp only [InternalKey.seq] at h
    omega
  rw [InternalKey.le_iff]
  constructor
  · rintro (hu | ⟨hu, -⟩)
    · exact hu.le
    · exact hu.le
  · intro hu
    rcases hu.lt_or_eq with hlt | heq
    · exact .inl hlt
    · exact .inr ⟨heq, htag.le⟩

end Lsmkv
