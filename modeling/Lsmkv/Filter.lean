import Lsmkv.DbFormat
import Mathlib.Data.Nat.Bitwise

/-!
# The filter block

A table carries one Bloom filter over its user keys (`utils/bloomfilter.h`, with the
hash of `utils/MurmurHash3.h`, and `FilterBlockBuilder` of `src/include/builder.h`).

The 128 bits of the hash are used as four 32-bit numbers; each sets one bit of the
filter.  Keys are collected and hashed into the filter whenever a data block is
flushed, so the filter grows during the construction of a table.  A filter answers
`keyMayMatch` for every key that was ever added to it
(`keyMayMatch_of_mem_createFilter`), whatever else was added before and after: this
is all that readers rely on.  The builder remembers where the collected keys begin and how long
they are in 32 bits, so it hashes keys of 2^32 bytes and more wrongly.
-/

namespace Lsmkv

open ByteCode

/-! ## The hash -/

namespace MurmurHash3

/-- `rotl64`. -/
def rotl64 (x r : UInt64) : UInt64 := (x <<< r) ||| (x >>> (64 - r))

/-- `fmix64`. -/
def fmix64 (k : UInt64) : UInt64 :=
  let k := k ^^^ (k >>> 33)
  let k := k * 0xff51afd7ed558ccd
  let k := k ^^^ (k >>> 33)
  let k := k * 0xc4ceb9fe1a85ec53
  k ^^^ (k >>> 33)

/-- The constant `c1`. -/
def c1 : UInt64 := 0x87c37b91114253d5

/-- The constant `c2`. -/
def c2 : UInt64 := 0x4cf5ad432745937f

/-- The mixing of `k1` before it enters `h1`. -/
def mixK1 (k1 : UInt64) : UInt64 := rotl64 (k1 * c1) 31 * c2

/-- The mixing of `k2` before it enters `h2`. -/
def mixK2 (k2 : UInt64) : UInt64 := rotl64 (k2 * c2) 33 * c1

/-- A little-endian word over the bytes that are there; absent bytes count zero.
For eight bytes this is `DecodeFixed64`, for fewer it is the cascade of the tail
switch. -/
def word (b : Bytes) : UInt64 :=
  b.foldr (fun x acc => UInt64.ofNat x.val ||| (acc <<< 8)) 0

/-- The loop over the 16-byte blocks. -/
def body : ℕ → Bytes → UInt64 × UInt64 → UInt64 × UInt64
  | 0, _, h => h
  | nblocks + 1, data, (h1, h2) =>
      let k1 := word (data.take 8)
      let k2 := word ((data.drop 8).take 8)
      let h1 := h1 ^^^ mixK1 k1
      let h1 := (rotl64 h1 27 + h2) * 5 + 0x52dce729
      let h2 := h2 ^^^ mixK2 k2
      let h2 := (rotl64 h2 31 + h1) * 5 + 0x38495ab5
      body nblocks (data.drop 16) (h1, h2)

/-- The switch on `len & 15`: bytes from the ninth on enter `h2`, the first eight
enter `h1`, and a part without bytes changes nothing. -/
def tail (rest : Bytes) : UInt64 × UInt64 → UInt64 × UInt64
  | (h1, h2) =>
      let h2 := if 8 < rest.length then h2 ^^^ mixK2 (word (rest.drop 8)) else h2
      let h1 := if 0 < rest.length then h1 ^^^ mixK1 (word (rest.take 8)) else h1
      (h1, h2)

/-- `MurmurHash3_x64_128`, the output as two 64-bit words. -/
def x64_128 (key : Bytes) (seed : UInt64) : UInt64 × UInt64 :=
  let len := UInt64.ofNat key.length
  let nblocks := key.length / 16
  let (h1, h2) := tail (key.drop (nblocks * 16)) (body nblocks key (seed, seed))
  let h1 := h1 ^^^ len
  let h2 := h2 ^^^ len
  let h1 := h1 + h2
  let h2 := h2 + h1
  let h1 := fmix64 h1
  let h2 := fmix64 h2
  let h1 := h1 + h2
  let h2 := h2 + h1
  (h1, h2)

end MurmurHash3

/-- The four 32-bit numbers of the hash of a key, with seed 1. -/
def filterHash (key : Bytes) : List ℕ :=
  let (h1, h2) := MurmurHash3.x64_128 key 1
  [h1.toNat % 2 ^ 32, h1.toNat / 2 ^ 32, h2.toNat % 2 ^ 32, h2.toNat / 2 ^ 32]

/-! ## Bits of a filter -/

/-- `array[bitpos / 8] |= 1 << (bitpos % 8)`. -/
def setBit (array : Bytes) (bitpos : ℕ) : Bytes :=
  array.modify (bitpos / 8) fun b => Fin.ofNat 256 (b.val ||| 2 ^ (bitpos % 8))

/-- `array[bitpos / 8] & (1 << (bitpos % 8))`, as a test.  Callers keep the
position inside the array. -/
def getBit (array : Bytes) (bitpos : ℕ) : Bool :=
  (array.getD (bitpos / 8) 0).val.testBit (bitpos % 8)

/-- The inner loop of `CreateFilter`: one key, given by its hash numbers. -/
def addHash (hs : List ℕ) (array : Bytes) : Bytes :=
  hs.foldl (fun array h => setBit array (h % (array.length * 8))) array

/-- `CreateFilter(keys, n, dst)`, with `use_double_k` off. -/
def createFilter (keys : List Bytes) (dst : Bytes) : Bytes :=
  keys.foldl (fun array key => addHash (filterHash key) array) dst

/-- `KeyMayMatch(key, bloom_filter)`. -/
def keyMayMatch (key bloomFilter : Bytes) : Bool :=
  if bloomFilter.length < 2 then false
  else (filterHash key).all fun h => getBit bloomFilter (h % (bloomFilter.length * 8))

@[simp] theorem length_setBit (array : Bytes) (p : ℕ) : (setBit array p).length = array.length := by
  simp [setBit]

theorem lor_pow_lt {b p : ℕ} (hb : b < 256) (hp : p < 8) : b ||| 2 ^ p < 256 :=
  Nat.or_lt_two_pow (n := 8) hb (Nat.pow_lt_pow_right (by norm_num) hp)

/-- Setting a bit sets it. -/
theorem getBit_setBit_self {array : Bytes} {p : ℕ} (lt : p < array.length * 8) :
    getBit (setBit array p) p = true := by
  have hidx : p / 8 < array.length := by omega
  have hlor := lor_pow_lt (array.getD (p / 8) 0).isLt (Nat.mod_lt p (by norm_num : 0 < 8))
  simp only [List.getD_eq_getElem?_getD, List.getElem?_eq_getElem hidx, Option.getD_some] at hlor
  simp [getBit, setBit, List.getElem?_eq_getElem hidx, Nat.mod_eq_of_lt hlor, Nat.testBit_or]

/-- Setting a bit clears no other. -/
theorem getBit_setBit {array : Bytes} {p q : ℕ} (h : getBit array q = true) :
    getBit (setBit array p) q = true := by
  by_cases hidx : p / 8 = q / 8
  · by_cases hlt : q / 8 < array.length
    · have hlor := lor_pow_lt (array.getD (q / 8) 0).isLt
        (Nat.mod_lt p (by norm_num : 0 < 8))
      simp only [List.getD_eq_getElem?_getD, List.getElem?_eq_getElem hlt,
        Option.getD_some] at hlor
      simp only [getBit, List.getD_eq_getElem?_getD, List.getElem?_eq_getElem hlt,
        Option.getD_some] at h
      simp [getBit, setBit, hidx, List.getElem?_eq_getElem hlt, Nat.mod_eq_of_lt hlor,
        Nat.testBit_or, h]
    · simp [getBit, List.getElem?_eq_none (not_lt.mp hlt)] at h
  · simpa [getBit, setBit, List.getElem?_modify, hidx] using h

/-! ## No false negatives -/

theorem addHash_cons (h : ℕ) (hs : List ℕ) (array : Bytes) :
    addHash (h :: hs) array = addHash hs (setBit array (h % (array.length * 8))) := rfl

@[simp] theorem length_addHash (hs : List ℕ) (array : Bytes) :
    (addHash hs array).length = array.length := by
  induction hs generalizing array with
  | nil => rfl
  | cons h hs ih => rw [addHash_cons, ih, length_setBit]

theorem getBit_addHash {hs : List ℕ} {array : Bytes} {q : ℕ} (h : getBit array q = true) :
    getBit (addHash hs array) q = true := by
  induction hs generalizing array with
  | nil => exact h
  | cons x hs ih =>
      rw [addHash_cons]
      exact ih (getBit_setBit h)

theorem getBit_addHash_of_mem {hs : List ℕ} {array : Bytes} {h : ℕ} (mem : h ∈ hs)
    (ne : array ≠ []) : getBit (addHash hs array) (h % (array.length * 8)) = true := by
  have hpos : 0 < array.length * 8 := Nat.mul_pos (List.length_pos_iff.mpr ne) (by norm_num)
  induction hs generalizing array with
  | nil => simp at mem
  | cons x hs ih =>
      rw [addHash_cons]
      rcases List.mem_cons.mp mem with rfl | mem
      · exact getBit_addHash (getBit_setBit_self (Nat.mod_lt _ hpos))
      · have hne : setBit array (x % (array.length * 8)) ≠ [] := by
          rw [← List.length_pos_iff, length_setBit]
          exact List.length_pos_iff.mpr ne
        have := ih mem hne (by simpa using hpos)
        rwa [length_setBit] at this

theorem createFilter_cons (key : Bytes) (keys : List Bytes) (dst : Bytes) :
    createFilter (key :: keys) dst = createFilter keys (addHash (filterHash key) dst) :=
  List.foldl_cons ..

@[simp] theorem length_createFilter (keys : List Bytes) (dst : Bytes) :
    (createFilter keys dst).length = dst.length := by
  induction keys generalizing dst with
  | nil => rfl
  | cons key keys ih => rw [createFilter_cons, ih, length_addHash]

theorem getBit_createFilter {keys : List Bytes} {dst : Bytes} {q : ℕ}
    (h : getBit dst q = true) : getBit (createFilter keys dst) q = true := by
  induction keys generalizing dst with
  | nil => exact h
  | cons key keys ih =>
      rw [createFilter_cons]
      exact ih (getBit_addHash h)

/-- A filter matches what it matched before more keys were added. -/
theorem keyMayMatch_createFilter {keys : List Bytes} {dst key : Bytes}
    (h : keyMayMatch key dst = true) : keyMayMatch key (createFilter keys dst) = true := by
  simp only [keyMayMatch, length_createFilter] at h ⊢
  split at h
  · simp at h
  · rename_i hlen
    rw [if_neg hlen]
    simp only [List.all_eq_true] at h ⊢
    exact fun x hx => getBit_createFilter (h x hx)

/-- **A filter matches every key that was added to it.** -/
theorem keyMayMatch_of_mem_createFilter {keys : List Bytes} {dst key : Bytes}
    (mem : key ∈ keys) (two : 2 ≤ dst.length) :
    keyMayMatch key (createFilter keys dst) = true := by
  have hne : dst ≠ [] := List.length_pos_iff.mp (by omega)
  simp only [keyMayMatch, length_createFilter, if_neg (not_lt.mpr two), List.all_eq_true]
  intro h hh
  induction keys generalizing dst with
  | nil => simp at mem
  | cons k keys ih =>
      rw [createFilter_cons]
      rcases List.mem_cons.mp mem with rfl | mem
      · exact getBit_createFilter (getBit_addHash_of_mem hh hne)
      · have hlen : (addHash (filterHash k) dst).length = dst.length := length_addHash _ _
        have hpos : addHash (filterHash k) dst ≠ [] := by
          rw [← List.length_pos_iff, hlen]
          omega
        have := ih mem (hlen ▸ two) hpos
        rwa [hlen] at this

/-! ## The builder -/

/-- `Option::bloom_size_`. -/
def bloomSize : ℕ := 8192

/-- `FilterBlockBuilder`: the bytes of the keys of the current data block with the offset and the
length of each, both in 32 bits, and the filter over the blocks before it. -/
structure FilterBlockBuilder where
  keyBuf : Bytes
  keys : List (ℕ × ℕ)
  buffer : Bytes
  deriving DecidableEq, Repr

namespace FilterBlockBuilder

/-- A new builder, with a zeroed filter. -/
def new : FilterBlockBuilder := ⟨[], [], List.replicate bloomSize 0⟩

/-- `AddKey`. -/
def addKey (f : FilterBlockBuilder) (key : Bytes) : FilterBlockBuilder :=
  { f with
    keyBuf := f.keyBuf ++ key
    keys := f.keys ++ [(f.keyBuf.length % 2 ^ 32, key.length % 2 ^ 32)] }

/-- The keys that `Flush` finds in the buffer. -/
def slices (f : FilterBlockBuilder) : List Bytes :=
  f.keys.map fun key => (f.keyBuf.drop key.1).take key.2

/-- `Flush`: hash the collected keys into the filter. -/
def flush (f : FilterBlockBuilder) : FilterBlockBuilder :=
  if f.keys.isEmpty then f else ⟨[], [], createFilter f.slices f.buffer⟩

/-- `Finish`. -/
def finish (f : FilterBlockBuilder) : Bytes := f.flush.buffer

/-- The collected keys lie in the buffer. -/
structure Inside (f : FilterBlockBuilder) : Prop where
  ends : ∀ key ∈ f.keys, key.1 + key.2 ≤ f.keyBuf.length
  empty : f.keys = [] → f.keyBuf = []

theorem inside_new : new.Inside := ⟨fun _ h => absurd h List.not_mem_nil, fun _ => rfl⟩

theorem Inside.addKey {f : FilterBlockBuilder} (h : f.Inside) (key : Bytes) :
    (f.addKey key).Inside := by
  refine ⟨fun k hk => ?_, fun hnil => absurd hnil (by simp [FilterBlockBuilder.addKey])⟩
  have hlength : (f.addKey key).keyBuf.length = f.keyBuf.length + key.length :=
    List.length_append
  rw [hlength]
  rcases List.mem_append.mp hk with hk | hk
  · exact (h.ends k hk).trans (Nat.le_add_right _ _)
  · rw [List.mem_singleton.mp hk]
    exact Nat.add_le_add (Nat.mod_le _ _) (Nat.mod_le _ _)

/-- **`AddKey` keeps what is collected**, and adds the key if its place and its length are 32-bit
numbers. -/
theorem Inside.slices_addKey {f : FilterBlockBuilder} (h : f.Inside) (key : Bytes) :
    ∃ slice, (f.addKey key).slices = f.slices ++ [slice] ∧
      (f.keyBuf.length < 2 ^ 32 → key.length < 2 ^ 32 → slice = key) := by
  refine ⟨((f.keyBuf ++ key).drop (f.keyBuf.length % 2 ^ 32)).take (key.length % 2 ^ 32), ?_,
    fun hroom hshort => ?_⟩
  · have hold : ∀ k ∈ f.keys, ((f.keyBuf ++ key).drop k.1).take k.2 = (f.keyBuf.drop k.1).take k.2 := by
      intro k hk
      have hend := h.ends k hk
      rw [List.drop_append_of_le_length (by omega), List.take_append_of_le_length]
      rw [List.length_drop]
      omega
    simp only [slices, FilterBlockBuilder.addKey, List.map_append, List.map_congr_left hold,
      List.map_cons, List.map_nil]
  · rw [Nat.mod_eq_of_lt hroom, Nat.mod_eq_of_lt hshort, List.drop_left, List.take_length]

theorem slices_of_empty {f : FilterBlockBuilder} (empty : f.keys.isEmpty = true) : f.slices = [] := by
  rw [slices, List.isEmpty_iff.mp empty, List.map_nil]

theorem keys_flush (f : FilterBlockBuilder) : f.flush.keys = [] := by
  unfold FilterBlockBuilder.flush
  split
  · simp_all
  · rfl

theorem slices_flush (f : FilterBlockBuilder) : f.flush.slices = [] := by
  rw [slices, keys_flush, List.map_nil]

theorem finish_flush (f : FilterBlockBuilder) : f.flush.finish = f.finish := by
  rw [finish, FilterBlockBuilder.flush, keys_flush]
  rfl

theorem Inside.flush {f : FilterBlockBuilder} (h : f.Inside) :
    f.flush.Inside ∧ f.flush.keyBuf = [] := by
  unfold FilterBlockBuilder.flush
  split
  · rename_i hempty
    exact ⟨h, h.empty (List.isEmpty_iff.mp hempty)⟩
  · exact ⟨⟨fun _ hk => absurd hk List.not_mem_nil, fun _ => rfl⟩, rfl⟩

/-- The keys a builder stands for: the filter has its usual size, and a key it was
given, if its length is a 32-bit number, is either still waiting or matched by the filter. -/
structure Covers (f : FilterBlockBuilder) (keys : List Bytes) : Prop extends f.Inside where
  length_buffer : f.buffer.length = bloomSize
  mem : ∀ key ∈ keys, key.length < 2 ^ 32 → key ∈ f.slices ∨ keyMayMatch key f.buffer = true

theorem covers_new : new.Covers [] where
  toInside := inside_new
  length_buffer := List.length_replicate
  mem _ hkey := absurd hkey List.not_mem_nil

theorem Covers.addKey {f : FilterBlockBuilder} {keys : List Bytes} (h : f.Covers keys)
    (room : f.keyBuf.length < 2 ^ 32) (key : Bytes) : (f.addKey key).Covers (keys ++ [key]) where
  toInside := h.toInside.addKey key
  length_buffer := h.length_buffer
  mem k hk short := by
    obtain ⟨slice, hslices, hslice⟩ := h.toInside.slices_addKey key
    rw [hslices]
    rcases List.mem_append.mp hk with hk | hk
    · exact (h.mem k hk short).imp_left fun hwait => List.mem_append_left _ hwait
    · obtain rfl := List.mem_singleton.mp hk
      exact .inl (List.mem_append_right _ (List.mem_singleton.mpr (hslice room short).symm))

theorem Covers.flush {f : FilterBlockBuilder} {keys : List Bytes} (h : f.Covers keys) :
    f.flush.Covers keys := by
  refine ⟨h.toInside.flush.1, ?_, fun key hkey short => .inr ?_⟩
  · unfold FilterBlockBuilder.flush
    split
    · exact h.length_buffer
    · simp [h.length_buffer]
  · unfold FilterBlockBuilder.flush
    split
    · rename_i hempty
      rcases h.mem key hkey short with hwait | hmatch
      · simp [slices_of_empty hempty] at hwait
      · exact hmatch
    · rcases h.mem key hkey short with hwait | hmatch
      · exact keyMayMatch_of_mem_createFilter hwait (by simp [h.length_buffer, bloomSize])
      · exact keyMayMatch_createFilter hmatch

/-- The finished filter matches every key the builder was given. -/
theorem Covers.finish {f : FilterBlockBuilder} {keys : List Bytes} (h : f.Covers keys)
    {key : Bytes} (mem : key ∈ keys) (short : key.length < 2 ^ 32) :
    keyMayMatch key f.finish = true := by
  rcases h.flush.mem key mem short with hwait | hmatch
  · simp [slices_flush] at hwait
  · exact hmatch

theorem Covers.length_finish {f : FilterBlockBuilder} {keys : List Bytes} (h : f.Covers keys) :
    f.finish.length = bloomSize := h.flush.length_buffer

end FilterBlockBuilder

end Lsmkv
