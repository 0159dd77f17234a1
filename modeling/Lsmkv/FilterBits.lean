import Lsmkv.SSTReader

/-!
# The bits of a filter

`utils/bloomfilter.h` once more, as the machine computes it.  A filter is an array of `char`, which
is signed: setting and testing a bit promote a byte to `int`, with its sign, and cut it back
(`orChar`, `testChar`).  The four numbers of a hash have 32 bits, and so has the sum of two of
them.  There are two variants that write a filter, which differ in the number of bits per number
and in where the size comes from, and one reader.

The hash is a parameter, so nothing is used of MurmurHash3 but that it is a function of the key.
Whatever was added to a filter is matched by it, in any order of additions and flushes
(`keyMayMatch_of_added`); in a table this is the filter block of the file that `Finish` writes.
-/

namespace Lsmkv

open ByteCode

/-! ## Signed characters -/

/-- A `char` as an `int`. -/
def promote (b : Byte) : BitVec 32 := (BitVec.ofNat 8 b.val).signExtend 32

/-- `b |= static_cast<char>(1 << k)`. -/
def orChar (b : Byte) (k : ℕ) : Byte :=
  Fin.ofNat 256 (BitVec.setWidth 8
    (promote b ||| ((1#32 <<< k).setWidth 8).signExtend 32)).toNat

/-- `(b & (1 << k)) != 0`. -/
def testChar (b : Byte) (k : ℕ) : Bool := (promote b &&& (1#32 <<< k)) != 0#32

/-- The sign does not matter to a bit of the byte that is set. -/
theorem orChar_eq (b : Byte) {k : ℕ} (lt : k < 8) :
    orChar b k = Fin.ofNat 256 (b.val ||| 2 ^ k) := by
  have hcut : ∀ x y : BitVec 8, (x.signExtend 32 ||| y.signExtend 32).setWidth 8 = x ||| y := by
    intro x y
    ext i hi
    simp [BitVec.getElem_signExtend, hi, show i < 32 by omega]
  have hpow : 2 ^ k < 2 ^ 8 := Nat.pow_lt_pow_right (by norm_num) lt
  have hone : ((1#32 <<< k).setWidth 8).toNat = 2 ^ k := by
    rw [BitVec.toNat_setWidth, BitVec.toNat_shiftLeft, Nat.shiftLeft_eq]
    simp only [BitVec.toNat_ofNat]
    omega
  rw [orChar, promote, hcut, BitVec.toNat_or, hone, BitVec.toNat_ofNat,
    Nat.mod_eq_of_lt (show b.val < 2 ^ 8 from b.isLt)]

/-- Nor does it to a bit that is tested. -/
theorem testChar_eq (b : Byte) {k : ℕ} (lt : k < 8) : testChar b k = b.val.testBit k := by
  have hbit : (promote b).getLsbD k = b.val.testBit k := by
    rw [promote, BitVec.getLsbD_signExtend]
    simp [lt, show k < 32 by omega]
  have hne : BitVec.twoPow 32 k ≠ 0#32 := by
    intro h
    have := congrArg BitVec.toNat h
    rw [BitVec.toNat_twoPow_of_lt (by omega)] at this
    simp at this
  rw [testChar, ← BitVec.twoPow_eq, BitVec.and_twoPow, hbit]
  cases b.val.testBit k with
  | false => rfl
  | true => simpa using hne

/-! ## Writers and readers -/

/-- `array[bitpos / 8] |= static_cast<char>(1 << (bitpos % 8))`. -/
def orBit (array : Bytes) (bitpos : ℕ) : Bytes :=
  array.modify (bitpos / 8) fun b => orChar b (bitpos % 8)

/-- `(array[bitpos / 8] & (1 << (bitpos % 8))) != 0`. -/
def bitIsSet (array : Bytes) (bitpos : ℕ) : Bool :=
  testChar (array.getD (bitpos / 8) 0) (bitpos % 8)

theorem orBit_eq (array : Bytes) (bitpos : ℕ) : orBit array bitpos = setBit array bitpos := by
  unfold orBit setBit
  congr 1
  funext b
  exact orChar_eq b (Nat.mod_lt _ (by norm_num))

theorem bitIsSet_eq (array : Bytes) (bitpos : ℕ) : bitIsSet array bitpos = getBit array bitpos :=
  testChar_eq _ (Nat.mod_lt _ (by norm_num))

/-- `(h >> 17) | (h << 15)`. -/
def delta (h : UInt32) : UInt32 := (h >>> 17) ||| (h <<< 15)

section Hash

variable (hash : Bytes → List UInt32)

/-- `CreateFilter(keys, n, dst)`, with `use_double_k` off. -/
def createFilterBy (keys : List Bytes) (dst : Bytes) : Bytes :=
  let filterSize := dst.length * 8
  keys.foldl (fun array key =>
    (hash key).foldl (fun array h => orBit array (h.toNat % filterSize)) array) dst

/-- `CreateFilter(keys, n, 1, new_bloom_size, dst)` on an empty `dst`: two bits for each number. -/
def createFilterSized (keys : List Bytes) (newBloomSize : ℕ) : Bytes :=
  let filterSize := newBloomSize * 8
  keys.foldl (fun array key => (hash key).foldl (fun array h =>
    let array := orBit array (h.toNat % filterSize)
    orBit array ((h + delta h).toNat % filterSize)) array) (List.replicate newBloomSize 0)

/-- `KeyMayMatch(key, bloom_filter)`, with `use_double_k` off. -/
def mayMatch (key bloomFilter : Bytes) : Bool :=
  if bloomFilter.length < 2 then false
  else (hash key).all fun h => bitIsSet bloomFilter (h.toNat % (bloomFilter.length * 8))

/-- The numbers of a key, one bit each. -/
def singleProbes (key : Bytes) : List ℕ := (hash key).map UInt32.toNat

/-- The numbers of a key, two bits each. -/
def doubleProbes (key : Bytes) : List ℕ :=
  (hash key).flatMap fun h => [h.toNat, (h + delta h).toNat]

theorem singleProbes_subset (key : Bytes) : singleProbes hash key ⊆ doubleProbes hash key := by
  intro n hn
  obtain ⟨h, hh, rfl⟩ := List.mem_map.mp hn
  exact List.mem_flatMap.mpr ⟨h, hh, by simp⟩

/-- One key, one bit for each number. -/
theorem foldl_orBit_single (array : Bytes) (hs : List UInt32) {filterSize : ℕ}
    (size : filterSize = array.length * 8) :
    hs.foldl (fun array h => orBit array (h.toNat % filterSize)) array
      = addHash (hs.map UInt32.toNat) array := by
  induction hs generalizing array with
  | nil => rfl
  | cons h hs ih =>
      rw [List.foldl_cons, orBit_eq, ih _ (by rw [length_setBit, size]), List.map_cons,
        addHash_cons, size]

/-- One key, two bits for each number. -/
theorem foldl_orBit_double (array : Bytes) (hs : List UInt32) {filterSize : ℕ}
    (size : filterSize = array.length * 8) :
    hs.foldl (fun array h => orBit (orBit array (h.toNat % filterSize))
        ((h + delta h).toNat % filterSize)) array
      = addHash (hs.flatMap fun h => [h.toNat, (h + delta h).toNat]) array := by
  induction hs generalizing array with
  | nil => rfl
  | cons h hs ih =>
      rw [List.foldl_cons, orBit_eq, orBit_eq, ih _ (by rw [length_setBit, length_setBit, size]),
        List.flatMap_cons, List.cons_append, List.cons_append, addHash_cons, addHash_cons,
        List.nil_append, length_setBit, size]

/-- A filter over keys that set the bits of their probes. -/
def probeAll (probes : Bytes → List ℕ) (keys : List Bytes) (array : Bytes) : Bytes :=
  keys.foldl (fun array key => addHash (probes key) array) array

theorem createFilterBy_eq (keys : List Bytes) (dst : Bytes) :
    createFilterBy hash keys dst = probeAll (singleProbes hash) keys dst := by
  have hall : ∀ array : Bytes, array.length = dst.length →
      keys.foldl (fun array key => (hash key).foldl
        (fun array h => orBit array (h.toNat % (dst.length * 8))) array) array
        = probeAll (singleProbes hash) keys array := by
    induction keys with
    | nil => exact fun _ _ => rfl
    | cons key keys ih =>
        intro array hlen
        rw [List.foldl_cons, foldl_orBit_single array _ (by rw [hlen])]
        exact ih _ (by rw [length_addHash, hlen])
  exact hall dst rfl

theorem createFilterSized_eq (keys : List Bytes) (newBloomSize : ℕ) :
    createFilterSized hash keys newBloomSize
      = probeAll (doubleProbes hash) keys (List.replicate newBloomSize 0) := by
  have hall : ∀ array : Bytes, array.length = newBloomSize →
      keys.foldl (fun array key => (hash key).foldl (fun array h =>
        orBit (orBit array (h.toNat % (newBloomSize * 8)))
          ((h + delta h).toNat % (newBloomSize * 8))) array) array
        = probeAll (doubleProbes hash) keys array := by
    induction keys with
    | nil => exact fun _ _ => rfl
    | cons key keys ih =>
        intro array hlen
        rw [List.foldl_cons, foldl_orBit_double array _ (by rw [hlen])]
        exact ih _ (by rw [length_addHash, hlen])
  exact hall _ List.length_replicate

end Hash

/-! ## No false negatives -/

section Probes

variable {hash : Bytes → List UInt32} {probes : Bytes → List ℕ} {keys : List Bytes}
  {array key : Bytes}

theorem probeAll_cons (k : Bytes) :
    probeAll probes (k :: keys) array = probeAll probes keys (addHash (probes k) array) :=
  List.foldl_cons ..

@[simp] theorem length_probeAll : (probeAll probes keys array).length = array.length := by
  induction keys generalizing array with
  | nil => rfl
  | cons k keys ih => rw [probeAll_cons, ih, length_addHash]

theorem getBit_probeAll {q : ℕ} (h : getBit array q = true) :
    getBit (probeAll probes keys array) q = true := by
  induction keys generalizing array with
  | nil => exact h
  | cons k keys ih =>
      rw [probeAll_cons]
      exact ih (getBit_addHash h)

theorem mayMatch_iff (two : 2 ≤ array.length) : mayMatch hash key array = true ↔
    ∀ n ∈ singleProbes hash key, getBit array (n % (array.length * 8)) = true := by
  rw [mayMatch, if_neg (by omega), List.all_eq_true]
  simp [singleProbes, bitIsSet_eq]

/-- **A filter matches every key whose probes it has**, whatever else is added. -/
theorem mayMatch_probeAll_of_mem (sub : ∀ key, singleProbes hash key ⊆ probes key)
    (two : 2 ≤ array.length) (mem : key ∈ keys) :
    mayMatch hash key (probeAll probes keys array) = true := by
  refine (mayMatch_iff (by rwa [length_probeAll])).mpr fun n hn => ?_
  rw [length_probeAll]
  induction keys generalizing array with
  | nil => simp at mem
  | cons k keys ih =>
      rw [probeAll_cons]
      rcases List.mem_cons.mp mem with rfl | mem
      · have hne : array ≠ [] := List.length_pos_iff.mp (by omega)
        exact getBit_probeAll (getBit_addHash_of_mem (sub _ hn) hne)
      · have htwo : 2 ≤ (addHash (probes k) array).length := by rwa [length_addHash]
        have := ih htwo mem
        rwa [length_addHash] at this

/-- A filter matches what it matched before more was added. -/
theorem mayMatch_probeAll (h : mayMatch hash key array = true) :
    mayMatch hash key (probeAll probes keys array) = true := by
  have htwo : 2 ≤ array.length := by
    by_contra hshort
    simp [mayMatch, show array.length < 2 by omega] at h
  refine (mayMatch_iff (by rwa [length_probeAll])).mpr fun n hn => ?_
  rw [length_probeAll]
  exact getBit_probeAll ((mayMatch_iff htwo).mp h n hn)

end Probes

/-! ## The filter of a table -/

/-- A call of a `FilterBlockBuilder`. -/
inductive FilterCall
  | addKey (key : Bytes)
  | flush

namespace FilterCall

/-- The key that a call adds. -/
def added : FilterCall → List Bytes
  | addKey key => [key]
  | flush => []

variable (hash : Bytes → List UInt32)

/-- `Flush` with any hash. -/
def flushed (f : FilterBlockBuilder) : FilterBlockBuilder :=
  if f.keys.isEmpty then f else ⟨[], [], createFilterBy hash f.slices f.buffer⟩

/-- One call. -/
def apply (f : FilterBlockBuilder) : FilterCall → FilterBlockBuilder
  | addKey key => f.addKey key
  | flush => flushed hash f

/-- Calls on a new builder. -/
def run (calls : List FilterCall) : FilterBlockBuilder := calls.foldl (apply hash) .new

/-- What `Finish` returns behind the calls. -/
def finish (calls : List FilterCall) : Bytes := (flushed hash (run hash calls)).buffer

variable {hash}

/-- Whatever it was called with, a builder has a filter of the usual size. -/
structure Sound (f : FilterBlockBuilder) : Prop extends f.Inside where
  length_buffer : f.buffer.length = bloomSize

/-- **A key is waiting, or matched.** -/
def Has (hash : Bytes → List UInt32) (f : FilterBlockBuilder) (key : Bytes) : Prop :=
  key ∈ f.slices ∨ mayMatch hash key f.buffer = true

variable {f : FilterBlockBuilder} {key : Bytes}

theorem Sound.flushed (h : Sound f) : Sound (flushed hash f) := by
  unfold FilterCall.flushed
  split
  · exact h
  · refine ⟨⟨fun _ hk => absurd hk List.not_mem_nil, fun _ => rfl⟩, ?_⟩
    rw [createFilterBy_eq, length_probeAll]
    exact h.length_buffer

theorem Sound.apply (h : Sound f) (c : FilterCall) : Sound (apply hash f c) := by
  cases c with
  | addKey key => exact ⟨h.toInside.addKey key, h.length_buffer⟩
  | flush => exact h.flushed

theorem sound_run (calls : List FilterCall) : Sound (run hash calls) := by
  have hall : ∀ f, Sound f → Sound (calls.foldl (FilterCall.apply hash) f) := by
    induction calls with
    | nil => exact fun f h => h
    | cons c calls ih => exact fun f h => ih _ (h.apply c)
  exact hall .new ⟨FilterBlockBuilder.inside_new, List.length_replicate⟩

/-- A flushed filter matches every key that was waiting. -/
theorem Has.flushed (h : Has hash f key) (sound : Sound f) :
    mayMatch hash key (flushed hash f).buffer = true := by
  unfold FilterCall.flushed
  split
  · rename_i hempty
    exact h.resolve_left (by simp [FilterBlockBuilder.slices_of_empty hempty])
  · rw [createFilterBy_eq]
    rcases h with hwait | hmatch
    · exact mayMatch_probeAll_of_mem (fun _ => List.Subset.refl _)
        (by rw [sound.length_buffer]; decide) hwait
    · exact mayMatch_probeAll hmatch

theorem Has.apply (h : Has hash f key) (sound : Sound f) (c : FilterCall) :
    Has hash (apply hash f c) key := by
  cases c with
  | addKey other =>
      obtain ⟨slice, hslices, -⟩ := sound.toInside.slices_addKey other
      refine h.imp_left fun hwait => ?_
      rw [FilterCall.apply, hslices]
      exact List.mem_append_left _ hwait
  | flush => exact .inr (h.flushed sound)

/-- **The finished filter matches a key** whose place and length are 32-bit numbers, whatever was
called before and after. -/
theorem mayMatch_finish (before after : List FilterCall)
    (room : (run hash before).keyBuf.length < 2 ^ 32) (short : key.length < 2 ^ 32) :
    mayMatch hash key (finish hash (before ++ .addKey key :: after)) = true := by
  have hall : ∀ f, Sound f → Has hash f key →
      Sound (after.foldl (FilterCall.apply hash) f) ∧
        Has hash (after.foldl (FilterCall.apply hash) f) key := by
    induction after with
    | nil => exact fun f hs h => ⟨hs, h⟩
    | cons c calls ih => exact fun f hs h => ih _ (hs.apply c) (h.apply hs c)
  have hsound : Sound (run hash before) := sound_run before
  obtain ⟨slice, hslices, hslice⟩ := hsound.toInside.slices_addKey key
  have hadded : Has hash (FilterCall.apply hash (run hash before) (.addKey key)) key := by
    refine .inl ?_
    rw [FilterCall.apply, hslices, hslice room short]
    exact List.mem_append_right _ (List.mem_singleton_self key)
  obtain ⟨hs, h⟩ := hall _ (hsound.apply (.addKey key)) hadded
  have hrun : run hash (before ++ .addKey key :: after) = after.foldl (FilterCall.apply hash)
      (FilterCall.apply hash (run hash before) (.addKey key)) := by
    rw [run, List.foldl_append, List.foldl_cons]
    rfl
  rw [finish, hrun]
  exact h.flushed hs

end FilterCall

/-- A call of a `TableBuilder` before `Finish`. -/
inductive BuilderCall
  | add (key : InternalKey) (value : Bytes)
  | addInfo (key : InternalKey) (value : Bytes)
  | flush (nextIndexEntry : Bool)
  | setLastKey (key : InternalKey)

namespace BuilderCall

variable (crc32c : Bytes → ℕ)

/-- The key that a call adds. -/
def added : BuilderCall → List InternalKey
  | add key _ | addInfo key _ => [key]
  | flush _ | setLastKey _ => []

/-- One call. -/
def apply (b : TableBuilder) : BuilderCall → TableBuilder
  | add key value => b.add crc32c key value
  | addInfo key value => (b.addInfo crc32c key value).1
  | flush nextIndexEntry => b.flushWith crc32c nextIndexEntry
  | setLastKey key => b.setLastKey key

/-- Calls on a new builder. -/
def run (calls : List BuilderCall) : TableBuilder := calls.foldl (apply crc32c) .new

/-- The handle that `Finish` gives the filter block. -/
def filterHandle (b : TableBuilder) : BlockEntryInfo :=
  ((b.flush crc32c).writeRawBlock crc32c (b.flush crc32c).filterBlock.finish).1

/-- The filter block in the file that `Finish` writes. -/
def filterBlock (b : TableBuilder) : Bytes :=
  readAt (b.finish crc32c) (filterHandle crc32c b).offset (filterHandle crc32c b).size

variable {crc32c} {b : TableBuilder} {keys : List Bytes}

/-- The user keys that a builder was given, and where it stands in its file.  The collected keys
are part of the open block. -/
structure Holds (b : TableBuilder) (keys : List Bytes) : Prop where
  offset : b.offset = b.file.length
  covers : b.filterBlock.Covers keys
  room : b.filterBlock.keyBuf.length ≤ b.dataBlock.length

/-- Between two calls the open block is not full. -/
structure Resting (b : TableBuilder) (keys : List Bytes) : Prop extends Holds b keys where
  block : b.dataBlock.length < blockSize

theorem Holds.lastKey (h : Holds b keys) (key : Bytes) : Holds { b with lastKey := key } keys :=
  ⟨h.offset, h.covers, h.room⟩

theorem Resting.addIndexEntry (h : Resting b keys) : Resting b.addIndexEntry keys := by
  rw [TableBuilder.addIndexEntry_eq]
  exact ⟨⟨h.offset, h.covers, h.room⟩, h.block⟩

theorem Resting.appendEntry (h : Resting b keys) (key : InternalKey) (value : Bytes) :
    Holds (b.appendEntry key value) (keys ++ [key.userKey]) := by
  have hroom : b.filterBlock.keyBuf.length < 2 ^ 32 :=
    (h.room.trans_lt h.block).trans (by decide)
  refine ⟨h.offset, h.covers.addKey hroom key.userKey, ?_⟩
  have hle := h.room
  simp only [TableBuilder.appendEntry, FilterBlockBuilder.addKey, List.length_append,
    length_entryBytes, InternalKey.length_encode]
  omega

theorem Holds.flushWith (h : Holds b keys) (nextIndexEntry : Bool) :
    Resting (b.flushWith crc32c nextIndexEntry) keys := by
  have hbuf := h.covers.toInside.flush.2
  by_cases hempty : b.dataBlock.isEmpty = true
  · have hdata : b.dataBlock = [] := List.isEmpty_iff.mp hempty
    simp only [TableBuilder.flushWith, hempty, if_true]
    refine ⟨⟨h.offset, h.covers.flush, by simp [hbuf]⟩, ?_⟩
    simp [hdata, blockSize]
  · simp only [TableBuilder.flushWith, hempty]
    refine ⟨⟨?_, h.covers.flush, by simp [TableBuilder.writeRawBlock, hbuf]⟩, ?_⟩
    · simp [TableBuilder.writeRawBlock, h.offset]
    · simp [TableBuilder.writeRawBlock, blockSize]

theorem Resting.apply (h : Resting b keys) (c : BuilderCall) :
    Resting (c.apply crc32c b) (keys ++ c.added.map (·.userKey)) := by
  cases c with
  | add key value =>
      have happend := h.addIndexEntry.appendEntry key value
      simp only [BuilderCall.apply, TableBuilder.add, added, List.map_cons, List.map_nil]
      split
      · exact happend.flushWith true
      · rename_i hroom
        exact ⟨happend, not_le.mp hroom⟩
  | addInfo key value =>
      have happend := h.addIndexEntry.appendEntry key value
      simp only [BuilderCall.apply, TableBuilder.addInfo, added, List.map_cons, List.map_nil]
      split
      · exact ((happend.lastKey _).lastKey key.encode).flushWith true
      · rename_i hroom
        exact ⟨happend.lastKey _, not_le.mp hroom⟩
  | flush nextIndexEntry =>
      simp only [added, List.map_nil, List.append_nil]
      exact h.toHolds.flushWith nextIndexEntry
  | setLastKey key =>
      simp only [added, List.map_nil, List.append_nil]
      exact ⟨h.toHolds.lastKey key.encode, h.block⟩

theorem resting_run (calls : List BuilderCall) :
    Resting (run crc32c calls) ((calls.flatMap added).map (·.userKey)) := by
  have hall : ∀ (b : TableBuilder) (keys : List Bytes), Resting b keys →
      Resting (calls.foldl (BuilderCall.apply crc32c) b)
        (keys ++ (calls.flatMap added).map (·.userKey)) := by
    induction calls with
    | nil => exact fun b keys h => by simpa using h
    | cons c calls ih =>
        intro b keys h
        have hstep : Resting (c.apply crc32c b) _ := h.apply c
        have := ih _ _ hstep
        rwa [List.append_assoc, ← List.map_append] at this
  exact hall .new [] ⟨⟨rfl, FilterBlockBuilder.covers_new, le_rfl⟩, by decide⟩

/-- `Finish` writes the filter to where its handle points. -/
theorem Holds.filterBlock_eq (h : Holds b keys) :
    filterBlock crc32c b = (b.flush crc32c).filterBlock.finish := by
  have hflush : Holds (b.flush crc32c) keys := (h.flushWith true).toHolds
  obtain ⟨rest, hfile⟩ : ∃ rest, b.finish crc32c = (b.flush crc32c).file
      ++ ((b.flush crc32c).filterBlock.finish ++ rest) := by
    simp only [TableBuilder.finish, TableBuilder.writeRawBlock, TableBuilder.addIndexEntry_eq,
      TableBuilder.rawBlock]
    split
    · exact ⟨_, by rw [List.append_assoc, List.append_assoc]⟩
    · exact ⟨_, by rw [List.append_assoc, List.append_assoc, List.append_assoc]⟩
  exact readAt_of_eq _ rest hfile hflush.offset rfl

end BuilderCall

/-- The hash of the store. -/
def murmur (key : Bytes) : List UInt32 := (filterHash key).map UInt32.ofNat

/-- The numbers of the hash have 32 bits. -/
theorem singleProbes_murmur (key : Bytes) : singleProbes murmur key = filterHash key := by
  have hsmall : ∀ n ∈ filterHash key, n < 2 ^ 32 := by
    intro n hn
    simp only [filterHash, List.mem_cons, List.not_mem_nil, or_false] at hn
    have h₁ := (MurmurHash3.x64_128 key 1).1.toNat_lt
    have h₂ := (MurmurHash3.x64_128 key 1).2.toNat_lt
    rcases hn with rfl | rfl | rfl | rfl <;> omega
  rw [singleProbes, murmur, List.map_map]
  conv_rhs => rw [← List.map_id (filterHash key)]
  exact List.map_congr_left fun n hn => UInt32.toNat_ofNat_of_lt' (hsmall n hn)

/-- The filter of a table is the one with this hash. -/
theorem flushed_murmur (f : FilterBlockBuilder) : FilterCall.flushed murmur f = f.flush := by
  have hprobes : singleProbes murmur = filterHash := funext singleProbes_murmur
  rw [FilterCall.flushed, createFilterBy_eq, hprobes]
  rfl

/-- And so is the reader. -/
theorem mayMatch_murmur (key bloomFilter : Bytes) :
    mayMatch murmur key bloomFilter = keyMayMatch key bloomFilter := by
  unfold mayMatch keyMayMatch
  split
  · rfl
  · rw [← singleProbes_murmur, singleProbes, List.all_map]
    simp only [Function.comp_def, bitIsSet_eq]

/-- **No false negatives.**  Whatever the hash is: a filter that was built by any calls of `AddKey`
and `Flush` matches every key that was added, if its length and its place in the buffer are 32-bit
numbers, and so does the one of the second variant of `CreateFilter`, of any size from 2 on,
without a condition.  For the hash of the store the former is the filter block in the file of a
table, whatever its builder was called with; there the place always is a 32-bit number. -/
theorem keyMayMatch_of_added (hash : Bytes → List UInt32) :
    (∀ before key after, (FilterCall.run hash before).keyBuf.length < 2 ^ 32 →
      key.length < 2 ^ 32 →
        mayMatch hash key (FilterCall.finish hash (before ++ .addKey key :: after)) = true) ∧
    (∀ crc32c calls, ∀ key ∈ calls.flatMap BuilderCall.added, key.userKey.length < 2 ^ 32 →
      keyMayMatch key.userKey (BuilderCall.filterBlock crc32c (BuilderCall.run crc32c calls)) = true) ∧
    ∀ keys size, 2 ≤ size → ∀ key ∈ keys,
      mayMatch hash key (createFilterSized hash keys size) = true := by
  refine ⟨fun before key after room short => FilterCall.mayMatch_finish before after room short,
    fun crc32c calls key mem short => ?_, fun keys size two key mem => ?_⟩
  · have h : BuilderCall.Resting (BuilderCall.run crc32c calls) _ := BuilderCall.resting_run calls
    rw [h.toHolds.filterBlock_eq]
    exact (h.toHolds.flushWith true).covers.finish (List.mem_map_of_mem mem) short
  · rw [createFilterSized_eq]
    exact mayMatch_probeAll_of_mem (singleProbes_subset hash) (by rwa [List.length_replicate]) mem

/-- Two flushes, a table of one entry, and a filter of sixteen bits. -/
theorem keyMayMatch_of_added_small :
    mayMatch murmur [1] (FilterCall.finish murmur [.addKey [3], .addKey [1], .flush, .addKey [2]])
        = true ∧
      keyMayMatch [1] (BuilderCall.filterBlock crc32cCastagnoli
        (BuilderCall.run crc32cCastagnoli [.add (.ofWrite [1] 5 .kTypeValue) [], .flush true])) = true ∧
      mayMatch murmur [3] (createFilterSized murmur [[1], [3]] 2) = true := by
  obtain ⟨hcalls, htable, hsized⟩ := keyMayMatch_of_added murmur
  refine ⟨hcalls [.addKey [3]] [1] [.flush, .addKey [2]] (by decide) (by decide), ?_,
    hsized _ 2 le_rfl [3] (by simp)⟩
  exact htable crc32cCastagnoli _ (.ofWrite [1] 5 .kTypeValue) (by simp [BuilderCall.added])
    (by decide)

/-- The length of a key of 2^32 bytes becomes 0, and the empty key is hashed in its place. -/
theorem not_mayMatch_long_key :
    let key : Bytes := List.replicate (2 ^ 32) 1
    let hash : Bytes → List UInt32 := fun key => [if key.isEmpty then 0 else 1]
    mayMatch hash key (FilterCall.finish hash [.addKey key]) = false := by
  intro key hash
  have hlength : key.length = 2 ^ 32 := List.length_replicate
  have hempty : key.isEmpty = false := by
    rw [List.isEmpty_eq_false_iff]
    intro hnil
    rw [hnil] at hlength
    exact absurd hlength (by norm_num)
  have hslices : (FilterBlockBuilder.new.addKey key).slices = [[]] := by
    simp [FilterBlockBuilder.slices, FilterBlockBuilder.addKey, FilterBlockBuilder.new, hlength]
  -- The empty key sets bit 0, in the first byte; the key asks for bit 1.
  have hset : ∀ rest : Bytes, createFilterBy hash [[]] (0 :: rest) = orChar 0 0 :: rest := by
    intro rest
    simp [createFilterBy, hash, orBit]
  have hget : ∀ rest : Bytes, rest ≠ [] → mayMatch hash key (orChar 0 0 :: rest) = false := by
    intro rest hne
    have htwo : ¬ (orChar 0 0 :: rest).length < 2 := by
      have hpos := List.length_pos_iff.mpr hne
      rw [List.length_cons]
      omega
    have hbit : 1 % ((orChar 0 0 :: rest).length * 8) = 1 := by
      refine Nat.mod_eq_of_lt ?_
      rw [List.length_cons]
      omega
    have htest : bitIsSet (orChar 0 0 :: rest) 1 = false := by
      rw [bitIsSet, show 1 / 8 = 0 from rfl, List.getD_cons_zero]
      decide
    rw [mayMatch, if_neg htwo]
    simp only [hash, hempty, Bool.false_eq_true, if_false, List.all_cons, List.all_nil,
      Bool.and_true, UInt32.toNat_one, hbit, htest]
  have hfinish : FilterCall.finish hash [.addKey key]
      = createFilterBy hash (FilterBlockBuilder.new.addKey key).slices
          (0 :: List.replicate 8191 0) := rfl
  rw [hfinish, hslices, hset]
  exact hget _ (by rw [ne_eq, List.replicate_eq_nil_iff]; decide)

end Lsmkv
