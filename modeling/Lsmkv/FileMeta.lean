import Lsmkv.BlockFormat
import Lsmkv.Lib.Overwrite

/-!
# The description of a table, in bytes

`SSTFileMeta` (`src/include/block_format.h`) is written as two sizes of four bytes, the two keys, and
24 bytes for the numbers of the file, its size, its level and its value log.  `Encode` adds the sizes in
32 bits, cuts the buffer to the total and writes the numbers behind the keys; `Decode` compares the
length of its input with the total, again with the two sizes added in 32 bits, and then goes over the
keys by their sizes.

Where the sum has 32 bits, the two are inverse.  Where it wraps, the check accepts an input that is
4 GiB too short, and the keys and the numbers are read behind it.  The other kind of input that is
accepted and not given back has a key without bytes, for which `InternalKey::Encode` fails its assertion
(`fileMeta_iff`).

What is read behind the input is what the memory has there: it is an argument of `decode`, and the
places that are read are part of its result.
-/

namespace Lsmkv

open ByteCode Overwrite

/-- `SSTFileMeta`, with the bytes of its two keys; the size of a key is a `uint32_t`. -/
structure SSTFileMeta where
  fileSize : ℕ
  fileNumber : ℕ
  level : ℕ
  vlogFileNo : ℕ
  smallest : Bytes
  largest : Bytes
  deriving DecidableEq, Repr

namespace SSTFileMeta

/-- `resize(n)` of a string. -/
def resize (dst : Bytes) (n : ℕ) : Bytes := dst.take n ++ List.replicate (n - dst.length) 0

/-- The numbers, as `Encode` writes them behind the keys. -/
def numbers (m : SSTFileMeta) : Bytes :=
  fixedEncode 8 m.fileNumber ++ (fixedEncode 8 m.fileSize
    ++ (fixedEncode 4 m.level ++ fixedEncode 4 m.vlogFileNo))

/-- `Encode()`, with the assertions of `InternalKey::Encode`; the bytes are taken as a value. -/
def encode (m : SSTFileMeta) : Outcome Bytes :=
  if m.smallest.length ≠ 0 ∧ m.largest.length ≠ 0 then
    let keySz := (m.smallest.length + m.largest.length) % 2 ^ 32
    let sumSize := keySz + 2 * 8 + 4 * 2 + 8
    let dst := fixedEncode 4 m.smallest.length ++ fixedEncode 4 m.largest.length
    let dst := resize (dst ++ m.smallest ++ m.largest) sumSize
    .ok (overwrite 0 dst (keySz + 8) m.numbers)
  else .fault

/-- Bytes that are read at an offset; what is behind the end of the memory is a fault. -/
def fetch (memory : Bytes) (offset n : ℕ) : Outcome Bytes :=
  if offset + n ≤ memory.length then .ok ((memory.drop offset).take n) else .fault

/-- A number that is read at an offset. -/
def fetchFixed (memory : Bytes) (width offset : ℕ) : Outcome ℕ :=
  Outcome.ofOption (fixedDecode width (memory.drop offset))

/-- `Decode(src)`, where `after` is what the memory has behind the input: the fields, and the places
that are read (offset and size). -/
def decode (src after : Bytes) : Outcome (SSTFileMeta × List (ℕ × ℕ)) :=
  if src.length < 2 * 8 + 4 * 2 + 8 then .fail .kCorruption
  else do
    let memory := src ++ after
    let smallestSz ← fetchFixed memory 4 0
    let largestSz ← fetchFixed memory 4 4
    if src.length ≠ (smallestSz + largestSz) % 2 ^ 32 + 2 * 8 + 4 * 2 + 8 then .fail .kCorruption
    else do
      let smallest ← fetch memory 8 smallestSz
      let largest ← fetch memory (8 + smallestSz) largestSz
      let buf := 8 + smallestSz + largestSz
      let fileNumber ← fetchFixed memory 8 buf
      let fileSize ← fetchFixed memory 8 (buf + 8)
      let level ← fetchFixed memory 4 (buf + 16)
      let vlogFileNo ← fetchFixed memory 4 (buf + 20)
      .ok (⟨fileSize, fileNumber, level, vlogFileNo, smallest, largest⟩,
        [(0, 4), (4, 4), (8, smallestSz), (8 + smallestSz, largestSz), (buf, 24)])

/-! ## What is decoded -/

/-- The bytes of a description whose sizes do not wrap. -/
def layout (m : SSTFileMeta) : Bytes :=
  fixedEncode 4 m.smallest.length ++ (fixedEncode 4 m.largest.length
    ++ (m.smallest ++ (m.largest ++ m.numbers)))

/-- The fields fit their types; the keys have a tag. -/
structure WellFormed (m : SSTFileMeta) : Prop where
  smallest : 8 ≤ m.smallest.length ∧ m.smallest.length < 2 ^ 32
  largest : 8 ≤ m.largest.length ∧ m.largest.length < 2 ^ 32
  fileSize : m.fileSize < 2 ^ 64
  fileNumber : m.fileNumber < 2 ^ 64
  level : m.level < 2 ^ 32
  vlogFileNo : m.vlogFileNo < 2 ^ 32

variable {m : SSTFileMeta} {src after memory b rest : Bytes} {reads : List (ℕ × ℕ)} {offset n w v : ℕ}

@[simp] theorem length_numbers (m : SSTFileMeta) : m.numbers.length = 24 := by simp [numbers]

theorem fetch_eq_ok : fetch memory offset n = .ok b ↔
    offset + n ≤ memory.length ∧ (memory.drop offset).take n = b := by
  rw [fetch]
  split <;> simp_all

theorem fetchFixed_eq_ok : fetchFixed memory w offset = .ok v ↔
    fixedDecode w (memory.drop offset) = some v := by
  rw [fetchFixed]
  cases fixedDecode w (memory.drop offset) <;> simp [Outcome.ofOption]

/-- A number that stands at an offset. -/
theorem fetchFixed_of_drop (stands : memory.drop offset = fixedEncode w v ++ rest) (lt : v < 256 ^ w) :
    fetchFixed memory w offset = .ok v := by
  rw [fetchFixed_eq_ok, stands, fixedDecode_fixedEncode_append, Nat.mod_eq_of_lt lt]

/-- Bytes that stand at an offset. -/
theorem fetch_of_drop (stands : memory.drop offset = b ++ rest) (inside : offset ≤ memory.length) :
    fetch memory offset b.length = .ok b := by
  have hlength := congrArg List.length stands
  rw [List.length_drop, List.length_append] at hlength
  exact fetch_eq_ok.mpr ⟨by omega, by rw [stands, List.take_left]⟩

/-- How a memory goes on behind bytes. -/
theorem drop_add (stands : memory.drop offset = b ++ rest) (size : b.length = n) :
    memory.drop (offset + n) = rest := by
  rw [← List.drop_drop, stands, ← size, List.drop_left]

theorem length_layout (m : SSTFileMeta) :
    m.layout.length = m.smallest.length + m.largest.length + 32 := by
  simp only [layout, List.length_append, length_fixedEncode, length_numbers]
  omega

/-- **`Decode` goes over a description** whose sizes do not wrap, and reads inside it. -/
theorem decode_layout (h : m.WellFormed) (sum : m.smallest.length + m.largest.length < 2 ^ 32)
    (after : Bytes) : decode m.layout after = .ok (m, [(0, 4), (4, 4), (8, m.smallest.length),
      (8 + m.smallest.length, m.largest.length), (8 + m.smallest.length + m.largest.length, 24)]) := by
  have hlength := length_layout m
  have hnot : ¬ m.layout.length < 2 * 8 + 4 * 2 + 8 := by omega
  have hsum : ¬ m.layout.length ≠ (m.smallest.length + m.largest.length) % 2 ^ 32 + 2 * 8 + 4 * 2 + 8 := by
    rw [Nat.mod_eq_of_lt sum, hlength]
    omega
  have hword : (2 : ℕ) ^ 32 = 256 ^ 4 := by norm_num
  have hlong : (2 : ℕ) ^ 64 = 256 ^ 8 := by norm_num
  obtain ⟨⟨-, hs⟩, ⟨-, hl⟩, hsize, hnumber, hlevel, hvlog⟩ := h
  rw [hword] at hs hl hlevel hvlog
  rw [hlong] at hsize hnumber
  -- What the memory has at each of the places that are read.
  have h0 : (m.layout ++ after).drop 0 = fixedEncode 4 m.smallest.length ++ (fixedEncode 4 m.largest.length
      ++ (m.smallest ++ (m.largest ++ (m.numbers ++ after)))) := by
    simp only [List.drop_zero, layout, List.append_assoc]
  have h4 : (m.layout ++ after).drop 4 = _ := drop_add h0 (length_fixedEncode 4 _)
  have h8 : (m.layout ++ after).drop 8 = _ := drop_add h4 (length_fixedEncode 4 _)
  have hlargest := drop_add h8 rfl
  have hnumbers := drop_add hlargest rfl
  simp only [numbers, List.append_assoc] at hnumbers
  have hsizeAt := drop_add hnumbers (length_fixedEncode 8 _)
  have hlevelAt := drop_add hsizeAt (length_fixedEncode 8 _)
  have hvlogAt := drop_add hlevelAt (length_fixedEncode 4 _)
  change (m.layout ++ after).drop (8 + m.smallest.length + m.largest.length + 16) = _ at hlevelAt
  change (m.layout ++ after).drop (8 + m.smallest.length + m.largest.length + 20) = _ at hvlogAt
  have hmemory : (m.layout ++ after).length = m.smallest.length + m.largest.length + 32 + after.length := by
    rw [List.length_append, hlength]
  rw [decode, if_neg hnot]
  simp only [fetchFixed_of_drop h0 hs, fetchFixed_of_drop h4 hl, Outcome.ok_bind, if_neg hsum,
    fetch_of_drop h8 (by omega), fetch_of_drop hlargest (by omega), fetchFixed_of_drop hnumbers hnumber,
    fetchFixed_of_drop hsizeAt hsize, fetchFixed_of_drop hlevelAt hlevel, fetchFixed_of_drop hvlogAt hvlog]

/-- **What an accepted input is.**  Its first eight bytes are the sizes of the keys, its length agrees
with their sum in 32 bits, and from the ninth byte on the memory has the keys and the numbers. -/
theorem decode_eq_ok (h : decode src after = .ok (m, reads)) :
    fixedDecode 4 src = some m.smallest.length ∧ fixedDecode 4 (src.drop 4) = some m.largest.length ∧
      src.length = (m.smallest.length + m.largest.length) % 2 ^ 32 + 32 ∧
      reads = [(0, 4), (4, 4), (8, m.smallest.length), (8 + m.smallest.length, m.largest.length),
        (8 + m.smallest.length + m.largest.length, 24)] ∧
      8 + m.smallest.length + m.largest.length + 24 ≤ (src ++ after).length ∧
      ((src ++ after).drop 8).take (m.smallest.length + m.largest.length + 24)
        = m.smallest ++ (m.largest ++ m.numbers) := by
  rw [decode] at h
  split at h
  · cases h
  · rename_i hshort
    simp only [Outcome.bind_eq_ok, fetchFixed_eq_ok] at h
    obtain ⟨a, ha, b, hb, h⟩ := h
    split at h
    · cases h
    · rename_i hsum
      simp only [Outcome.bind_eq_ok, fetch_eq_ok, fetchFixed_eq_ok] at h
      obtain ⟨s, ⟨hsin, hs⟩, l, ⟨hlin, hl⟩, fileNumber, hnumber, fileSize, hsize, level, hlevel,
        vlogFileNo, hvlog, heq⟩ := h
      obtain ⟨rfl, rfl⟩ := Prod.mk.inj (Outcome.ok.inj heq)
      have hslength : s.length = a := by
        rw [← hs, List.length_take, List.length_drop]
        omega
      have hllength : l.length = b := by
        rw [← hl, List.length_take, List.length_drop]
        omega
      have hend := length_of_fixedDecode hvlog
      rw [List.length_drop] at hend
      have hnumbers : numbers ⟨fileSize, fileNumber, level, vlogFileNo, s, l⟩
          = ((src ++ after).drop (8 + a + b)).take (8 + (8 + (4 + 4))) := by
        rw [numbers, fixedEncode_of_fixedDecode hnumber, fixedEncode_of_fixedDecode hsize,
          fixedEncode_of_fixedDecode hlevel, fixedEncode_of_fixedDecode hvlog, List.take_add, List.take_add,
          List.take_add, List.drop_drop, List.drop_drop, List.drop_drop]
      rw [List.drop_zero, fixedDecode_append (by omega)] at ha
      rw [List.drop_append_of_le_length (by omega), fixedDecode_append (by rw [List.length_drop]; omega)] at hb
      refine ⟨hslength ▸ ha, hllength ▸ hb, ?_, ?_, ?_, ?_⟩
      · simp only [hslength, hllength]
        omega
      · simp only [hslength, hllength]
      · simp only [hslength, hllength]
        omega
      · simp only [hslength, hllength]
        rw [Nat.add_assoc, List.take_add, List.take_add, List.drop_drop, List.drop_drop, hs, hl, hnumbers]

/-! ## Where the two are inverse -/

/-- `Decode` restores what was encoded, whatever the memory has behind it. -/
def RoundTrips (m : SSTFileMeta) : Prop :=
  ∃ bytes, m.encode = .ok bytes ∧ ∀ after, ∃ reads, decode bytes after = .ok (m, reads)

/-- All that is read for the description lies inside the input, and it is encoded as the input. -/
def Represents (src : Bytes) (m : SSTFileMeta) (reads : List (ℕ × ℕ)) : Prop :=
  (∀ r ∈ reads, r.1 + r.2 ≤ src.length) ∧ m.encode = .ok src

/-- The sizes in the first eight bytes are not zero, and their sum has 32 bits. -/
def SizesFit (src : Bytes) : Prop :=
  ∃ a b, fixedDecode 4 src = some a ∧ fixedDecode 4 (src.drop 4) = some b ∧ a ≠ 0 ∧ b ≠ 0 ∧ a + b < 2 ^ 32

/-- **`Encode`**, where the sizes do not wrap. -/
theorem encode_eq_layout (hs : m.smallest.length ≠ 0) (hl : m.largest.length ≠ 0)
    (sum : m.smallest.length + m.largest.length < 2 ^ 32) : m.encode = .ok m.layout := by
  have hdst : fixedEncode 4 m.smallest.length ++ fixedEncode 4 m.largest.length ++ m.smallest ++ m.largest
      ++ m.numbers = m.layout := by
    simp only [layout, List.append_assoc]
  set dst := fixedEncode 4 m.smallest.length ++ fixedEncode 4 m.largest.length ++ m.smallest ++ m.largest
    with hdef
  have hlength : dst.length = m.smallest.length + m.largest.length + 8 := by
    simp only [hdef, List.length_append, length_fixedEncode]
    omega
  have hresize : resize dst (m.smallest.length + m.largest.length + 2 * 8 + 4 * 2 + 8)
      = dst ++ List.replicate 24 0 := by
    rw [resize, List.take_of_length_le (by omega), hlength]
    congr 2
    omega
  have hover : overwrite 0 (dst ++ List.replicate 24 0) (m.smallest.length + m.largest.length + 8) m.numbers
      = dst ++ m.numbers := by
    have htake := take_overwrite 0 (dst ++ List.replicate 24 0) (m.smallest.length + m.largest.length + 8)
      m.numbers (by rw [List.length_append]; omega)
    rw [← hlength, List.take_left] at htake
    rw [← hlength, ← htake]
    refine (List.take_of_length_le ?_).symm
    rw [length_overwrite, List.length_append, List.length_replicate, length_numbers]
    omega
  rw [encode, if_pos ⟨hs, hl⟩, Nat.mod_eq_of_lt sum]
  show Outcome.ok (overwrite 0 (resize dst _) _ _) = _
  rw [hresize, hover, hdst]

/-- **Encoding and decoding** restores a description exactly if the sizes of its keys do not wrap: else
what was encoded is too short for the keys. -/
theorem roundTrips_iff (h : m.WellFormed) :
    RoundTrips m ↔ m.smallest.length + m.largest.length < 2 ^ 32 := by
  have hs : m.smallest.length ≠ 0 := (lt_of_lt_of_le (by norm_num) h.smallest.1).ne'
  have hl : m.largest.length ≠ 0 := (lt_of_lt_of_le (by norm_num) h.largest.1).ne'
  constructor
  · rintro ⟨bytes, -, hdecode⟩
    obtain ⟨reads, hreads⟩ := hdecode []
    obtain ⟨-, -, hlength, -, hinside, -⟩ := decode_eq_ok hreads
    rw [List.append_nil, hlength] at hinside
    have hwrap := Nat.mod_lt (m.smallest.length + m.largest.length) (Nat.two_pow_pos 32)
    omega
  · intro sum
    exact ⟨m.layout, encode_eq_layout hs hl sum, fun after => ⟨_, decode_layout h sum after⟩⟩

/-- **An accepted input is given back**, and was read inside, exactly if its sizes fit. -/
theorem represents_iff (h : decode src after = .ok (m, reads)) : Represents src m reads ↔ SizesFit src := by
  obtain ⟨hs, hl, hlength, rfl, -, hparts⟩ := decode_eq_ok h
  constructor
  · rintro ⟨hinside, hencode⟩
    have hend := hinside (8 + m.smallest.length + m.largest.length, 24) (by simp)
    have hwrap := Nat.mod_lt (m.smallest.length + m.largest.length) (Nat.two_pow_pos 32)
    have hkeys : m.smallest.length ≠ 0 ∧ m.largest.length ≠ 0 := by
      by_contra hzero
      rw [encode, if_neg hzero] at hencode
      cases hencode
    exact ⟨_, _, hs, hl, hkeys.1, hkeys.2, by omega⟩
  · rintro ⟨a, b, ha, hb, hane, hbne, sum⟩
    obtain rfl : m.smallest.length = a := Option.some.inj (hs.symm.trans ha)
    obtain rfl : m.largest.length = b := Option.some.inj (hl.symm.trans hb)
    rw [Nat.mod_eq_of_lt sum] at hlength
    refine ⟨fun r hr => ?_, ?_⟩
    · simp only [List.mem_cons, List.not_mem_nil, or_false] at hr
      rcases hr with rfl | rfl | rfl | rfl | rfl <;> dsimp only <;> omega
    · have hrest : src.drop 8 = m.smallest ++ (m.largest ++ m.numbers) := by
        rw [← hparts, List.drop_append_of_le_length (by omega)]
        exact (List.take_left' (by rw [List.length_drop]; omega)).symm
      have hsrc : src = src.take 4 ++ ((src.drop 4).take 4 ++ src.drop 8) := by
        rw [← List.drop_drop (i := 4) (j := 4), List.take_append_drop, List.take_append_drop]
      rw [encode_eq_layout hane hbne sum, layout, fixedEncode_of_fixedDecode ha,
        fixedEncode_of_fixedDecode hb, ← hrest, ← hsrc]

/-- **Descriptions of tables and their bytes.**  A description whose fields fit is restored exactly if the
sizes of its two keys together have 32 bits.  Of an input that is accepted, all parts that are read lie
inside, and its description is encoded as the input, exactly if the sizes in its first eight bytes are not
zero and together have 32 bits. -/
theorem fileMeta_iff (m : SSTFileMeta) (src after : Bytes) :
    (m.WellFormed → (RoundTrips m ↔ m.smallest.length + m.largest.length < 2 ^ 32)) ∧
    ∀ decoded reads, decode src after = .ok (decoded, reads) →
      (Represents src decoded reads ↔ SizesFit src) :=
  ⟨roundTrips_iff, fun _ _ => represents_iff⟩

/-- A description with keys of nine and eight bytes. -/
def smallMeta : SSTFileMeta := ⟨8300, 7, 2, 3, [1, 1, 5, 0, 0, 0, 0, 0, 0], [0, 9, 0, 0, 0, 0, 0, 0]⟩

theorem fileMeta_iff_small :
    RoundTrips smallMeta ∧ ∃ m reads, decode smallMeta.layout [] = .ok (m, reads) ∧
      Represents smallMeta.layout m reads := by
  have hwf : smallMeta.WellFormed :=
    ⟨by decide, by decide, by norm_num [smallMeta], by norm_num [smallMeta], by norm_num [smallMeta],
      by norm_num [smallMeta]⟩
  have hdecode := decode_layout hwf (by decide) []
  have hiff := fileMeta_iff smallMeta smallMeta.layout []
  exact ⟨(hiff.1 hwf).mpr (by decide), _, _, hdecode,
    (hiff.2 _ _ hdecode).mpr ⟨9, 8, by decide, by decide, by decide, by decide, by decide⟩⟩

/-- An input is accepted if its length agrees with the sizes in 32 bits and the memory goes on. -/
theorem exists_decode (after : Bytes) {a c : ℕ} (ha : fixedDecode 4 src = some a) (hc : fixedDecode 4 (src.drop 4) = some c)
    (length : src.length = (a + c) % 2 ^ 32 + 32) (goesOn : 8 + a + c + 24 ≤ (src ++ after).length) :
    ∃ m reads, decode src after = .ok (m, reads) := by
  have hnumber : ∀ offset w, offset + w ≤ (src ++ after).length →
      ∃ v, fetchFixed (src ++ after) w offset = .ok v := by
    intro offset w hin
    obtain ⟨v, hv⟩ := fixedDecode_isSome (w := w) (b := (src ++ after).drop offset)
      (by rw [List.length_drop]; omega)
    exact ⟨v, fetchFixed_eq_ok.mpr hv⟩
  obtain ⟨fileNumber, h1⟩ := hnumber (8 + a + c) 8 (by omega)
  obtain ⟨fileSize, h2⟩ := hnumber (8 + a + c + 8) 8 (by omega)
  obtain ⟨level, h3⟩ := hnumber (8 + a + c + 16) 4 (by omega)
  obtain ⟨vlogFileNo, h4⟩ := hnumber (8 + a + c + 20) 4 (by omega)
  have hfirst : fetchFixed (src ++ after) 4 0 = .ok a := by
    rw [fetchFixed_eq_ok, List.drop_zero, fixedDecode_append (by omega), ha]
  have hsecond : fetchFixed (src ++ after) 4 4 = .ok c := by
    rw [fetchFixed_eq_ok, List.drop_append_of_le_length (by omega),
      fixedDecode_append (by rw [List.length_drop]; omega), hc]
  rw [decode, if_neg (by omega)]
  simp only [hfirst, hsecond, Outcome.ok_bind]
  rw [if_neg (by rw [length]; exact fun hne => hne rfl)]
  simp only [fetch, if_pos (show 8 + a ≤ (src ++ after).length by omega),
    if_pos (show 8 + a + c ≤ (src ++ after).length by omega), h1, h2, h3, h4, Outcome.ok_bind]
  exact ⟨_, _, rfl⟩

/-- The sizes `2 ^ 32 - 1` and 1, and 24 bytes. -/
def wrappingInput : Bytes := fixedEncode 4 (2 ^ 32 - 1) ++ (fixedEncode 4 1 ++ List.replicate 24 0)

/-- Two inputs of 32 bytes that are accepted: the sizes wrap, and the keys lie behind the input; or both
keys are empty, and are not encoded. -/
theorem not_represents :
    (∃ after m reads, decode wrappingInput after = .ok (m, reads) ∧ ¬ Represents wrappingInput m reads) ∧
      ∃ m reads, decode (List.replicate 32 0) [] = .ok (m, reads) ∧
        ¬ Represents (List.replicate 32 0) m reads := by
  have ha : fixedDecode 4 wrappingInput = some (2 ^ 32 - 1) := by decide
  have hc : fixedDecode 4 (wrappingInput.drop 4) = some 1 := by decide
  have hlength : wrappingInput.length = 32 := by decide
  constructor
  · obtain ⟨m, reads, hdecode⟩ := exists_decode (List.replicate (2 ^ 32) 0) ha hc
      (by rw [hlength]; norm_num) (by rw [List.length_append, hlength, List.length_replicate]; norm_num)
    refine ⟨_, m, reads, hdecode, fun hrep => ?_⟩
    obtain ⟨a, c, ha', hc', -, -, sum⟩ := (represents_iff hdecode).mp hrep
    obtain rfl := Option.some.inj (ha.symm.trans ha')
    obtain rfl := Option.some.inj (hc.symm.trans hc')
    norm_num at sum
  · refine ⟨⟨0, 0, 0, 0, [], []⟩, _, rfl, fun hrep => ?_⟩
    obtain ⟨-, hencode⟩ := hrep
    rw [encode, if_neg (by decide)] at hencode
    cases hencode

end SSTFileMeta

end Lsmkv
