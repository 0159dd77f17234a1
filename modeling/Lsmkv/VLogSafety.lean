import Lsmkv.VLog

/-!
# Records that may be anything

`VLogReader::Read` (`src/include/reader.h`) on a file that may hold anything and a location that
may point anywhere.  A record is fetched with the length of its location, and its header says how
that length divides into key and value.  The two sizes come from the file; that they add up to the
length is an assertion and no check, and what is located with them is read before the checksum is
compared.

`readsSafely_iff` says for which contents the reader keeps to what it has fetched and returns a
status: those whose header agrees with the location.  What it returns as a value is in any case the
part of a record that its header announces, with a checksum that matches.
-/

namespace Lsmkv

open ByteCode

namespace VLogReader

section Read

variable (crc32c : Bytes → ℕ)

/-- `pread64`: the offset is a signed number, and a negative one is refused. -/
def pread (data : Bytes) (offset n : ℕ) : Outcome Bytes :=
  if offset < 2 ^ 63 then .ok (Lsmkv.pread data offset n) else .fail .kIOError

/-- `Read(info, value)`.  `file` is what the file of the location holds, if `InitFile` can open it,
and `live` is `LastLivingSequence` if the reader has a version. -/
def read (live : Option ℕ) (file : Option Bytes) (info : VLogEntryInfo) : Outcome Bytes :=
  match file with
  | none => .fail .kIOError
  | some data => do
      let buf ← pread data info.offset (fetchSize info)
      checkRecord crc32c live info buf

/-- The reader of the store, on offsets that are not negative. -/
theorem read_some (live : Option ℕ) (data : Bytes) {info : VLogEntryInfo}
    (offset : info.offset < 2 ^ 63) : read crc32c live (some data) info
      = vlogRead crc32c live data info := by
  simp only [read, pread, vlogRead, if_pos offset, Outcome.ok_bind]

/-- **What `Read` should do.**  It returns, without an access outside the fetched bytes and without
a failed assertion; and a value is the part of the record that the header announces, in a record
whose sizes add up and whose checksum matches. -/
structure ReadsSafely (live : Option ℕ) (file : Option Bytes) (info : VLogEntryInfo) : Prop where
  defined : read crc32c live file info ≠ .fault
  announced : ∀ v, read crc32c live file info = .ok v → ∃ data keySize, file = some data ∧
    (readAt data info.offset (info.length + kBlockTrailerSize)).length
      = info.length + kBlockTrailerSize ∧
    fixedDecode 4 (readAt data info.offset (info.length + kBlockTrailerSize)) = some keySize ∧
    fixedDecode 4 ((readAt data info.offset (info.length + kBlockTrailerSize)).drop 4)
      = some v.length ∧
    keySize + v.length + 8 = info.length ∧
    fixedDecode 4 ((readAt data info.offset (info.length + kBlockTrailerSize)).drop info.length)
      = some (crc32c ((readAt data info.offset (info.length + kBlockTrailerSize)).take info.length)
          % 2 ^ 32) ∧
    v = ((readAt data info.offset (info.length + kBlockTrailerSize)).drop (8 + keySize)).take v.length

/-- **The header agrees with the location**: the fetched bytes hold a header, its sizes add up to
the length, as numbers; and where an intact record is asked for its sequence number, the key has
one. -/
def HeaderAgrees (live : Option ℕ) (info : VLogEntryInfo) (buf : Bytes) : Prop :=
  ∃ keySize valueSize, fixedDecode 4 buf = some keySize ∧
    fixedDecode 4 (buf.drop 4) = some valueSize ∧ keySize + valueSize + 8 = info.length ∧
    (live.isSome = true →
      fixedDecode 4 (buf.drop info.length) = some (crc32c (buf.take info.length) % 2 ^ 32) →
      8 ≤ keySize)

end Read

variable {crc32c : Bytes → ℕ} {live : Option ℕ} {info : VLogEntryInfo} {buf data v : Bytes}

/-- Where nothing is read outside the buffer, the sizes add up as numbers. -/
theorem sizes_of_crc {keySize valueSize crc : ℕ} (fits : info.length < 2 ^ 32)
    (size : buf.length = fetchSize info)
    (sum : (keySize + valueSize + 8) % 2 ^ 32 = info.length)
    (stored : fixedDecode 4 (buf.drop (8 + keySize + valueSize)) = some crc) :
    keySize + valueSize + 8 = info.length ∧ fetchSize info = info.length + kBlockTrailerSize := by
  have hlen := length_of_fixedDecode stored
  rw [List.length_drop, size] at hlen
  simp only [fetchSize, kBlockTrailerSize] at hlen ⊢
  omega

/-- The check of the expiry fails its assertion on a key that is too short. -/
theorem expiryCheck_ne_fault {key value : Bytes} :
    expiryCheck live key value ≠ .fault ↔ (live.isSome = true → 8 ≤ key.length) := by
  cases live with
  | none => simp [expiryCheck]
  | some l =>
      by_cases hlong : 8 ≤ key.length
      · obtain ⟨t, ht⟩ := fixedDecode_isSome (w := 8) (b := key.drop (key.length - 8))
          (by rw [List.length_drop]; omega)
        simp only [expiryCheck, InternalKey.decode, if_pos hlong, ht, Option.map_some,
          Outcome.ofOption_some, Outcome.ok_bind]
        split <;> simp [hlong]
      · simp [expiryCheck, InternalKey.decode, hlong]

/-- What a header that agrees says about the fetch. -/
theorem fetchSize_of_sizes (fits : info.length < 2 ^ 32) (size : buf.length = fetchSize info)
    {keySize valueSize : ℕ} (key : fixedDecode 4 buf = some keySize)
    (sum : keySize + valueSize + 8 = info.length) :
    fetchSize info = info.length + kBlockTrailerSize := by
  have hlen := length_of_fixedDecode key
  rw [size] at hlen
  simp only [fetchSize, kBlockTrailerSize] at hlen ⊢
  omega

/-- The check behind a header that agrees: the checksum, then the expiry. -/
theorem check_of_sizes (fits : info.length < 2 ^ 32) (size : buf.length = fetchSize info)
    {keySize valueSize : ℕ} (key : fixedDecode 4 buf = some keySize)
    (value : fixedDecode 4 (buf.drop 4) = some valueSize)
    (sum : keySize + valueSize + 8 = info.length) :
    checkRecord crc32c live info buf =
      if fixedDecode 4 (buf.drop info.length) = some (crc32c (buf.take info.length) % 2 ^ 32) then
        expiryCheck live ((buf.drop 8).take keySize) ((buf.drop (keySize + 8)).take valueSize)
      else .fail .kCorruption := by
  have hfetch := fetchSize_of_sizes fits size key sum
  have hmod : (keySize + valueSize + 8) % 2 ^ 32 = info.length := by
    rw [sum, Nat.mod_eq_of_lt fits]
  have hat : 8 + keySize + valueSize = info.length := by omega
  obtain ⟨crc, hcrc⟩ := fixedDecode_isSome (w := 4) (b := buf.drop info.length) (by
    rw [List.length_drop, size, hfetch, kBlockTrailerSize]
    omega)
  simp only [checkRecord, if_neg (not_not.mpr size), key, value, Outcome.ofOption_some, Outcome.ok_bind,
    hmod, ne_eq, not_true_eq_false, if_false, hat, hcrc, Option.some.injEq]
  by_cases hmatch : crc = crc32c (buf.take info.length) % 2 ^ 32
  · rw [if_neg (not_not.mpr hmatch), if_pos hmatch]
  · rw [if_pos hmatch, if_neg hmatch]

/-- **When the check of fetched bytes has no fault.** -/
theorem check_ne_fault_iff (fits : info.length < 2 ^ 32) (size : buf.length = fetchSize info) :
    checkRecord crc32c live info buf ≠ .fault ↔ HeaderAgrees crc32c live info buf := by
  have hkeyLength : ∀ {k : ℕ}, fetchSize info = info.length + kBlockTrailerSize →
      k + 8 ≤ info.length → ((buf.drop 8).take k).length = k := by
    intro k hfetch hle
    rw [List.length_take, List.length_drop, size, hfetch]
    omega
  constructor
  · intro hdefined
    cases hkey : fixedDecode 4 buf with
    | none => simp [checkRecord, size, hkey] at hdefined
    | some k =>
        cases hvalue : fixedDecode 4 (buf.drop 4) with
        | none => simp [checkRecord, size, hkey, hvalue] at hdefined
        | some v =>
            have hstart := hdefined
            simp only [checkRecord, if_neg (not_not.mpr size), hkey, hvalue, Outcome.ofOption_some,
              Outcome.ok_bind] at hstart
            split at hstart
            · exact absurd rfl hstart
            · rename_i hmod
              cases hcrc : fixedDecode 4 (buf.drop (8 + k + v)) with
              | none => simp [hcrc] at hstart
              | some crc =>
                  obtain ⟨hsum, hfetch⟩ := sizes_of_crc fits size (not_not.mp hmod) hcrc
                  refine ⟨k, v, hkey, hvalue, hsum, fun hlive hmatch => ?_⟩
                  rw [check_of_sizes fits size hkey hvalue hsum, if_pos hmatch,
                    expiryCheck_ne_fault] at hdefined
                  have := hdefined hlive
                  rwa [hkeyLength hfetch (by omega)] at this
  · rintro ⟨k, v, hkey, hvalue, hsum, hlong⟩
    have hfetch := fetchSize_of_sizes fits size hkey hsum
    rw [check_of_sizes fits size hkey hvalue hsum]
    split
    · rename_i hmatch
      rw [expiryCheck_ne_fault, hkeyLength hfetch (by omega)]
      exact fun hlive => hlong hlive hmatch
    · simp

/-- A value that the check lets through. -/
theorem announced_of_check (fits : info.length < 2 ^ 32) (ok : checkRecord crc32c live info buf = .ok v) :
    ∃ keySize, buf.length = info.length + kBlockTrailerSize ∧ fixedDecode 4 buf = some keySize ∧
      fixedDecode 4 (buf.drop 4) = some v.length ∧ keySize + v.length + 8 = info.length ∧
      fixedDecode 4 (buf.drop info.length) = some (crc32c (buf.take info.length) % 2 ^ 32) ∧
      v = (buf.drop (8 + keySize)).take v.length := by
  have hsize : buf.length = fetchSize info := by
    by_contra hne
    simp [checkRecord, hne] at ok
  obtain ⟨k, n, hkey, hvalue, hsum, -⟩ :=
    (check_ne_fault_iff fits hsize).mp (show checkRecord crc32c live info buf ≠ .fault by rw [ok]; simp)
  have hfetch := fetchSize_of_sizes fits hsize hkey hsum
  rw [check_of_sizes fits hsize hkey hvalue hsum] at ok
  split at ok
  · rename_i hmatch
    obtain rfl : (buf.drop (k + 8)).take n = v := by
      unfold expiryCheck at ok
      split at ok
      · exact Outcome.ok.inj ok
      · obtain ⟨key, -, ok⟩ := Outcome.bind_eq_ok.mp ok
        split at ok
        · simp at ok
        · exact Outcome.ok.inj ok
    have hlen : ((buf.drop (k + 8)).take n).length = n := by
      rw [List.length_take, List.length_drop, hsize, hfetch]
      omega
    rw [hlen]
    exact ⟨k, hsize.trans hfetch, hkey, hvalue, hsum, hmatch, by rw [Nat.add_comm 8 k]⟩
  · simp at ok

/-- **The contents on which `Read` does what it should**: the file cannot be opened or read, or one
read does not bring all that is asked for, or what is fetched starts with a header that agrees with
the location.  All others end in a read outside the fetched bytes or in a failed assertion. -/
theorem readsSafely_iff {file : Option Bytes} (fits : info.length < 2 ^ 32) :
    ReadsSafely crc32c live file info ↔ ∀ data, file = some data → info.offset < 2 ^ 63 →
      fetchSize info ≤ maxReadBytes →
      (readAt data info.offset (fetchSize info)).length = fetchSize info →
      HeaderAgrees crc32c live info (readAt data info.offset (fetchSize info)) := by
  constructor
  · rintro ⟨hdefined, -⟩ data rfl hoffset hone hsize
    rw [read_some crc32c live data hoffset, vlogRead, pread_of_le hone] at hdefined
    exact (check_ne_fault_iff fits hsize).mp hdefined
  · intro hagrees
    cases file with
    | none => exact ⟨by simp [read], fun v hv => by simp [read] at hv⟩
    | some data =>
        by_cases hoffset : info.offset < 2 ^ 63
        · have hread := read_some crc32c live data hoffset
          rw [vlogRead] at hread
          refine ⟨?_, fun v hv => ?_⟩
          · rw [hread]
            by_cases hsize : (Lsmkv.pread data info.offset (fetchSize info)).length = fetchSize info
            · have hone := le_of_length_pread hsize
              rw [pread_of_le hone] at hsize ⊢
              exact (check_ne_fault_iff fits hsize).mpr (hagrees data rfl hoffset hone hsize)
            · simp [checkRecord, hsize]
          · rw [hread] at hv
            obtain ⟨k, hlen, hrest⟩ := announced_of_check fits hv
            have hfetch : fetchSize info = info.length + kBlockTrailerSize := by
              have := length_pread_le data info.offset (fetchSize info)
              simp only [fetchSize, kBlockTrailerSize] at this hlen ⊢
              omega
            rw [hfetch] at hlen hrest
            rw [pread_of_length hlen] at hrest
            rw [pread_of_length hlen] at hlen
            exact ⟨data, k, rfl, hlen, hrest⟩
        · have hread : read crc32c live (some data) info = .fail .kIOError := by
            simp only [read, pread, if_neg hoffset, Outcome.fail_bind]
          refine ⟨by simp [hread], fun v hv => ?_⟩
          simp [hread] at hv

/-- A record of key and value of one byte each. -/
theorem readsSafely_record :
    ReadsSafely crc32cCastagnoli (some 3)
      (some (recordBytes crc32cCastagnoli (.ofWrite [1] 4 .kTypeValue) [9])) ⟨0, 0, 18⟩ := by
  refine (readsSafely_iff (by decide)).mpr fun data hdata _ _ _ => ?_
  obtain rfl := Option.some.inj hdata
  exact ⟨9, 1, rfl, rfl, rfl, fun _ _ => by decide⟩

/-- **A file of zeros**: the sizes of the header do not add up to the length of the location, and
the assertion fails, although the checksum would not match. -/
theorem not_readsSafely_zeros :
    ¬ ReadsSafely crc32cCastagnoli (some 0) (some (List.replicate 22 0)) ⟨0, 0, 18⟩ :=
  fun h => h.defined rfl

end VLogReader

end Lsmkv
