import Lsmkv.Lib.FileDir
import Lsmkv.SSTReader

/-!
# The value log

Values are stored in value log files as records `entry | crc`, written by
`VLogBuilder` (`src/include/vlog_builder.h`) and read back by `VLogReader::Read`
(`src/include/reader.h`) from a `VLogEntryInfo`.

A value log file is a table file: `VLogBuilder` drives a `TableBuilder`, flushing after
each record so that each record is a block of its own, and closing the log appends the
filter, index and footer of a table behind the records.  Nothing but the records is ever
read.

A record is read with a single `pread64`, which returns at most `maxReadBytes` bytes.
`Recorded` says that a location points at the record of a key and value, and `Resolves` that
one read is enough for it.  A reader then gets the value (`readVLog_of_resolves`), an append
hands out the location of its record (`VLogBuilder.IsOpen.append`), and a location keeps
resolving while its file grows (`Resolves.mono`).
-/

namespace Lsmkv

open ByteCode Files

/-- The directory of value log files, by file number. -/
abbrev VLogDir := Dir ℕ Byte

/-! ## Reading -/

/-- The end of `VLogReader::Read`: a reader with a version refuses records below
`LastLivingSequence`. -/
def expiryCheck (live : Option ℕ) (internalKey value : Bytes) : Outcome Bytes :=
  match live with
  | none => .ok value
  | some liveSeq => do
      let key ← Outcome.ofOption (InternalKey.decode internalKey)
      if key.seq < liveSeq then .fail .kExpired else .ok value

/-- The most that one `pread64` returns, whatever it is asked for. -/
def maxReadBytes : ℕ := 0x7ffff000

/-- The single `pread64` of `RandomReadableFile::Read`, at an offset that is not negative. -/
def pread (data : Bytes) (offset n : ℕ) : Bytes := readAt data offset (min n maxReadBytes)

theorem pread_of_le {n : ℕ} (le : n ≤ maxReadBytes) (data : Bytes) (offset : ℕ) :
    pread data offset n = readAt data offset n := by
  rw [pread, Nat.min_eq_left le]

theorem length_pread_le (data : Bytes) (offset n : ℕ) :
    (pread data offset n).length ≤ min n maxReadBytes := List.length_take_le _ _

theorem le_of_length_pread {data : Bytes} {offset n : ℕ} (full : (pread data offset n).length = n) :
    n ≤ maxReadBytes := by
  have hle := length_pread_le data offset n
  omega

/-- A `pread64` that is not short is a full read. -/
theorem pread_of_length {data : Bytes} {offset n : ℕ} (full : (pread data offset n).length = n) :
    pread data offset n = readAt data offset n := pread_of_le (le_of_length_pread full) data offset

section Read

variable (crc32c : Bytes → ℕ)

/-- `info.length_ + Option::kBlockTrailerSize`, in 32 bits. -/
def fetchSize (info : VLogEntryInfo) : ℕ := (info.length + kBlockTrailerSize) % 2 ^ 32

/-- `VLogReader::Read` behind the fetch, on the bytes that were fetched.  `live` is
`LastLivingSequence` when the reader has a version, `none` when it has none.  Reads
outside the fetched bytes and the failed assertion are faults. -/
def checkRecord (live : Option ℕ) (info : VLogEntryInfo) (buf : Bytes) : Outcome Bytes :=
  if buf.length ≠ fetchSize info then .fail .kCorruption
  else do
    let keySize ← Outcome.ofOption (fixedDecode 4 buf)
    let valueSize ← Outcome.ofOption (fixedDecode 4 (buf.drop 4))
    if (keySize + valueSize + 8) % 2 ^ 32 ≠ info.length then .fault
    else do
      let crc32 ← Outcome.ofOption (fixedDecode 4 (buf.drop (8 + keySize + valueSize)))
      if crc32 ≠ crc32c (buf.take ((keySize + valueSize + 8) % 2 ^ 32)) % 2 ^ 32 then
        .fail .kCorruption
      else
        expiryCheck live ((buf.drop 8).take keySize) ((buf.drop (keySize + 8)).take valueSize)

/-- `VLogReader::Read` past `InitFile`, on the contents of the file. -/
def vlogRead (live : Option ℕ) (data : Bytes) (info : VLogEntryInfo) : Outcome Bytes :=
  checkRecord crc32c live info (pread data info.offset (fetchSize info))

/-- `VLogReader::Read` of a reader with nothing cached: open the file by its number,
then read. -/
def readVLog (live : Option ℕ) (d : VLogDir) (info : VLogEntryInfo) : Outcome Bytes :=
  match d.contents info.fileNo with
  | none => .fail .kIOError
  | some data => vlogRead crc32c live data info

end Read

/-- `Option::kMaxVLogSize`. -/
def kMaxVLogSize : ℕ := 134217728

/-- `VLogBuilder`: the number and the inode of the file it writes and the table
builder on it, which is null after `Close`. -/
structure VLogBuilder where
  fileNo : ℕ
  offset : ℕ
  inode : ℕ
  builder : Option TableBuilder

namespace VLogBuilder

/-- A new builder, with no file open. -/
def new : VLogBuilder := ⟨0, 0, 0, none⟩

/-- `Open(file_no)`. -/
def openFile (b : VLogBuilder) (d : VLogDir) (fileNo : ℕ) : VLogBuilder × VLogDir :=
  let (inode, d) := d.create fileNo
  (⟨fileNo, b.offset, inode, some .new⟩, d)

/-- `Full(value_sz)`; a null builder is dereferenced. -/
def full (b : VLogBuilder) (valueSz : ℕ) : Outcome Bool := do
  let builder ← Outcome.ofOption b.builder
  let offset := builder.approximateFileSize
  .ok (decide (kMaxVLogSize ≤ offset) ||
    (decide (kMaxVLogSize / 2 < offset) && decide (kMaxVLogSize / 2 < valueSz % 2 ^ 32)))

variable (crc32c : Bytes → ℕ)

/-- `Close` and `reset`: the destructor of the table builder finishes the file. -/
def close (b : VLogBuilder) (d : VLogDir) : VLogBuilder × VLogDir :=
  let d := match b.builder with
    | some builder => d.write b.inode (builder.finish crc32c)
    | none => d
  (⟨0, b.offset, b.inode, none⟩, d)

/-- `Append(internal_key, value, info)`: add the record and flush it to the file. -/
def append (b : VLogBuilder) (d : VLogDir) (key : InternalKey) (value : Bytes) :
    Outcome (VLogEntryInfo × VLogBuilder × VLogDir) := do
  let builder ← Outcome.ofOption b.builder
  let (builder, offset, length) := builder.addInfo crc32c key value
  let used := b.offset + length
  let nextIndex := decide (blockSize < used)
  let builder := (builder.setLastKey key).flushWith crc32c nextIndex
  .ok (⟨offset, b.fileNo, length⟩,
    { b with offset := if nextIndex then 0 else used, builder := some builder },
    d.write b.inode builder.file)

end VLogBuilder

/-! ## Locations that resolve -/

/-- The size of a record: key, tag, value and the two sizes. -/
def recordLength (key : InternalKey) (value : Bytes) : ℕ :=
  key.userKey.length + value.length + 16

/-- The bytes of a record, with its checksum. -/
def recordBytes (crc32c : Bytes → ℕ) (key : InternalKey) (value : Bytes) : Bytes :=
  TableBuilder.rawBlock crc32c (entryBytes (key.encode, value))

/-- **The location points at the record of the key and value.**  Length and trailer
together fit the 32-bit arithmetic of the reader. -/
structure Recorded (crc32c : Bytes → ℕ) (d : VLogDir) (info : VLogEntryInfo)
    (key : InternalKey) (value : Bytes) : Prop where
  record : ∃ i pre, d.inode info.fileNo = some i ∧ pre.length = info.offset ∧
    pre ++ recordBytes crc32c key value <+: d.data i
  length_eq : info.length = recordLength key value
  fits : info.length + kBlockTrailerSize < 2 ^ 32

/-- **The location resolves**: the record that it points at is no longer than one read. -/
structure Resolves (crc32c : Bytes → ℕ) (d : VLogDir) (info : VLogEntryInfo)
    (key : InternalKey) (value : Bytes) : Prop extends Recorded crc32c d info key value where
  readable : info.length + kBlockTrailerSize ≤ maxReadBytes

section Resolves

variable {crc32c : Bytes → ℕ} {d d' : VLogDir} {info : VLogEntryInfo} {key : InternalKey}
  {value : Bytes}

/-- A location keeps its record while its file grows. -/
theorem Recorded.mono (h : Recorded crc32c d info key value) (grows : d.Grows d' info.fileNo) :
    Recorded crc32c d' info key value := by
  obtain ⟨i, pre, hi, hlen, hpre⟩ := h.record
  obtain ⟨hi', hdata⟩ := grows i hi
  exact ⟨⟨i, pre, hi', hlen, hpre.trans hdata⟩, h.length_eq, h.fits⟩

theorem Recorded.fetchSize_eq (h : Recorded crc32c d info key value) :
    fetchSize info = info.length + kBlockTrailerSize := Nat.mod_eq_of_lt h.fits

theorem Recorded.resolves (h : Recorded crc32c d info key value)
    (readable : recordLength key value + kBlockTrailerSize ≤ maxReadBytes) :
    Resolves crc32c d info key value := ⟨h, h.length_eq ▸ readable⟩

/-- A location keeps resolving while its file grows. -/
theorem Resolves.mono (h : Resolves crc32c d info key value) (grows : d.Grows d' info.fileNo) :
    Resolves crc32c d' info key value :=
  ⟨h.toRecorded.mono grows, h.readable⟩

theorem length_recordBytes :
    (recordBytes crc32c key value).length = recordLength key value + kBlockTrailerSize := by
  simp [recordBytes, recordLength]
  omega

/-- What `Read` fetches for a location that resolves. -/
theorem readAt_of_record {data pre : Bytes} (pre_len : pre.length = info.offset)
    (record : pre ++ recordBytes crc32c key value <+: data)
    (length_eq : info.length = recordLength key value) :
    readAt data info.offset (info.length + kBlockTrailerSize)
      = recordBytes crc32c key value := by
  obtain ⟨rest, hrest⟩ := record
  exact readAt_of_eq pre rest (by rw [← hrest, List.append_assoc]) pre_len.symm
    (by rw [length_recordBytes, length_eq])

/-- `Read` when it has fetched the bytes of a record: the value, or `Expired`. -/
theorem checkRecord_of_record (fits : info.length + kBlockTrailerSize < 2 ^ 32)
    (length_eq : info.length = recordLength key value) (live : Option ℕ) :
    checkRecord crc32c live info (recordBytes crc32c key value)
      = expiryCheck live key.encode value := by
  -- no size of the record wraps around in 32 bits
  have hsizes : EntryFits (key.encode, value) := by
    simp only [EntryFits, InternalKey.length_encode]
    simp only [length_eq, recordLength, kBlockTrailerSize] at fits
    omega
  have hn : fetchSize info = info.length + kBlockTrailerSize := Nat.mod_eq_of_lt fits
  have hkey : key.encode.length % 2 ^ 32 = key.encode.length := by
    simp only [EntryFits] at hsizes
    exact Nat.mod_eq_of_lt (by omega)
  have hval : value.length % 2 ^ 32 = value.length := by
    simp only [EntryFits] at hsizes
    exact Nat.mod_eq_of_lt (by omega)
  have hsum : (key.encode.length + value.length + 8) % 2 ^ 32 = info.length := by
    simp only [InternalKey.length_encode, length_eq, recordLength, kBlockTrailerSize] at fits ⊢
    rw [Nat.mod_eq_of_lt (by omega)]
    omega
  have hlen : (recordBytes crc32c key value).length = info.length + kBlockTrailerSize := by
    rw [length_recordBytes, length_eq]
  have hentry : (entryBytes (key.encode, value)).length = info.length := by
    rw [length_entryBytes, length_eq, recordLength]
    simp
    omega
  -- the fields of the record, as `Read` decodes them
  have hkeySize : fixedDecode 4 (recordBytes crc32c key value) = some key.encode.length := by
    rw [recordBytes, TableBuilder.rawBlock, fixedDecode_key_size, hkey]
  have hvalueSize : fixedDecode 4 ((recordBytes crc32c key value).drop 4)
      = some value.length := by
    rw [recordBytes, TableBuilder.rawBlock, fixedDecode_value_size, hval]
  have hcrc : fixedDecode 4 ((recordBytes crc32c key value).drop
      (8 + key.encode.length + value.length))
      = some (crc32c (entryBytes (key.encode, value)) % 2 ^ 32) := by
    rw [recordBytes, TableBuilder.rawBlock, List.drop_left' (by simp; omega)]
    exact fixedDecode_fixedEncode 4 (crc32c (entryBytes (key.encode, value)))
  have htake : (recordBytes crc32c key value).take info.length
      = entryBytes (key.encode, value) := by
    rw [recordBytes, TableBuilder.rawBlock]
    exact List.take_left' hentry
  have hheader : (recordBytes crc32c key value).drop 8
      = key.encode ++ (value ++ fixedEncode kBlockTrailerSize
          (crc32c (entryBytes (key.encode, value)))) := by
    simp only [recordBytes, TableBuilder.rawBlock, entryBytes, List.append_assoc]
    rw [← List.append_assoc (fixedEncode 4 _)]
    exact List.drop_left' (by simp)
  have hdropKey : ((recordBytes crc32c key value).drop 8).take key.encode.length = key.encode := by
    rw [hheader, List.take_left]
  have hdropValue : ((recordBytes crc32c key value).drop (key.encode.length + 8)).take value.length
      = value := by
    rw [Nat.add_comm, ← List.drop_drop, hheader, List.drop_left, List.take_left]
  simp only [checkRecord, hn, hlen, ne_eq, not_true_eq_false, if_false, hkeySize,
    hvalueSize, Outcome.ofOption_some, Outcome.ok_bind, hsum, hcrc, htake, hdropValue, hdropKey]

/-- **`Read` of a location that resolves**, in the file that holds its record. -/
theorem Resolves.vlogRead (h : Resolves crc32c d info key value) {data pre : Bytes}
    (pre_len : pre.length = info.offset)
    (record : pre ++ recordBytes crc32c key value <+: data) (live : Option ℕ) :
    vlogRead crc32c live data info = expiryCheck live key.encode value := by
  rw [Lsmkv.vlogRead, h.fetchSize_eq, pread_of_le h.readable,
    readAt_of_record pre_len record h.length_eq]
  exact checkRecord_of_record h.fits h.length_eq live

/-- **Reading a location that resolves**, with no version at hand. -/
theorem readVLog_of_resolves (h : Resolves crc32c d info key value) :
    readVLog crc32c none d info = .ok value := by
  obtain ⟨i, pre, hi, hlen, hpre⟩ := h.record
  simpa [readVLog, Dir.contents, hi, expiryCheck] using h.vlogRead hlen hpre none

/-- What the check makes of a record with a key of the store. -/
theorem expiryCheck_eq {key : InternalKey} (tag : key.tag < 2 ^ 64) (live : ℕ) (value : Bytes) :
    expiryCheck (some live) key.encode value
      = if key.seq < live then .fail .kExpired else .ok value := by
  simp only [expiryCheck, InternalKey.decode_encode _ tag, Outcome.ofOption_some, Outcome.ok_bind]

/-- **Reading a location that resolves**, with a version at hand. -/
theorem readVLog_some_of_resolves (h : Resolves crc32c d info key value) (tag : key.tag < 2 ^ 64)
    (live : ℕ) :
    readVLog crc32c (some live) d info = if key.seq < live then .fail .kExpired else .ok value := by
  obtain ⟨i, pre, hi, hlen, hpre⟩ := h.record
  have hread := h.vlogRead hlen hpre (some live)
  rw [expiryCheck_eq tag] at hread
  simpa only [readVLog, Dir.contents, hi, Option.map_some] using hread

/-- With no sequence expired, the check passes every record. -/
theorem expiryCheck_zero (key : InternalKey) (value : Bytes) :
    expiryCheck (some 0) key.encode value = .ok value := by
  obtain ⟨t, ht⟩ := fixedDecode_isSome (w := 8) (b := key.encode.drop key.userKey.length) (by simp)
  simp [expiryCheck, InternalKey.decode, ht]

end Resolves

/-! ## Appending -/

namespace VLogBuilder

variable {crc32c : Bytes → ℕ} {d : VLogDir} {b : VLogBuilder} {t : TableBuilder}

/-- A builder with its file open: everything added is in the file, under its name. -/
structure IsOpen (b : VLogBuilder) (d : VLogDir) (t : TableBuilder) : Prop where
  builder : b.builder = some t
  dataBlock : t.dataBlock = []
  offset : t.offset = t.file.length
  inode : d.inode b.fileNo = some b.inode
  data : d.data b.inode = t.file

/-- Opening a new number. -/
theorem isOpen_openFile {n : ℕ} (fresh : d.inode n = none) :
    (b.openFile d n).1.IsOpen (b.openFile d n).2 .new where
  builder := rfl
  dataBlock := rfl
  offset := rfl
  inode := by simp [openFile, Dir.create, fresh]
  data := by simp [openFile, Dir.create, fresh, TableBuilder.new]

/-- Opening a number whose file may exist: it is truncated. -/
theorem isOpen_openFile_any (wf : d.WellFormed) (n : ℕ) :
    (b.openFile d n).1.IsOpen (b.openFile d n).2 .new := by
  obtain ⟨-, hinode, hdata, -⟩ := wf.create_any n
  exact ⟨rfl, rfl, rfl, hinode, hdata⟩

/-- A value log that was just opened has room. -/
theorem full_of_new (new : b.builder = some .new) (valueSz : ℕ) : b.full valueSz = .ok false := by
  have hsize : TableBuilder.new.approximateFileSize = 4 + bloomSize := by
    simp [TableBuilder.approximateFileSize, TableBuilder.new, FilterBlockBuilder.new,
      kBlockTrailerSize]
  simp [VLogBuilder.full, new, hsize, bloomSize, kMaxVLogSize]

/-- An open value log stays open while its own file is left alone. -/
theorem IsOpen.congr (h : b.IsOpen d t) {d' : VLogDir} (inode : d'.inode b.fileNo = d.inode b.fileNo)
    (data : d'.data b.inode = d.data b.inode) : b.IsOpen d' t :=
  ⟨h.builder, h.dataBlock, h.offset, inode.trans h.inode, data.trans h.data⟩

/-- The table builder after a record and its flush. -/
theorem appendRecord_eq (key : InternalKey) (value : Bytes) (next : Bool)
    (dataBlock : t.dataBlock = []) (offset : t.offset = t.file.length) :
    let added := t.addInfo crc32c key value
    let t' := (added.1.setLastKey key).flushWith crc32c next
    t'.file = t.file ++ recordBytes crc32c key value ∧ t'.dataBlock = [] ∧
      t'.offset = t'.file.length ∧ added.2.1 = t.file.length ∧
      added.2.2 = recordLength key value % 2 ^ 32 := by
  -- A record of a block or more is flushed by `Add`, and the second flush finds nothing.
  by_cases hfull : blockSize ≤ key.userKey.length + 8 + value.length + 8
  · simp [TableBuilder.addInfo, TableBuilder.addIndexEntry_eq, TableBuilder.appendEntry, dataBlock,
      hfull, TableBuilder.flush, TableBuilder.flushWith, TableBuilder.setLastKey,
      entryBytes_ne_nil, TableBuilder.writeRawBlock, recordBytes, offset, recordLength]
    omega
  · simp [TableBuilder.addInfo, TableBuilder.addIndexEntry_eq, TableBuilder.appendEntry, dataBlock,
      hfull, TableBuilder.flushWith, TableBuilder.setLastKey,
      entryBytes_ne_nil, TableBuilder.writeRawBlock, recordBytes, offset, recordLength]
    omega

/-- **An append writes the record behind what the file holds**, lets every file grow,
and returns its location when the record fits the length field. -/
theorem IsOpen.append (h : b.IsOpen d t) (crc32c : Bytes → ℕ) (key : InternalKey) (value : Bytes) :
    ∃ info b' d' t', b.append crc32c d key value = .ok (info, b', d') ∧ b'.IsOpen d' t' ∧
      (b'.fileNo = b.fileNo ∧ b'.inode = b.inode) ∧ (d'.inode = d.inode ∧ d'.next = d.next ∧
        ∀ i, i ≠ b.inode → d'.data i = d.data i) ∧ (∀ n, d.Grows d' n) ∧
      info.fileNo = b.fileNo ∧ info.length = recordLength key value % 2 ^ 32 ∧
      (recordLength key value + kBlockTrailerSize < 2 ^ 32 →
        Recorded crc32c d' info key value) := by
  let added := t.addInfo crc32c key value
  let used := b.offset + added.2.2
  let next := decide (blockSize < used)
  let t' := (added.1.setLastKey key).flushWith crc32c next
  obtain ⟨hfile, hblock, hoffset, hstart, hlength⟩ : t'.file = t.file ++ recordBytes crc32c key value ∧
      t'.dataBlock = [] ∧ t'.offset = t'.file.length ∧ added.2.1 = t.file.length ∧
      added.2.2 = recordLength key value % 2 ^ 32 :=
    appendRecord_eq key value next h.dataBlock h.offset
  refine ⟨⟨added.2.1, b.fileNo, added.2.2⟩,
    { b with offset := if next then 0 else used, builder := some t' }, d.write b.inode t'.file, t',
    ?_, ?_, ⟨rfl, rfl⟩, ⟨rfl, rfl, fun i hi => Function.update_of_ne hi _ _⟩, ?_, rfl, hlength, ?_⟩
  · simp only [VLogBuilder.append, h.builder, Outcome.ofOption_some, Outcome.ok_bind]
    rfl
  · exact ⟨rfl, hblock, hoffset, h.inode, by simp⟩
  · refine fun n => Dir.grows_write ?_ n
    rw [h.data, hfile]
    exact List.prefix_append _ _
  · intro hfits
    have hmod : recordLength key value % 2 ^ 32 = recordLength key value :=
      Nat.mod_eq_of_lt (by omega)
    refine ⟨⟨b.inode, t.file, h.inode, hstart.symm, ?_⟩, ?_, ?_⟩
    · simp [hfile]
    · rw [hlength, hmod]
    · rw [hlength, hmod]
      exact hfits

/-- Closing the log appends behind the records. -/
theorem IsOpen.grows_close (h : b.IsOpen d t) (n : ℕ) : d.Grows (b.close crc32c d).2 n := by
  simp only [close, h.builder]
  refine Dir.grows_write ?_ n
  rw [h.data]
  exact TableBuilder.file_prefix_finish t

end VLogBuilder

end Lsmkv
