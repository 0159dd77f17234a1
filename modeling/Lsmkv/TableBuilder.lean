import Lsmkv.BlockFormat
import Lsmkv.Filter

/-!
# Building a table

`TableBuilder` (`src/include/builder.h`, `src/table_builder.cpp`) writes entries into
data blocks, closes a block when it has reached `block_size`, and defers the index
entry of a closed block until the next key is known.  `Finish` writes the last data
block, the filter block, the index block and the footer.

The file layer is taken to store what is appended, in order; every append succeeds, so
the status of the builder stays `kOk` and is left out.  `crc32c::Crc32c` is a
parameter: trailers are written with it and never read.  The model block is left out
too, since the builder is created with `open_model = false` everywhere.

`Builds` says what the state of a builder means in terms of the entries it was given:
a list of closed blocks, an open block, and an index that is behind by at most one
entry.  `finish_layout` is the outcome: the file is the data blocks, the filter, the
index of exactly these blocks and a footer that locates both.
-/

namespace Lsmkv

open ByteCode

/-! ## The builder -/

/-- `Option::block_size`. -/
def blockSize : ℕ := 16384

/-- `Option::kBlockTrailerSize`. -/
def kBlockTrailerSize : ℕ := 4

/-- The state of a `TableBuilder`; `file` is what has been appended so far. -/
structure TableBuilder where
  file : Bytes
  needNextIndexEntry : Bool
  indexBlock : Bytes
  dataBlock : Bytes
  dataBlockEntry : BlockEntryInfo
  numEntries : ℕ
  offset : ℕ
  lastKey : Bytes
  filterBlock : FilterBlockBuilder

namespace TableBuilder

/-- A builder on a new file. -/
def new : TableBuilder where
  file := []
  needNextIndexEntry := false
  indexBlock := []
  dataBlock := []
  dataBlockEntry := ⟨0, 0⟩
  numEntries := 0
  offset := 0
  lastKey := []
  filterBlock := .new

/-- `ApproximateFileSize`. -/
def approximateFileSize (b : TableBuilder) : ℕ :=
  b.offset + b.indexBlock.length + b.dataBlock.length + kBlockTrailerSize
    + b.filterBlock.buffer.length

/-- `SetLastKey`. -/
def setLastKey (b : TableBuilder) (key : InternalKey) : TableBuilder :=
  { b with lastKey := key.encode }

/-- The index entry a builder still owes, written at the next key or by `Finish`. -/
def addIndexEntry (b : TableBuilder) : TableBuilder :=
  if b.needNextIndexEntry then
    { b with
      indexBlock := b.indexBlock ++ entryBytes (b.lastKey, b.dataBlockEntry.encode)
      needNextIndexEntry := false }
  else b

/-- The middle of `Add`: the entry enters the open block and the filter. -/
def appendEntry (b : TableBuilder) (key : InternalKey) (value : Bytes) : TableBuilder :=
  { b with
    lastKey := key.encode
    filterBlock := b.filterBlock.addKey key.userKey
    numEntries := b.numEntries + 1
    dataBlock := b.dataBlock ++ entryBytes (key.encode, value) }

variable (crc32c : Bytes → ℕ)

/-- A block on disk: its contents and the checksum. -/
def rawBlock (raw : Bytes) : Bytes := raw ++ fixedEncode kBlockTrailerSize (crc32c raw)

/-- `WriteRawBlock(raw, handle)`: the handle and the builder afterwards. -/
def writeRawBlock (b : TableBuilder) (raw : Bytes) : BlockEntryInfo × TableBuilder :=
  (⟨b.offset, raw.length⟩,
    { b with
      file := b.file ++ rawBlock crc32c raw
      offset := b.offset + (raw.length + kBlockTrailerSize) })

/-- `Flush(next_index_entry)`: hash the keys of the open block, and write the block
unless it is empty. -/
def flushWith (b : TableBuilder) (nextIndexEntry : Bool) : TableBuilder :=
  let b := { b with filterBlock := b.filterBlock.flush }
  if b.dataBlock.isEmpty then b
  else
    let (handle, b) := b.writeRawBlock crc32c b.dataBlock
    { b with dataBlock := [], dataBlockEntry := handle, needNextIndexEntry := nextIndexEntry }

/-- `Flush()`, with the default argument. -/
def flush (b : TableBuilder) : TableBuilder := b.flushWith crc32c true

/-- `Add(key, value)`. -/
def add (b : TableBuilder) (key : InternalKey) (value : Bytes) : TableBuilder :=
  let b := b.addIndexEntry.appendEntry key value
  if blockSize ≤ b.dataBlock.length then b.flush crc32c else b

/-- `Add(key, value, info)`, the variant of the value log: it reports offset and
length of the record, the length in 32 bits, and leaves `last_key_` alone unless the
block is full. -/
def addInfo (b : TableBuilder) (key : InternalKey) (value : Bytes) :
    TableBuilder × ℕ × ℕ :=
  let b := b.addIndexEntry
  let offset := b.offset + b.dataBlock.length
  let length := (value.length + key.encode.length + 8) % 2 ^ 32
  let b := { b.appendEntry key value with lastKey := b.lastKey }
  let b := if blockSize ≤ b.dataBlock.length then (b.setLastKey key).flush crc32c else b
  (b, offset, length)

/-- `Finish`: the finished file.  An empty index block is not written and leaves its
handle zero. -/
def finish (b : TableBuilder) : Bytes :=
  let b := b.flush crc32c
  let (filterBlockHandle, b) := b.writeRawBlock crc32c b.filterBlock.finish
  let b := b.addIndexEntry
  let (indexBlockHandle, b) :=
    if b.indexBlock.isEmpty then (⟨0, 0⟩, b) else b.writeRawBlock crc32c b.indexBlock
  b.file ++ (Footer.mk filterBlockHandle indexBlockHandle ⟨0, 0⟩).encode

/-- `Add` for each entry of a list. -/
def addAll (b : TableBuilder) (es : List (Entry Bytes)) : TableBuilder :=
  es.foldl (fun b e => b.add crc32c e.key e.value) b

end TableBuilder

/-- The file written for a list of entries, as `BuildTable` writes it: `Add` for
each entry, `SetLastKey` of the last one, `Finish`. -/
def tableFile (crc32c : Bytes → ℕ) (es : List (Entry Bytes)) : Bytes :=
  let b := TableBuilder.new.addAll crc32c es
  let b := match es.getLast? with
    | some e => b.setLastKey e.key
    | none => b
  b.finish crc32c

/-! ## What a builder stands for -/

/-- An entry as a block stores it. -/
def Entry.toBlock (e : Entry Bytes) : Bytes × Bytes := (e.key.encode, e.value)

/-- The contents of a data block. -/
def blockContents (blk : List (Entry Bytes)) : Bytes := blockBytes (blk.map Entry.toBlock)

/-- The last key of a list of entries, in its byte form. -/
def lastKeyBytes (es : List (Entry Bytes)) : Bytes := (es.getLast?.map (·.key.encode)).getD []

/-- The index entry of a block at the given offset. -/
def indexEntry (offset : ℕ) (blk : List (Entry Bytes)) : Bytes × Bytes :=
  (lastKeyBytes blk, (BlockEntryInfo.mk offset (blockContents blk).length).encode)

/-- The index entries of consecutive blocks, the first at the given offset. -/
def indexEntries : ℕ → List (List (Entry Bytes)) → List (Bytes × Bytes)
  | _, [] => []
  | offset, blk :: blocks =>
      indexEntry offset blk
        :: indexEntries (offset + ((blockContents blk).length + kBlockTrailerSize)) blocks

/-- The bytes of consecutive data blocks. -/
def dataBytes (crc32c : Bytes → ℕ) (blocks : List (List (Entry Bytes))) : Bytes :=
  (blocks.map fun blk => TableBuilder.rawBlock crc32c (blockContents blk)).flatten

/-- The footer of a table with the given blocks and filter. -/
def layoutFooter (crc32c : Bytes → ℕ) (blocks : List (List (Entry Bytes))) (filter : Bytes) :
    Footer where
  metaindexHandle := ⟨(dataBytes crc32c blocks).length, filter.length⟩
  indexHandle := ⟨(dataBytes crc32c blocks).length + (filter.length + kBlockTrailerSize),
    (blockBytes (indexEntries 0 blocks)).length⟩
  modelHandle := ⟨0, 0⟩

/-- A table file described by its parts: data blocks, filter, index, footer. -/
def layoutFile (crc32c : Bytes → ℕ) (blocks : List (List (Entry Bytes))) (filter : Bytes) :
    Bytes :=
  dataBytes crc32c blocks ++ TableBuilder.rawBlock crc32c filter
    ++ TableBuilder.rawBlock crc32c (blockBytes (indexEntries 0 blocks))
    ++ (layoutFooter crc32c blocks filter).encode

variable {crc32c : Bytes → ℕ}

@[simp] theorem blockContents_append (xs ys : List (Entry Bytes)) :
    blockContents (xs ++ ys) = blockContents xs ++ blockContents ys := by
  simp [blockContents]

theorem blockContents_eq_nil {blk : List (Entry Bytes)} : blockContents blk = [] ↔ blk = [] := by
  simp [blockContents, blockBytes_eq_nil]

@[simp] theorem lastKeyBytes_concat (es : List (Entry Bytes)) (e : Entry Bytes) :
    lastKeyBytes (es ++ [e]) = e.key.encode := by
  simp [lastKeyBytes]

theorem lastKeyBytes_append {es fs : List (Entry Bytes)} (ne : fs ≠ []) :
    lastKeyBytes (es ++ fs) = lastKeyBytes fs := by
  simp [lastKeyBytes, List.getLast?_append_of_ne_nil _ ne]

@[simp] theorem TableBuilder.length_rawBlock (raw : Bytes) :
    (TableBuilder.rawBlock crc32c raw).length = raw.length + kBlockTrailerSize := by
  simp [TableBuilder.rawBlock]

@[simp] theorem dataBytes_append (xs ys : List (List (Entry Bytes))) :
    dataBytes crc32c (xs ++ ys) = dataBytes crc32c xs ++ dataBytes crc32c ys := by
  simp [dataBytes]

@[simp] theorem dataBytes_cons (blk : List (Entry Bytes)) (blocks : List (List (Entry Bytes))) :
    dataBytes crc32c (blk :: blocks)
      = TableBuilder.rawBlock crc32c (blockContents blk) ++ dataBytes crc32c blocks := by
  simp [dataBytes]

@[simp] theorem dataBytes_nil : dataBytes crc32c [] = [] := rfl

/-- The index of one more block: its offset is the end of the blocks before it. -/
theorem indexEntries_append (crc32c : Bytes → ℕ) (offset : ℕ) (xs ys : List (List (Entry Bytes))) :
    indexEntries offset (xs ++ ys)
      = indexEntries offset xs ++ indexEntries (offset + (dataBytes crc32c xs).length) ys := by
  induction xs generalizing offset with
  | nil => simp [indexEntries]
  | cons x xs ih => simp [indexEntries, ih, Nat.add_assoc]

namespace TableBuilder

/-- The index block with the entry still owed. -/
def fullIndex (b : TableBuilder) : Bytes :=
  if b.needNextIndexEntry then b.indexBlock ++ entryBytes (b.lastKey, b.dataBlockEntry.encode)
  else b.indexBlock

theorem addIndexEntry_eq (b : TableBuilder) :
    b.addIndexEntry = { b with indexBlock := b.fullIndex, needNextIndexEntry := false } := by
  cases b with
  | mk file need index data handle n offset lastKey filter =>
      cases need <;> rfl

/-- **What the state of a builder means.**  It was given the entries of the closed
`blocks` and of the open block `cur`; the file holds the closed blocks, and the index
block together with the entry still owed indexes exactly them. -/
structure Opened (crc32c : Bytes → ℕ) (b : TableBuilder)
    (blocks : List (List (Entry Bytes))) (cur : List (Entry Bytes)) : Prop where
  file_eq : b.file = dataBytes crc32c blocks
  offset_eq : b.offset = (dataBytes crc32c blocks).length
  data_eq : b.dataBlock = blockContents cur
  index_eq : b.fullIndex = blockBytes (indexEntries 0 blocks)
  owed : b.needNextIndexEntry = true → cur = []
  last : blocks.flatten ++ cur ≠ [] → b.lastKey = lastKeyBytes (blocks.flatten ++ cur)
  covers : b.filterBlock.Covers ((blocks.flatten ++ cur).map (·.key.userKey))
  room : b.filterBlock.keyBuf.length ≤ b.dataBlock.length
  nonempty : ∀ blk ∈ blocks, blk ≠ []

/-- Between two calls the open block is not full. -/
structure Builds (crc32c : Bytes → ℕ) (b : TableBuilder)
    (blocks : List (List (Entry Bytes))) (cur : List (Entry Bytes)) : Prop
    extends Opened crc32c b blocks cur where
  block : (blockContents cur).length < blockSize

theorem builds_new (crc32c : Bytes → ℕ) : Builds crc32c new [] [] where
  file_eq := rfl
  offset_eq := rfl
  data_eq := rfl
  index_eq := rfl
  owed := by simp [new]
  last := by simp
  covers := FilterBlockBuilder.covers_new
  room := le_rfl
  nonempty := by simp
  block := by decide

/-- Closing a non-empty open block moves it to the closed ones. -/
theorem Opened.flush {b : TableBuilder} {blocks : List (List (Entry Bytes))}
    {cur : List (Entry Bytes)} (h : Opened crc32c b blocks cur) (ne : cur ≠ []) :
    Builds crc32c (b.flush crc32c) (blocks ++ [cur]) [] := by
  have hneed : b.needNextIndexEntry = false := by
    cases hn : b.needNextIndexEntry with
    | false => rfl
    | true => exact absurd (h.owed hn) ne
  have hdata : b.dataBlock.isEmpty = false := by
    simpa [h.data_eq, blockContents_eq_nil] using ne
  have hindex : b.indexBlock = blockBytes (indexEntries 0 blocks) := by
    simpa [fullIndex, hneed] using h.index_eq
  have hlast : b.lastKey = lastKeyBytes cur := by
    rw [h.last (by simp [ne]), lastKeyBytes_append ne]
  have hflush : b.flush crc32c = { b with
      filterBlock := b.filterBlock.flush
      file := b.file ++ rawBlock crc32c b.dataBlock
      offset := b.offset + (b.dataBlock.length + kBlockTrailerSize)
      dataBlock := []
      dataBlockEntry := ⟨b.offset, b.dataBlock.length⟩
      needNextIndexEntry := true } := by
    simp [TableBuilder.flush, flushWith, hdata, writeRawBlock]
  rw [hflush]
  refine
    { file_eq := by simp [h.file_eq, h.data_eq]
      offset_eq := by simp [h.offset_eq, h.data_eq]
      data_eq := rfl
      index_eq := ?_
      owed := fun _ => rfl
      last := fun _ => ?_
      covers := by simpa using h.covers.flush
      room := by simp [h.covers.toInside.flush.2]
      nonempty := ?_
      block := by decide }
  · simp [fullIndex, indexEntries_append crc32c, indexEntries, indexEntry,
      hindex, hlast, h.offset_eq, h.data_eq]
  · simp [hlast, lastKeyBytes_append ne]
  · intro blk hblk
    rcases List.mem_append.mp hblk with hblk | hblk
    · exact h.nonempty blk hblk
    · rwa [List.mem_singleton.mp hblk]

/-- `Flush()` closes the open block, if it has an entry. -/
theorem Builds.flush {b : TableBuilder} {blocks : List (List (Entry Bytes))}
    {cur : List (Entry Bytes)} (h : Builds crc32c b blocks cur) :
    Builds crc32c (b.flush crc32c) (blocks ++ if cur.isEmpty then [] else [cur]) [] := by
  by_cases hcur : cur = []
  · subst hcur
    have hdata : b.dataBlock = [] := h.data_eq
    have hflush : b.flush crc32c = { b with filterBlock := b.filterBlock.flush } := by
      simp [TableBuilder.flush, flushWith, hdata]
    have hbuilds : Builds crc32c { b with filterBlock := b.filterBlock.flush } blocks [] :=
      ⟨⟨h.file_eq, h.offset_eq, h.data_eq, h.index_eq, h.owed, h.last, h.covers.flush,
        by simp [h.covers.toInside.flush.2], h.nonempty⟩, h.block⟩
    rw [hflush]
    simpa using hbuilds
  · simpa [hcur] using h.toOpened.flush hcur

/-- `Add` puts the entry at the end of the open block and closes the block when it
is full. -/
theorem Builds.add {b : TableBuilder} {blocks : List (List (Entry Bytes))}
    {cur : List (Entry Bytes)} (h : Builds crc32c b blocks cur) (e : Entry Bytes) :
    if blockSize ≤ (blockContents (cur ++ [e])).length then
      Builds crc32c (b.add crc32c e.key e.value) (blocks ++ [cur ++ [e]]) []
    else Builds crc32c (b.add crc32c e.key e.value) blocks (cur ++ [e]) := by
  have hroom : b.filterBlock.keyBuf.length < 2 ^ 32 := by
    have hle := h.room
    rw [h.data_eq] at hle
    exact (hle.trans_lt h.block).trans (by decide)
  have hopen : Opened crc32c (b.addIndexEntry.appendEntry e.key e.value) blocks
      (cur ++ [e]) := by
    rw [addIndexEntry_eq]
    exact
      { file_eq := h.file_eq
        offset_eq := h.offset_eq
        data_eq := by simp [appendEntry, h.data_eq, blockContents, Entry.toBlock]
        index_eq := h.index_eq
        owed := by simp [appendEntry]
        last := fun _ => by
          rw [← List.append_assoc, lastKeyBytes_concat]
          rfl
        covers := by simpa [appendEntry] using h.covers.addKey hroom e.key.userKey
        room := by
          have hle := h.room
          simp only [appendEntry, FilterBlockBuilder.addKey, List.length_append, length_entryBytes,
            InternalKey.length_encode]
          omega
        nonempty := h.nonempty }
  by_cases hfull : blockSize ≤ (b.addIndexEntry.appendEntry e.key e.value).dataBlock.length
  · rw [if_pos (hopen.data_eq ▸ hfull)]
    simpa only [TableBuilder.add, if_pos hfull] using hopen.flush (by simp)
  · rw [if_neg (hopen.data_eq ▸ hfull)]
    have hbuilds : Builds crc32c (b.addIndexEntry.appendEntry e.key e.value) blocks (cur ++ [e]) :=
      ⟨hopen, hopen.data_eq ▸ not_le.mp hfull⟩
    simpa only [TableBuilder.add, if_neg hfull] using hbuilds

/-- A run of `Add`: the entries, in order, end up in the closed and the open
blocks. -/
theorem Builds.addAll {b : TableBuilder} {blocks : List (List (Entry Bytes))}
    {cur : List (Entry Bytes)} (h : Builds crc32c b blocks cur) (es : List (Entry Bytes)) :
    ∃ blocks' cur', Builds crc32c (b.addAll crc32c es) blocks' cur' ∧
      blocks'.flatten ++ cur' = blocks.flatten ++ cur ++ es := by
  induction es generalizing b blocks cur with
  | nil => exact ⟨blocks, cur, h, by simp⟩
  | cons e es ih =>
      have hadd := h.add e
      split at hadd
      · obtain ⟨blocks', cur', hb, heq⟩ := ih hadd
        exact ⟨blocks', cur', hb, by simp [heq]⟩
      · obtain ⟨blocks', cur', hb, heq⟩ := ih hadd
        exact ⟨blocks', cur', hb, by simp [heq]⟩

/-- `SetLastKey` of the last entry changes nothing: `Add` has already set it. -/
theorem Builds.setLastKey {b : TableBuilder} {blocks : List (List (Entry Bytes))}
    {cur : List (Entry Bytes)} (h : Builds crc32c b blocks cur) {e : Entry Bytes}
    (last : (blocks.flatten ++ cur).getLast? = some e) : b.setLastKey e.key = b := by
  have hne : blocks.flatten ++ cur ≠ [] := by
    intro hnil
    simp [hnil] at last
  have hkey : b.lastKey = e.key.encode := by
    rw [h.last hne, lastKeyBytes, last]
    rfl
  simp [TableBuilder.setLastKey, ← hkey]

/-- **The finished file.**  Data blocks that hold the entries in order, then the
filter, the index and the footer. -/
theorem Builds.finish {b : TableBuilder} {blocks : List (List (Entry Bytes))}
    (h : Builds crc32c b blocks []) (ne : blocks ≠ []) :
    b.finish crc32c = layoutFile crc32c blocks b.filterBlock.flush.finish := by
  have hindex : (blockBytes (indexEntries 0 blocks)).isEmpty = false := by
    cases blocks with
    | nil => exact absurd rfl ne
    | cons blk blocks => simp [indexEntries, entryBytes_ne_nil]
  have hdata : b.dataBlock = [] := h.data_eq
  -- Writing the filter block touches neither the index nor the entry owed to it.
  have hfull (file : Bytes) (offset : ℕ) (filter : FilterBlockBuilder) :
      { b with file := file, offset := offset, filterBlock := filter, dataBlock := [] }.fullIndex
        = blockBytes (indexEntries 0 blocks) := h.index_eq
  simp only [TableBuilder.finish, TableBuilder.flush, flushWith, hdata, List.isEmpty_nil, if_true,
    writeRawBlock, layoutFile, layoutFooter, addIndexEntry_eq, hfull, hindex, h.file_eq, h.offset_eq]
  simp

theorem flush_flush (b : TableBuilder) : (b.flush crc32c).flush crc32c = b.flush crc32c := by
  have hfilter : b.filterBlock.flush.flush = b.filterBlock.flush := by
    rw [FilterBlockBuilder.flush, FilterBlockBuilder.keys_flush]
    rfl
  by_cases hdata : b.dataBlock.isEmpty = true
  · simp [TableBuilder.flush, flushWith, hdata, hfilter]
  · simp [TableBuilder.flush, flushWith, hdata, hfilter, writeRawBlock]

theorem file_prefix_flush (crc32c : Bytes → ℕ) (b : TableBuilder) : b.file <+: (b.flush crc32c).file := by
  by_cases hdata : b.dataBlock.isEmpty = true
  · simp [TableBuilder.flush, flushWith, hdata]
  · simp [TableBuilder.flush, flushWith, hdata, writeRawBlock]

/-- `Finish` only appends. -/
theorem file_prefix_finish (b : TableBuilder) : b.file <+: b.finish crc32c := by
  refine (file_prefix_flush crc32c b).trans ?_
  simp only [TableBuilder.finish, writeRawBlock, addIndexEntry_eq]
  split
  · simp
  · simp

theorem finish_flush (b : TableBuilder) :
    (b.flush crc32c).finish crc32c = b.finish crc32c := by
  rw [TableBuilder.finish, flush_flush, TableBuilder.finish]

end TableBuilder

/-- **The file of a builder with an open block**, which is closed by `Finish`. -/
theorem TableBuilder.Builds.finish_open {b : TableBuilder} {blocks : List (List (Entry Bytes))}
    {cur : List (Entry Bytes)} (h : Builds crc32c b blocks cur) (ne : blocks.flatten ++ cur ≠ []) :
    ∃ filter, filter.length = bloomSize ∧
      (∀ e ∈ blocks.flatten ++ cur, e.key.userKey.length < 2 ^ 32 →
        keyMayMatch e.key.userKey filter = true) ∧
      b.finish crc32c = layoutFile crc32c (blocks ++ if cur.isEmpty then [] else [cur]) filter := by
  have hflat : (blocks ++ if cur.isEmpty then [] else [cur]).flatten = blocks.flatten ++ cur := by
    split <;> simp_all
  have hb' : Builds crc32c (b.flush crc32c) _ [] := h.flush
  have hne : (blocks ++ if cur.isEmpty then [] else [cur]) ≠ [] := by
    intro hnil
    rw [hnil] at hflat
    exact ne (by simpa using hflat.symm)
  refine ⟨(b.flush crc32c).filterBlock.flush.finish, hb'.covers.flush.length_finish,
    fun e he hshort => ?_, ?_⟩
  · refine hb'.covers.flush.finish (List.mem_map_of_mem ?_) hshort
    simpa only [hflat, List.append_nil] using he
  · rw [← finish_flush, hb'.finish hne]

/-- `SetLastKey` sets the key that the builder has. -/
theorem tableFile_eq_finish (crc32c : Bytes → ℕ) (es : List (Entry Bytes)) :
    tableFile crc32c es = (TableBuilder.new.addAll crc32c es).finish crc32c := by
  obtain ⟨blocks, cur, hbuilds, hes⟩ := (TableBuilder.builds_new crc32c).addAll es
  simp only [List.flatten_nil, List.append_nil, List.nil_append] at hes
  cases hlast : es.getLast? with
  | none => simp only [tableFile, hlast]
  | some e =>
      simp only [tableFile, hlast]
      rw [hbuilds.setLastKey (by rw [hes, hlast])]

/-- The file of a table, in terms of the blocks of a builder that was given all entries. -/
theorem tableFile_of_builds {es : List (Entry Bytes)} (ne : es ≠ [])
    {blocks : List (List (Entry Bytes))} {cur : List (Entry Bytes)}
    (builds : TableBuilder.Builds crc32c (TableBuilder.new.addAll crc32c es) blocks cur)
    (entries : blocks.flatten ++ cur = es) :
    ∃ filter, filter.length = bloomSize ∧
      (∀ e ∈ es, e.key.userKey.length < 2 ^ 32 → keyMayMatch e.key.userKey filter = true) ∧
      tableFile crc32c es
        = layoutFile crc32c (blocks ++ if cur.isEmpty then [] else [cur]) filter := by
  have hfinish := builds.finish_open (by rwa [entries])
  rwa [entries, ← tableFile_eq_finish] at hfinish

/-- **The layout of a table file.**  The entries lie in order in non-empty data
blocks, the filter matches the user key of every entry, and the file is these parts
with their index and footer. -/
theorem tableFile_layout (crc32c : Bytes → ℕ) {es : List (Entry Bytes)} (ne : es ≠ []) :
    ∃ blocks filter, blocks.flatten = es ∧ (∀ blk ∈ blocks, blk ≠ []) ∧
      filter.length = bloomSize ∧
      (∀ e ∈ es, e.key.userKey.length < 2 ^ 32 → keyMayMatch e.key.userKey filter = true) ∧
      tableFile crc32c es = layoutFile crc32c blocks filter := by
  obtain ⟨blocks, cur, hbuilds, hes⟩ := (TableBuilder.builds_new crc32c).addAll es
  simp only [List.flatten_nil, List.append_nil, List.nil_append] at hes
  obtain ⟨filter, hlen, hmatch, hfile⟩ := tableFile_of_builds ne hbuilds hes
  refine ⟨_, filter, ?_, ?_, hlen, hmatch, hfile⟩
  · rw [← hes]
    split <;> simp_all
  · intro blk hblk
    rcases List.mem_append.mp hblk with hblk | hblk
    · exact hbuilds.nonempty blk hblk
    · split at hblk
      · simp at hblk
      · rw [List.mem_singleton.mp hblk]
        simp_all

theorem length_layoutFile (crc32c : Bytes → ℕ) (blocks : List (List (Entry Bytes))) (filter : Bytes) :
    (layoutFile crc32c blocks filter).length
      = (dataBytes crc32c blocks).length + (filter.length + kBlockTrailerSize)
        + ((blockBytes (indexEntries 0 blocks)).length + kBlockTrailerSize)
        + Footer.kEncodedLength := by
  simp [layoutFile]
  omega

/-- Trailers and index entries are at most as large as the blocks they belong to. -/
theorem length_data_index_le (crc32c : Bytes → ℕ) {blocks : List (List (Entry Bytes))}
    (nonempty : ∀ blk ∈ blocks, blk ≠ []) (offset : ℕ) :
    (dataBytes crc32c blocks).length + (blockBytes (indexEntries offset blocks)).length
      ≤ 4 * (blockContents blocks.flatten).length := by
  induction blocks generalizing offset with
  | nil => simp [indexEntries]
  | cons blk blocks ih =>
      have ih := ih (fun b hb => nonempty b (List.mem_cons_of_mem _ hb))
        (offset + ((blockContents blk).length + kBlockTrailerSize))
      have hlast : (lastKeyBytes blk).length + 8 ≤ (blockContents blk).length ∧
          8 ≤ (lastKeyBytes blk).length := by
        have hne := nonempty blk List.mem_cons_self
        rw [← List.dropLast_append_getLast hne, blockContents_append, lastKeyBytes_concat]
        simp [blockContents, Entry.toBlock]
        omega
      simp only [dataBytes_cons, indexEntries, blockBytes_cons, List.length_append,
        TableBuilder.length_rawBlock, length_entryBytes, indexEntry, BlockEntryInfo.length_encode,
        List.flatten_cons, blockContents_append, kBlockTrailerSize] at ih ⊢
      omega

/-- The size of a table is bounded by the size of its entries. -/
theorem length_tableFile_le {es : List (Entry Bytes)} (ne : es ≠ []) :
    (tableFile crc32c es).length ≤ 4 * (blockContents es).length + 8256 := by
  obtain ⟨blocks, filter, rfl, hnonempty, hlen, -, hfile⟩ := tableFile_layout crc32c ne
  have := length_data_index_le crc32c hnonempty 0
  rw [hfile, length_layoutFile, hlen]
  simp only [bloomSize, kBlockTrailerSize, Footer.kEncodedLength]
  omega

end Lsmkv
