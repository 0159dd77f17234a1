import Lsmkv.TableRead
import Lsmkv.UringContent

/-!
# The file of a table

`BuildTable` and `BuildWhenCompaction` write their tables to a `UringWritableFile`
(`src/builder.cpp`, `src/levelcache.cpp`): every block is appended with its trailer, a data
block is flushed, and the finished table is synchronised and closed.  An append that takes
the direct path damages what is appended behind it (`UringFile.content_ne`), and
something is appended behind every block.

`TableKept` says that no block of the table is so large, and `content_eq_bytes_iff` that
exactly these tables reach the disk.  A table of short keys is kept
(`TableKept.of_entriesLength`).
-/

namespace Lsmkv

open ByteCode UringFile

/-! ## The bytes of a table -/

namespace SSTFile

variable (crc32c : Bytes → ℕ) (t : SSTFile VLogEntryInfo)

/-- The builder of a table before `Finish`: `Add` for each entry, and `SetLastKey` of the largest
key of the table, which is the last one that was visited. -/
def builder : TableBuilder :=
  (TableBuilder.new.addAll crc32c (storedEntries t.entries)).setLastKey t.largest

/-- The bytes that the builder appends to the file of the table. -/
def bytes : Bytes := (t.builder crc32c).finish crc32c

end SSTFile

/-! ## The calls for a table -/

section Calls

variable (crc32c : Bytes → ℕ)

/-- `WriteRawBlock(raw, handle)`: the contents and the trailer. -/
def rawBlockCalls (raw : Bytes) : List Call :=
  [.append raw, .append (fixedEncode kBlockTrailerSize (crc32c raw))]

/-- `Flush` of a data block. -/
def dataBlockCalls (blk : List (Entry Bytes)) : List Call :=
  rawBlockCalls crc32c (blockContents blk) ++ [.flush]

/-- The footer behind data blocks, filter and index. -/
def footerBehind (blocks : List (List (Entry Bytes))) (filter index : Bytes) : Footer where
  metaindexHandle := ⟨(dataBytes crc32c blocks).length, filter.length⟩
  indexHandle := ⟨(dataBytes crc32c blocks).length + (filter.length + kBlockTrailerSize),
    index.length⟩
  modelHandle := ⟨0, 0⟩

/-- What is called for a table up to its `Close`: its data blocks, then `Finish` with the
filter, the index and the footer, and `Sync`. -/
def tableCalls (blocks : List (List (Entry Bytes))) (filter index : Bytes) : List Call :=
  blocks.flatMap (dataBlockCalls crc32c) ++ (rawBlockCalls crc32c filter ++
    (rawBlockCalls crc32c index ++
      [.append (footerBehind crc32c blocks filter index).encode, .sync]))

/-- The calls for a table. -/
def SSTFile.calls (t : SSTFile VLogEntryInfo) : List Call :=
  let b := (t.builder crc32c).flush crc32c
  tableCalls crc32c ((tableBlocks t.entries).map storedEntries) b.filterBlock.finish b.fullIndex

theorem appended_append (calls calls' : List Call) :
    appended (calls ++ calls') = appended calls ++ appended calls' := by
  simp [appended]

theorem appended_rawBlockCalls (raw : Bytes) :
    appended (rawBlockCalls crc32c raw) = TableBuilder.rawBlock crc32c raw := by
  simp [rawBlockCalls, Call.data, TableBuilder.rawBlock]

theorem appended_dataBlockCalls (blk : List (Entry Bytes)) :
    appended (dataBlockCalls crc32c blk) = TableBuilder.rawBlock crc32c (blockContents blk) := by
  rw [dataBlockCalls, appended_append, appended_rawBlockCalls]
  simp [Call.data]

theorem appended_tableCalls (blocks : List (List (Entry Bytes))) (filter index : Bytes) :
    appended (tableCalls crc32c blocks filter index) = dataBytes crc32c blocks ++
      (TableBuilder.rawBlock crc32c filter ++ (TableBuilder.rawBlock crc32c index ++
        (footerBehind crc32c blocks filter index).encode)) := by
  have hdata : appended (blocks.flatMap (dataBlockCalls crc32c)) = dataBytes crc32c blocks := by
    induction blocks with
    | nil => rfl
    | cons blk blocks ih =>
        rw [List.flatMap_cons, appended_append, ih, appended_dataBlockCalls, dataBytes_cons]
  simp only [tableCalls, appended_append, hdata, appended_rawBlockCalls]
  simp [Call.data]

end Calls

/-! ## The builder of a table -/

namespace TableBuilder

variable {crc32c : Bytes → ℕ} {b : TableBuilder}

theorem flush_setLastKey (key : InternalKey) :
    (b.setLastKey key).flush crc32c = (b.flush crc32c).setLastKey key := by
  by_cases hdata : b.dataBlock.isEmpty = true
  · simp [TableBuilder.flush, flushWith, setLastKey, hdata]
  · simp [TableBuilder.flush, flushWith, setLastKey, writeRawBlock, hdata]

/-- A builder whose last block is open, or has its index entry still to come. -/
def OwesIndex (b : TableBuilder) : Prop := b.needNextIndexEntry = true ∨ b.dataBlock ≠ []

theorem needNextIndexEntry_flush (owes : b.OwesIndex) :
    (b.flush crc32c).needNextIndexEntry = true := by
  by_cases hdata : b.dataBlock = []
  · have hneed := owes.resolve_right (not_not.mpr hdata)
    simp [TableBuilder.flush, flushWith, hdata, hneed]
  · simp [TableBuilder.flush, flushWith, hdata, writeRawBlock]

theorem owesIndex_add (key : InternalKey) (value : Bytes) : (b.add crc32c key value).OwesIndex := by
  have hdata : (b.addIndexEntry.appendEntry key value).dataBlock ≠ [] := by
    simp [appendEntry, entryBytes_ne_nil]
  rw [TableBuilder.add]
  split
  · exact .inl (needNextIndexEntry_flush (.inr hdata))
  · exact .inr hdata

theorem owesIndex_addAll {es : List (Entry Bytes)} (ne : es ≠ []) :
    (b.addAll crc32c es).OwesIndex := by
  rw [← List.dropLast_append_getLast ne, addAll, List.foldl_append]
  exact owesIndex_add _ _

/-- **The file of a builder with another last key**: only the last entry of the index has it. -/
theorem Builds.finish_setLastKey {blocks : List (List (Entry Bytes))} (h : Builds crc32c b blocks [])
    (owes : b.needNextIndexEntry = true) (key : InternalKey) :
    (b.setLastKey key).finish crc32c
      = appended (tableCalls crc32c blocks b.filterBlock.finish (b.setLastKey key).fullIndex) := by
  have hdata : b.dataBlock = [] := h.data_eq
  have hindex : ((b.setLastKey key).fullIndex).isEmpty = false := by
    simp [fullIndex, TableBuilder.setLastKey, owes, entryBytes_ne_nil]
  have hfull (file : Bytes) (offset : ℕ) (filter : FilterBlockBuilder) :
      { b.setLastKey key with
        file := file, offset := offset, filterBlock := filter, dataBlock := [] }.fullIndex
        = (b.setLastKey key).fullIndex := rfl
  have hfields : (b.setLastKey key).file = b.file ∧ (b.setLastKey key).offset = b.offset ∧
      (b.setLastKey key).filterBlock = b.filterBlock ∧ (b.setLastKey key).dataBlock = [] :=
    ⟨rfl, rfl, rfl, hdata⟩
  rw [appended_tableCalls, ← FilterBlockBuilder.finish_flush]
  simp only [TableBuilder.finish, TableBuilder.flush, flushWith, hfields, List.isEmpty_nil, if_true,
    writeRawBlock, footerBehind, addIndexEntry_eq, hfull, hindex, h.file_eq, h.offset_eq]
  simp

end TableBuilder

/-! ## Blocks that are too large -/

section Blocks

variable {β : Type}

/-- The bytes of the index block: an entry for each data block, under its last key, and for the
last one under the largest key of the table. -/
def indexLength (largest : InternalKey) (blocks : List (List (Entry β))) : ℕ :=
  ((indexKeys largest blocks).map fun key => key.userKey.length + 8 + 16 + 8).sum

/-- **The table reaches the disk**: no data block takes the direct path from an empty chunk,
nor the index block behind the filter and its trailer. -/
def TableKept (largest : InternalKey) (es : List (Entry β)) : Prop :=
  (∀ blk ∈ tableBlocks es, entriesLength blk < 98304) ∧
    indexLength largest (tableBlocks es) < 90108

instance (largest : InternalKey) (es : List (Entry β)) : Decidable (TableKept largest es) :=
  inferInstanceAs (Decidable (_ ∧ _))

/-- **The table reaches the disk.** -/
def SSTFile.Kept (t : SSTFile β) : Prop := TableKept t.largest t.entries

/-- The table that `BuildTable` makes of the entries reaches the disk.  Its largest key is its
last one. -/
def FlushKept (es : List (Entry β)) : Prop := ∀ e, es.getLast? = some e → TableKept e.key es

/-- Only the last entry of the index depends on the largest key. -/
theorem indexLength_add (largest largest' : InternalKey) {blocks : List (List (Entry β))}
    (nonempty : ∀ blk ∈ blocks, blk ≠ []) (ne : blocks ≠ []) :
    indexLength largest blocks + largest'.userKey.length
      = indexLength largest' blocks + largest.userKey.length := by
  induction blocks with
  | nil => exact absurd rfl ne
  | cons blk blocks ih =>
      cases blocks with
      | nil =>
          simp only [indexLength, indexKeys, List.map_cons, List.map_nil, List.sum_cons, List.sum_nil]
          omega
      | cons blk' blocks =>
          have ih := ih (fun b hb => nonempty b (List.mem_cons_of_mem _ hb)) (List.cons_ne_nil _ _)
          have hblk := nonempty blk List.mem_cons_self
          simp only [indexLength, indexKeys, List.getLast?_eq_getLast_of_ne_nil hblk, Option.map_some,
            Option.getD_some, List.map_cons, List.sum_cons] at ih ⊢
          omega

theorem entriesLength_append (es fs : List (Entry β)) :
    entriesLength (es ++ fs) = entriesLength es + entriesLength fs := by
  simp [entriesLength]

/-- Blocks behind the first end in the last entry of all. -/
theorem flatten_eq_concat_of_cons {blk blk' : List (Entry β)} {blocks : List (List (Entry β))}
    (nonempty : ∀ b ∈ blk' :: blocks, b ≠ []) {es : List (Entry β)} {e : Entry β}
    (entries : (blk :: blk' :: blocks).flatten = es ++ [e]) :
    ∃ init, (blk' :: blocks).flatten = init ++ [e] := by
  have hflat : (blk' :: blocks).flatten ≠ [] := by
    simp [nonempty blk' List.mem_cons_self]
  have hlast := List.dropLast_append_getLast hflat
  rw [List.flatten_cons, ← hlast, ← List.append_assoc] at entries
  rw [← List.singleton_inj.mp (List.append_inj' entries rfl).2]
  exact ⟨_, hlast.symm⟩

/-- An index is no longer than the entries it leads to, but for its last key. -/
theorem indexLength_le (largest : InternalKey) {blocks : List (List (Entry β))}
    (nonempty : ∀ blk ∈ blocks, blk ≠ []) {es : List (Entry β)} {e : Entry β}
    (entries : blocks.flatten = es ++ [e]) :
    indexLength largest blocks + e.key.userKey.length
      ≤ entriesLength blocks.flatten + largest.userKey.length := by
  induction blocks generalizing es with
  | nil => simp at entries
  | cons blk blocks ih =>
      have hne := nonempty blk List.mem_cons_self
      have hblk : entriesLength blk
          = entriesLength blk.dropLast + (((blk.getLast hne).key.userKey.length) + 8 + 16 + 8) := by
        conv_lhs => rw [← List.dropLast_append_getLast hne, entriesLength_append]
        simp [entriesLength]
      cases blocks with
      | nil =>
          rw [List.flatten_cons, List.flatten_nil, List.append_nil] at entries ⊢
          rw [entries, entriesLength_append]
          simp only [indexLength, indexKeys, entriesLength, List.map_cons, List.map_nil, List.sum_cons,
            List.sum_nil]
          omega
      | cons blk' blocks =>
          have hrest : ∀ b ∈ blk' :: blocks, b ≠ [] := fun b hb =>
            nonempty b (List.mem_cons_of_mem _ hb)
          obtain ⟨init, hinit⟩ := flatten_eq_concat_of_cons hrest entries
          have ih := ih hrest hinit
          rw [List.flatten_cons, entriesLength_append]
          simp only [indexLength, indexKeys, List.getLast?_eq_getLast_of_ne_nil hne, Option.map_some,
            Option.getD_some, List.map_cons, List.sum_cons] at ih ⊢
          omega

theorem entriesLength_le_of_mem {blocks : List (List (Entry β))} {blk : List (Entry β)}
    (mem : blk ∈ blocks) : entriesLength blk ≤ entriesLength blocks.flatten := by
  obtain ⟨before, after, rfl⟩ := List.append_of_mem mem
  rw [List.flatten_append, List.flatten_cons, entriesLength_append, entriesLength_append]
  omega

/-- **A small table is kept.** -/
theorem TableKept.of_entriesLength {es : List (Entry β)} {e : Entry β} {largest : InternalKey}
    (blocks : entriesLength (es ++ [e]) < 98304)
    (index : entriesLength (es ++ [e]) + largest.userKey.length
      < 90108 + e.key.userKey.length) : TableKept largest (es ++ [e]) := by
  have hflat := flatten_tableBlocks (es ++ [e])
  refine ⟨fun blk hblk => ?_, ?_⟩
  · have hle := entriesLength_le_of_mem hblk
    rw [hflat] at hle
    omega
  · have hle := indexLength_le largest (tableBlocks_nonempty (es ++ [e])) hflat
    rw [hflat] at hle
    omega

end Blocks

/-! ## The files of kept tables -/

section Kept

variable {crc32c : Bytes → ℕ} {calls : List Call} {call : Call} {pos : ℕ}

/-- A call that appends little does not take the direct path. -/
theorem nothingBehindDirect_cons_of_lt (small : call.data.length < kWritableFileBufferSize) :
    NothingBehindDirect pos (call :: calls) ↔ NothingBehindDirect (call.nextPos pos) calls := by
  have hbuffer := kWritableFileBufferSize_eq
  have hdirect : ¬ TakesDirect pos call.data.length := by
    unfold TakesDirect
    omega
  have hfits : call.data.length < 2 ^ 32 := by omega
  rw [NothingBehindDirect, if_neg hdirect, and_iff_right hfits]

/-- Calls that append little leave nothing behind a direct write. -/
theorem nothingBehindDirect_of_lt
    (small : ∀ call ∈ calls, call.data.length < kWritableFileBufferSize) :
    NothingBehindDirect pos calls := by
  induction calls generalizing pos with
  | nil => trivial
  | cons call calls ih =>
      rw [nothingBehindDirect_cons_of_lt (small call List.mem_cons_self)]
      exact ih fun c hc => small c (List.mem_cons_of_mem _ hc)

/-- An append with something behind it must not take the direct path. -/
theorem nothingBehindDirect_append_iff {data : Bytes} (more : appended calls ≠ []) :
    NothingBehindDirect pos (.append data :: calls) ↔ data.length < 2 ^ 32 ∧
      ¬ TakesDirect pos data.length ∧
      NothingBehindDirect (Call.nextPos pos (.append data)) calls := by
  rw [NothingBehindDirect, Call.data]
  by_cases hdirect : TakesDirect pos data.length
  · simp [hdirect, more]
  · simp [hdirect]

theorem length_trailer (raw : Bytes) :
    (fixedEncode kBlockTrailerSize (crc32c raw)).length < kWritableFileBufferSize := by
  simp [kBlockTrailerSize, kWritableFileBufferSize]

/-- The contents of a block and its trailer, from a position in the chunk. -/
theorem nothingBehindDirect_rawBlock_iff {raw : Bytes} :
    NothingBehindDirect pos (rawBlockCalls crc32c raw ++ calls) ↔ raw.length < 2 ^ 32 ∧
      ¬ TakesDirect pos raw.length ∧
      NothingBehindDirect (Call.nextPos (Call.nextPos pos (.append raw))
        (.append (fixedEncode kBlockTrailerSize (crc32c raw)))) calls := by
  have hmore : appended (.append (fixedEncode kBlockTrailerSize (crc32c raw)) :: calls) ≠ [] := by
    intro h
    have hlength := congrArg List.length h
    simp [Call.data, kBlockTrailerSize] at hlength
  rw [show rawBlockCalls crc32c raw ++ calls
      = .append raw :: .append (fixedEncode kBlockTrailerSize (crc32c raw)) :: calls from rfl,
    nothingBehindDirect_append_iff hmore]
  have htrailer : (Call.append (fixedEncode kBlockTrailerSize (crc32c raw))).data.length
      < kWritableFileBufferSize := length_trailer raw
  exact and_congr_right fun _ => and_congr_right fun _ => nothingBehindDirect_cons_of_lt htrailer

/-- A data block: the flush behind it empties the chunk. -/
theorem nothingBehindDirect_dataBlock_iff {blk : List (Entry Bytes)} :
    NothingBehindDirect 0 (dataBlockCalls crc32c blk ++ calls) ↔
      (blockContents blk).length < 98304 ∧ NothingBehindDirect 0 calls := by
  rw [dataBlockCalls, List.append_assoc, nothingBehindDirect_rawBlock_iff]
  have hflush : ∀ p, NothingBehindDirect p ([.flush] ++ calls) ↔ NothingBehindDirect 0 calls :=
    fun p => nothingBehindDirect_cons_of_lt (by simp [Call.data, kWritableFileBufferSize])
  rw [hflush, TakesDirect, kWritableFileBufferSize_eq, kChunkSize_eq]
  constructor
  · rintro ⟨-, hdirect, hrest⟩
    exact ⟨by omega, hrest⟩
  · rintro ⟨hlt, hrest⟩
    exact ⟨by omega, by omega, hrest⟩

theorem nothingBehindDirect_dataBlocks_iff {blocks : List (List (Entry Bytes))} :
    NothingBehindDirect 0 (blocks.flatMap (dataBlockCalls crc32c) ++ calls) ↔
      (∀ blk ∈ blocks, (blockContents blk).length < 98304) ∧ NothingBehindDirect 0 calls := by
  induction blocks with
  | nil => simp
  | cons blk blocks ih =>
      rw [List.flatMap_cons, List.append_assoc, nothingBehindDirect_dataBlock_iff, ih,
        List.forall_mem_cons, and_assoc]

/-- **When nothing is appended behind a direct write**, for the calls of a table. -/
theorem nothingBehindDirect_tableCalls_iff {blocks : List (List (Entry Bytes))}
    {filter index : Bytes} (size : filter.length = bloomSize) :
    NothingBehindDirect 0 (tableCalls crc32c blocks filter index) ↔
      (∀ blk ∈ blocks, (blockContents blk).length < 98304) ∧ index.length < 90108 := by
  have hbloom : bloomSize = 8192 := rfl
  -- The filter and its trailer fill the front of the first chunk.
  have hfilter : Call.nextPos (Call.nextPos 0 (.append filter))
      (.append (fixedEncode kBlockTrailerSize (crc32c filter))) = 8196 := by
    simp only [Call.nextPos, UringFile.nextPos, TakesDirect, length_fixedEncode, size, hbloom,
      kBlockTrailerSize, kChunkSize_eq, kWritableFileBufferSize_eq]
    rfl
  have htail : ∀ p, NothingBehindDirect p
      [.append (footerBehind crc32c blocks filter index).encode, .sync] := fun p => by
    refine nothingBehindDirect_of_lt fun call hcall => ?_
    rcases List.mem_cons.mp hcall with rfl | hcall
    · simp [Call.data, Footer.kEncodedLength, kWritableFileBufferSize]
    · rw [List.mem_singleton.mp hcall]
      simp [Call.data, kWritableFileBufferSize]
  rw [tableCalls, nothingBehindDirect_dataBlocks_iff, nothingBehindDirect_rawBlock_iff, hfilter,
    nothingBehindDirect_rawBlock_iff, iff_true_intro (htail _), and_true, size, hbloom]
  simp only [TakesDirect, kWritableFileBufferSize_eq, kChunkSize_eq]
  constructor
  · rintro ⟨hblocks, -, -, -, hdirect⟩
    exact ⟨hblocks, by omega⟩
  · rintro ⟨hblocks, hlt⟩
    exact ⟨hblocks, by omega, by omega, by omega, by omega⟩

theorem length_index_stored {blocks : List (List (Entry VLogEntryInfo))}
    (nonempty : ∀ blk ∈ blocks, blk ≠ []) {es : List (Entry VLogEntryInfo)}
    {e : Entry VLogEntryInfo} (entries : blocks.flatten = es ++ [e]) (offset : ℕ) :
    (blockBytes (indexEntries offset (blocks.map storedEntries))).length
      = indexLength e.key blocks := by
  induction blocks generalizing es offset with
  | nil => simp at entries
  | cons blk blocks ih =>
      have hne := nonempty blk List.mem_cons_self
      have hlast : (lastKeyBytes (storedEntries blk)).length
          = (blk.getLast hne).key.userKey.length + 8 := by
        rw [lastKeyBytes, storedEntries, List.getLast?_map, List.getLast?_eq_getLast_of_ne_nil hne]
        simp
      have hindex : (entryBytes (indexEntry offset (storedEntries blk))).length
          = (blk.getLast hne).key.userKey.length + 8 + 16 + 8 := by
        simp only [indexEntry, length_entryBytes, BlockEntryInfo.length_encode, hlast]
      rw [List.map_cons, indexEntries, blockBytes_cons, List.length_append, hindex]
      cases blocks with
      | nil =>
          rw [List.flatten_cons, List.flatten_nil, List.append_nil] at entries
          subst entries
          simp [indexLength, indexKeys, indexEntries]
      | cons blk' blocks =>
          have hrest : ∀ b ∈ blk' :: blocks, b ≠ [] := fun b hb =>
            nonempty b (List.mem_cons_of_mem _ hb)
          obtain ⟨init, hinit⟩ := flatten_eq_concat_of_cons hrest entries
          rw [ih hrest hinit]
          simp only [indexLength, indexKeys, List.getLast?_eq_getLast_of_ne_nil hne, Option.map_some,
            Option.getD_some, List.map_cons, List.sum_cons]

namespace SSTFile

variable {t : SSTFile VLogEntryInfo}

/-- The builder of a table, when its last block is closed. -/
theorem builds_entries (crc32c : Bytes → ℕ) (ne : t.entries ≠ []) :
    let b := (TableBuilder.new.addAll crc32c (storedEntries t.entries)).flush crc32c
    TableBuilder.Builds crc32c b ((tableBlocks t.entries).map storedEntries) [] ∧
      b.needNextIndexEntry = true ∧ (t.builder crc32c).flush crc32c = b.setLastKey t.largest := by
  intro b
  obtain ⟨blocks, cur, hbuilds, heq⟩ :=
    builds_cutBlocks [] (TableBuilder.builds_new crc32c) t.entries
  have hflush := hbuilds.flush
  rw [heq, List.nil_append] at hflush
  refine ⟨hflush, TableBuilder.needNextIndexEntry_flush (TableBuilder.owesIndex_addAll ?_),
    TableBuilder.flush_setLastKey _⟩
  simpa [storedEntries] using ne

/-- **What is appended for a table is its file.** -/
theorem appended_calls (crc32c : Bytes → ℕ) (ne : t.entries ≠ []) :
    appended (t.calls crc32c) = t.bytes crc32c := by
  obtain ⟨hbuilds, howes, hflush⟩ := t.builds_entries crc32c ne
  have hfinish := hbuilds.finish_setLastKey howes t.largest
  rw [← hflush, TableBuilder.finish_flush] at hfinish
  rw [bytes, hfinish, calls, hflush]
  rfl

/-- The calls for a table leave nothing behind a direct write exactly if it is kept. -/
theorem nothingBehindDirect_calls_iff (ne : t.entries ≠ []) :
    NothingBehindDirect 0 (t.calls crc32c) ↔ t.Kept := by
  obtain ⟨hbuilds, howes, hflush⟩ := t.builds_entries crc32c ne
  set b := (TableBuilder.new.addAll crc32c (storedEntries t.entries)).flush crc32c
  have hblocks := tableBlocks_nonempty t.entries
  have hentries : (tableBlocks t.entries).flatten
      = t.entries.dropLast ++ [t.entries.getLast ne] := by
    rw [flatten_tableBlocks, List.dropLast_append_getLast]
  have hne : tableBlocks t.entries ≠ [] := by
    intro hnil
    rw [hnil] at hentries
    simp at hentries
  have hindex : (b.setLastKey t.largest).fullIndex.length
      = indexLength t.largest (tableBlocks t.entries) := by
    have hlast : b.lastKey = (t.entries.getLast ne).key.encode := by
      have hstored : ((tableBlocks t.entries).map storedEntries).flatten ++ []
          = storedEntries (t.entries.dropLast ++ [t.entries.getLast ne]) := by
        rw [List.append_nil, flatten_map_storedEntries, hentries]
      rw [hbuilds.last (by rw [hstored]; simp [storedEntries]), hstored, lastKeyBytes, storedEntries,
        List.getLast?_map]
      simp
    have hlength := congrArg List.length hbuilds.index_eq
    rw [length_index_stored hblocks hentries] at hlength
    have hadd := indexLength_add t.largest (t.entries.getLast ne).key hblocks hne
    simp only [TableBuilder.fullIndex, howes, if_true, List.length_append, length_entryBytes,
      BlockEntryInfo.length_encode, hlast, InternalKey.length_encode] at hlength
    simp only [TableBuilder.fullIndex, TableBuilder.setLastKey, howes, if_true, List.length_append,
      length_entryBytes, BlockEntryInfo.length_encode, InternalKey.length_encode]
    omega
  have hcalls : t.calls crc32c = tableCalls crc32c ((tableBlocks t.entries).map storedEntries)
      b.filterBlock.finish (b.setLastKey t.largest).fullIndex := by
    rw [calls, hflush]
    rfl
  rw [hcalls, nothingBehindDirect_tableCalls_iff hbuilds.covers.length_finish, hindex, Kept,
    TableKept, List.forall_mem_map]
  simp only [length_blockContents_stored]

/-- A table that is not kept is damaged in every order. -/
theorem content_ne_bytes (ne : t.entries ≠ []) (damaged : ¬ t.Kept) {f : File}
    (written : Written (t.calls crc32c) f) : f.content ≠ t.bytes crc32c := by
  rw [← t.appended_calls crc32c ne]
  exact content_ne (fun h => damaged ((nothingBehindDirect_calls_iff ne).mp h)) written

/-- **Which tables reach the disk.**  In every order in which the kernel executes the writes, the
closed file holds what the builder appends to it, exactly if the table is kept. -/
theorem content_eq_bytes_iff (crc32c : Bytes → ℕ) (ne : t.entries ≠ []) :
    (∀ f, Written (t.calls crc32c) f → f.content = t.bytes crc32c) ↔ t.Kept := by
  constructor
  · intro hall
    by_contra hdamaged
    obtain ⟨f, hwritten⟩ := exists_written (t.calls crc32c)
    exact content_ne_bytes ne hdamaged hwritten (hall f hwritten)
  · intro hkept f hwritten
    rw [← t.appended_calls crc32c ne]
    exact content_eq ((nothingBehindDirect_calls_iff ne).mpr hkept) hwritten

/-- The file of a flushed memtable: its largest key is its last one. -/
theorem bytes_eq_tableFile (crc32c : Bytes → ℕ) {e : Entry VLogEntryInfo}
    (last : t.entries.getLast? = some e) (largest : t.largest = e.key) :
    t.bytes crc32c = tableFile crc32c (storedEntries t.entries) := by
  have hlast : (storedEntries t.entries).getLast? = some (e.map VLogEntryInfo.encode) := by
    rw [storedEntries, List.getLast?_map, last, Option.map_some]
  simp only [bytes, builder, tableFile, hlast, largest, Entry.map_key]

end SSTFile

end Kept

end Lsmkv
