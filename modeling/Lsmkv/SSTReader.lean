import Lsmkv.Lib.SortedCut
import Lsmkv.TableBuilder

/-!
# Reading one key from a table

`SSTReader::ReadOne` (`src/reader.cpp`, `src/include/reader.h`) opens the file of a table,
reads the footer, asks the filter, searches the index for the first block whose last
key is not before the query, and searches that block.

`lookup` says what a table is for: the newest version of a user key among its entries,
which in a sorted table is the first entry with that user key.  `readOne_eq_lookup`
connects the two on the bytes that `TableBuilder` writes.

`FindByModel` predicts block positions with floating point and runs only for tables
with a model block; it is a parameter of the model.
-/

namespace Lsmkv

open ByteCode

/-! ## The reader -/

/-- `MoveTo(offset)` followed by `Read(n)`: as many of the `n` bytes as there are.  That a read is
complete, in one call, is an assumption of the readers of tables: one `pread64` returns at most
`maxReadBytes`. -/
def readAt (file : Bytes) (offset n : ℕ) : Bytes := (file.drop offset).take n

/-- The decision of `FilterInIndex` on one index entry. -/
def filterEntry (internalKey : InternalKey) (blockEntry : Bytes) :
    Outcome (Option BlockEntryInfo) := do
  let key ← entryKey blockEntry
  let key ← Outcome.ofOption (InternalKey.decode key)
  if internalKey.compareImpl key ≠ .gt then do
    let value ← entryValue blockEntry
    let info ← BlockEntryInfo.decode value
    .ok (some info)
  else .ok none

/-- `FilterInIndex(input, internal_key, block_entry_info)`. -/
def filterInIndex (input : Bytes) (internalKey : InternalKey) : Outcome BlockEntryInfo :=
  scanBlock (filterEntry internalKey) (.fail .kNotFound) input.length input

/-- The decision of `FindInBlock` on one entry.  The result is the value of
`*vlog_info` on return, so a tombstone returns what it was given. -/
def findEntry (internalKey : InternalKey) (vlogInfo : VLogEntryInfo) (blockEntry : Bytes) :
    Outcome (Option VLogEntryInfo) := do
  let key ← entryKey blockEntry
  let key ← Outcome.ofOption (InternalKey.decode key)
  match strCompare internalKey.userKey key.userKey with
  | .lt => .fail .kNotFound
  | .eq =>
      if key.seq ≤ internalKey.seq then
        if key.type = .kTypeValue then do
          let value ← entryValue blockEntry
          let info ← VLogEntryInfo.decode value
          .ok (some info)
        else .ok (some vlogInfo)
      else .fail .kNotFound
  | .gt => .ok none

/-- `FindInBlock(input, internal_key, vlog_info)`. -/
def findInBlock (input : Bytes) (internalKey : InternalKey) (vlogInfo : VLogEntryInfo) :
    Outcome VLogEntryInfo :=
  scanBlock (findEntry internalKey vlogInfo) (.fail .kNotFound) input.length input

/-- `Linear::blob_size`. -/
def blobSize : ℕ := 40

/-- `SSTReader::ReadOne(meta, internal_key, vlog_info)` on the bytes of the table's
file.  A success returns `*vlog_info`. -/
def readOne (findByModel : Bytes → InternalKey → Outcome (ℕ × ℕ)) (file : Bytes)
    (fileSize : ℕ) (internalKey : Bytes) (vlogInfo : VLogEntryInfo) : Outcome VLogEntryInfo :=
  -- `file_size_ - kEncodedLength` wraps to a position `lseek` refuses.
  if fileSize < Footer.kEncodedLength then .fail .kIOError
  else do
    let footer ← Footer.decode
      (readAt file (fileSize - Footer.kEncodedLength) Footer.kEncodedLength)
    let internalKey ← Outcome.ofOption (InternalKey.decode internalKey)
    let filter := readAt file footer.metaindexHandle.offset footer.metaindexHandle.size
    if keyMayMatch internalKey.userKey filter then
      if footer.modelHandle.size ≠ 0 then do
        let model := readAt file footer.modelHandle.offset footer.modelHandle.size
        let location ← findByModel model internalKey
        let readSize := location.2 - location.1 + blobSize
        findInBlock (readAt file location.1 readSize) internalKey vlogInfo
      else do
        let index := readAt file footer.indexHandle.offset footer.indexHandle.size
        let info ← filterInIndex index internalKey
        findInBlock (readAt file info.offset info.size) internalKey vlogInfo
    else .fail .kNotFound

/-! ## Searching a data block -/

/-- The answer a reader makes of the entry it finds. -/
def tableAnswer (vlogInfo : VLogEntryInfo) : Option (Entry Bytes) → Outcome VLogEntryInfo
  | none => .fail .kNotFound
  | some e => if e.key.type = .kTypeValue then VLogEntryInfo.decode e.value else .ok vlogInfo

/-- Entries whose bytes fit the format: sizes within 32 bits and a 64-bit tag. -/
structure EntriesFit (es : List (Entry Bytes)) : Prop where
  size : ∀ e ∈ es, EntryFits e.toBlock
  tag : ∀ e ∈ es, e.key.tag < 2 ^ 64

theorem EntriesFit.cons {e : Entry Bytes} {es : List (Entry Bytes)} (h : EntriesFit (e :: es)) :
    EntriesFit es where
  size d hd := h.size d (List.mem_cons_of_mem _ hd)
  tag d hd := h.tag d (List.mem_cons_of_mem _ hd)

/-- What `FindInBlock` decides on an entry, in terms of the entry. -/
theorem findEntry_entryBytes {e : Entry Bytes} (size : EntryFits e.toBlock)
    (tag : e.key.tag < 2 ^ 64) {ik : InternalKey} (newer : e.key.seq ≤ ik.seq)
    (info : VLogEntryInfo) :
    findEntry ik info (entryBytes e.toBlock) =
      if ik.userKey < e.key.userKey then .fail .kNotFound
      else if ik.userKey = e.key.userKey then (tableAnswer info (some e)) >>= fun i => .ok (some i)
      else .ok none := by
  have hkey : entryKey (entryBytes e.toBlock) = .ok e.key.encode := entryKey_entryBytes size
  have hvalue : entryValue (entryBytes e.toBlock) = .ok e.value := entryValue_entryBytes size
  rw [findEntry, hkey]
  simp only [Outcome.ok_bind, InternalKey.decode_encode _ tag, Outcome.ofOption_some]
  rcases lt_trichotomy ik.userKey e.key.userKey with hlt | heq | hgt
  · simp [strCompare_eq_lt.mpr hlt, hlt]
  · rw [strCompare_eq_eq.mpr heq, if_neg heq.not_lt, if_pos heq]
    simp only [newer, if_true, hvalue, Outcome.ok_bind, tableAnswer]
    split <;> rfl
  · simp [strCompare_eq_gt.mpr hgt, hgt.not_gt, hgt.ne']

/-- **`FindInBlock` looks up the user key.** -/
theorem findInBlock_blockContents {blk : List (Entry Bytes)} (fits : EntriesFit blk)
    (sorted : StrictlySorted blk) {ik : InternalKey} (newer : ∀ e ∈ blk, e.key.seq ≤ ik.seq)
    (info : VLogEntryInfo) :
    findInBlock (blockContents blk) ik info = tableAnswer info (lookup blk ik.userKey) := by
  have hscan : findInBlock (blockContents blk) ik info
      = scanEntries (fun p => findEntry ik info (entryBytes p)) (.fail .kNotFound)
          (blk.map Entry.toBlock) := by
    refine scanBlock_blockBytes ?_ (fun _ _ => rfl) (length_le_blockBytes _)
    simpa using fits.size
  rw [hscan]
  clear hscan
  induction blk with
  | nil => rfl
  | cons e blk ih =>
      obtain ⟨he, hblk⟩ := List.pairwise_cons.mp sorted
      have ih := ih fits.cons hblk fun d hd => newer d (List.mem_cons_of_mem _ hd)
      rw [List.map_cons, scanEntries, findEntry_entryBytes (fits.size e List.mem_cons_self)
        (fits.tag e List.mem_cons_self) (newer e List.mem_cons_self)]
      rcases lt_trichotomy ik.userKey e.key.userKey with hlt | heq | hgt
      · -- The block is sorted, so the key is not behind a larger one.
        have hnone : lookup (e :: blk) ik.userKey = none := by
          refine lookup_eq_none.mpr fun d hd => ?_
          rcases List.mem_cons.mp hd with rfl | hd
          · exact hlt.ne'
          · exact (lt_of_lt_of_le hlt (InternalKey.userKey_le_of_le (he d hd).le)).ne'
        simp [hlt, hnone, tableAnswer]
      · rw [lookup_cons_of_eq heq.symm, if_neg heq.not_lt, if_pos heq]
        cases tableAnswer info (some e) <;> rfl
      · rw [lookup_cons_of_ne hgt.ne, if_neg hgt.not_gt, if_neg hgt.ne']
        simpa using ih

/-- `FindInBlock` on bytes that begin with entries below the user key and one with it: what follows
these does not matter. -/
theorem findInBlock_append {below : List (Entry Bytes)} {e : Entry Bytes} (fits : EntriesFit (below ++ [e]))
    {ik : InternalKey} (lt : ∀ d ∈ below, d.key.userKey < ik.userKey) (eq : e.key.userKey = ik.userKey)
    (newer : ∀ d ∈ below ++ [e], d.key.seq ≤ ik.seq) (rest : Bytes) (info : VLogEntryInfo) :
    findInBlock (blockContents (below ++ [e]) ++ rest) ik info = tableAnswer info (some e) := by
  have hscan : ∀ rounds, (below ++ [e]).length ≤ rounds →
      scanBlock (findEntry ik info) (.fail .kNotFound) rounds (blockContents (below ++ [e]) ++ rest)
        = tableAnswer info (some e) := by
    intro rounds enough
    induction below generalizing rounds with
    | nil =>
        obtain ⟨rounds, rfl⟩ := Nat.exists_eq_succ_of_ne_zero (Nat.ne_zero_of_lt enough)
        have hbytes : blockContents ([] ++ [e]) ++ rest = entryBytes e.toBlock ++ rest := by
          simp [blockContents]
        rw [hbytes, scanBlock_entryBytes _ _ _ (fits.size e (by simp)), findEntry_entryBytes
          (fits.size e (by simp)) (fits.tag e (by simp)) (newer e (by simp)), if_neg eq.symm.not_lt,
          if_pos eq.symm]
        cases tableAnswer info (some e) <;> rfl
    | cons d below ih =>
        obtain ⟨rounds, rfl⟩ := Nat.exists_eq_succ_of_ne_zero (Nat.ne_zero_of_lt enough)
        have hbytes : blockContents (d :: below ++ [e]) ++ rest
            = entryBytes d.toBlock ++ (blockContents (below ++ [e]) ++ rest) := by
          simp [blockContents]
        have hlt := lt d List.mem_cons_self
        rw [hbytes, scanBlock_entryBytes _ _ _ (fits.size d (by simp)), findEntry_entryBytes
          (fits.size d (by simp)) (fits.tag d (by simp)) (newer d (by simp)), if_neg hlt.not_gt,
          if_neg hlt.ne']
        exact ih fits.cons (fun c hc => lt c (List.mem_cons_of_mem _ hc))
          (fun c hc => newer c (List.mem_cons_of_mem _ hc)) rounds (Nat.le_of_succ_le_succ enough)
  have hlength := length_le_blockBytes ((below ++ [e]).map Entry.toBlock)
  rw [List.length_map] at hlength
  exact hscan _ (hlength.trans (List.sublist_append_left _ _).length_le)

/-! ## Searching the index -/

/-- What `FilterInIndex` decides on the index entry of a block. -/
theorem filterEntry_indexEntry {blk : List (Entry Bytes)} {e : Entry Bytes}
    (last : blk.getLast? = some e) (size : e.key.userKey.length + 32 < 2 ^ 32)
    (tag : e.key.tag < 2 ^ 64) {offset : ℕ} (offset_lt : offset < 2 ^ 64)
    (size_lt : (blockContents blk).length < 2 ^ 64) (ik : InternalKey) :
    filterEntry ik (entryBytes (indexEntry offset blk)) =
      if ik ≤ e.key then .ok (some ⟨offset, (blockContents blk).length⟩) else .ok none := by
  have hlast : lastKeyBytes blk = e.key.encode := by simp [lastKeyBytes, last]
  have hfits : EntryFits (indexEntry offset blk) := by
    simp only [EntryFits, indexEntry, hlast, InternalKey.length_encode,
      BlockEntryInfo.length_encode]
    omega
  have hkey : entryKey (entryBytes (indexEntry offset blk)) = .ok e.key.encode := by
    rw [entryKey_entryBytes hfits, indexEntry, hlast]
  have hvalue : entryValue (entryBytes (indexEntry offset blk))
      = .ok (BlockEntryInfo.mk offset (blockContents blk).length).encode :=
    entryValue_entryBytes hfits
  have hdecode := BlockEntryInfo.decode_encode_append
    (h := ⟨offset, (blockContents blk).length⟩) offset_lt size_lt []
  rw [List.append_nil] at hdecode
  rw [filterEntry, hkey]
  simp only [Outcome.ok_bind, InternalKey.decode_encode _ tag, Outcome.ofOption_some, hvalue,
    hdecode, InternalKey.compareImpl_eq_compare]
  by_cases hle : ik ≤ e.key
  · rw [if_pos (by simpa [compare_gt_iff_gt] using hle), if_pos hle]
  · rw [if_neg (by simpa [compare_gt_iff_gt] using hle), if_neg hle]

/-- **`FilterInIndex` finds the first block that may hold the query**: the blocks
before it end before the query, and it does not. -/
theorem scanEntries_indexEntries (crc32c : Bytes → ℕ) {blocks : List (List (Entry Bytes))}
    (nonempty : ∀ blk ∈ blocks, blk ≠ [])
    (sizes : ∀ e ∈ blocks.flatten, e.key.userKey.length + 32 < 2 ^ 32)
    (tags : ∀ e ∈ blocks.flatten, e.key.tag < 2 ^ 64) (ik : InternalKey) {offset : ℕ}
    (small : offset + (dataBytes crc32c blocks).length < 2 ^ 64) :
    let result := scanEntries (fun p => filterEntry ik (entryBytes p)) (.fail .kNotFound)
      (indexEntries offset blocks)
    (result = .fail .kNotFound ∧ ∀ blk ∈ blocks, ∀ e, blk.getLast? = some e → e.key < ik) ∨
    ∃ pre blk post e, blocks = pre ++ blk :: post ∧
      (∀ b ∈ pre, ∀ e, b.getLast? = some e → e.key < ik) ∧
      blk.getLast? = some e ∧ ik ≤ e.key ∧
      result = .ok ⟨offset + (dataBytes crc32c pre).length, (blockContents blk).length⟩ := by
  induction blocks generalizing offset with
  | nil => exact .inl ⟨rfl, by simp⟩
  | cons blk blocks ih =>
      obtain ⟨e, hlast⟩ : ∃ e, blk.getLast? = some e :=
        ⟨_, List.getLast?_eq_getLast_of_ne_nil (nonempty blk List.mem_cons_self)⟩
      have hmem : e ∈ (blk :: blocks).flatten := by
        simpa using Or.inl (List.mem_of_getLast? hlast)
      simp only [dataBytes_cons, List.length_append, TableBuilder.length_rawBlock] at small
      have hentry := filterEntry_indexEntry hlast (sizes e hmem) (tags e hmem)
        (show offset < 2 ^ 64 by omega) (by omega) ik
      -- the walk stops at this block, or its entry is passed over
      by_cases hle : ik ≤ e.key
      · refine .inr ⟨[], blk, blocks, e, rfl, by simp, hlast, hle, ?_⟩
        simp [indexEntries, scanEntries, hentry, hle]
      · have hskip : scanEntries (fun p => filterEntry ik (entryBytes p)) (.fail .kNotFound)
            (indexEntries offset (blk :: blocks))
            = scanEntries (fun p => filterEntry ik (entryBytes p)) (.fail .kNotFound)
              (indexEntries (offset + ((blockContents blk).length + kBlockTrailerSize)) blocks) := by
          simp [indexEntries, scanEntries, hentry, hle]
        rw [hskip]
        have ih := ih (fun b hb => nonempty b (List.mem_cons_of_mem _ hb))
          (fun d hd => sizes d (by simpa using Or.inr (by simpa using hd)))
          (fun d hd => tags d (by simpa using Or.inr (by simpa using hd)))
          (show offset + ((blockContents blk).length + kBlockTrailerSize)
            + (dataBytes crc32c blocks).length < 2 ^ 64 by omega)
        rcases ih with ⟨hres, hall⟩ | ⟨pre, b, post, d, rfl, hpre, hd, hled, hres⟩
        · refine .inl ⟨hres, fun b hb d hd => ?_⟩
          rcases List.mem_cons.mp hb with rfl | hb
          · obtain rfl : e = d := Option.some.inj (hlast.symm.trans hd)
            exact not_le.mp hle
          · exact hall b hb d hd
        · refine .inr ⟨blk :: pre, b, post, d, rfl, ?_, hd, hled, ?_⟩
          · intro c hc f hf
            rcases List.mem_cons.mp hc with rfl | hc
            · obtain rfl : e = f := Option.some.inj (hlast.symm.trans hf)
              exact not_le.mp hle
            · exact hpre c hc f hf
          · rw [hres]
            simp [Nat.add_assoc]

theorem indexEntries_fit {blocks : List (List (Entry Bytes))}
    (nonempty : ∀ blk ∈ blocks, blk ≠ [])
    (sizes : ∀ e ∈ blocks.flatten, e.key.userKey.length + 32 < 2 ^ 32) {offset : ℕ} :
    ∀ p ∈ indexEntries offset blocks, EntryFits p := by
  induction blocks generalizing offset with
  | nil => simp [indexEntries]
  | cons blk blocks ih =>
      intro p hp
      rcases List.mem_cons.mp hp with rfl | hp
      · have hne := nonempty blk List.mem_cons_self
        have hsize := sizes (blk.getLast hne) (by simp)
        simp only [EntryFits, indexEntry, lastKeyBytes, List.getLast?_eq_getLast_of_ne_nil hne,
          Option.map_some, Option.getD_some, InternalKey.length_encode,
          BlockEntryInfo.length_encode]
        omega
      · exact ih (fun b hb => nonempty b (List.mem_cons_of_mem _ hb))
          (fun d hd => sizes d (by simpa using Or.inr (by simpa using hd))) p hp

/-- Where every block ends before a key, so does every entry. -/
theorem lt_of_mem_flatten {blocks : List (List (Entry Bytes))} {ik : InternalKey}
    (sorted : StrictlySorted blocks.flatten)
    (ends : ∀ blk ∈ blocks, ∀ e, blk.getLast? = some e → e.key < ik) {e : Entry Bytes}
    (mem : e ∈ blocks.flatten) : e.key < ik := by
  obtain ⟨blk, hblk, he⟩ := List.mem_flatten.mp mem
  have hsorted := (List.pairwise_flatten.mp sorted).1 blk hblk
  have hne : blk ≠ [] := List.ne_nil_of_mem he
  have hlast := ends blk hblk _ (List.getLast?_eq_getLast_of_ne_nil hne)
  exact (SortedCut.le_getLast (hsorted.imp le_of_lt) hne he).trans_lt hlast

/-! ## Reading a finished table -/

section ReadOne

variable {crc32c : Bytes → ℕ} {blocks pre post : List (List (Entry Bytes))}
  {blk : List (Entry Bytes)} {filter : Bytes}

theorem readAt_of_eq {file raw : Bytes} {offset n : ℕ} (a rest : Bytes) (file_eq : file = a ++ (raw ++ rest))
    (offset_eq : offset = a.length) (n_eq : n = raw.length) : readAt file offset n = raw := by
  simp [readAt, file_eq, offset_eq, n_eq]

theorem readAt_data :
    readAt (layoutFile crc32c (pre ++ blk :: post) filter) (dataBytes crc32c pre).length
      (blockContents blk).length = blockContents blk := by
  refine readAt_of_eq _ ?rest ?file rfl rfl
  case file =>
    simp only [layoutFile, dataBytes_append, dataBytes_cons, TableBuilder.rawBlock,
      List.append_assoc]
    rfl

theorem readAt_filter :
    readAt (layoutFile crc32c blocks filter) (dataBytes crc32c blocks).length filter.length
      = filter := by
  refine readAt_of_eq _ ?rest ?file rfl rfl
  case file =>
    simp only [layoutFile, TableBuilder.rawBlock, List.append_assoc]
    rfl

theorem readAt_index :
    readAt (layoutFile crc32c blocks filter)
      ((dataBytes crc32c blocks).length + (filter.length + kBlockTrailerSize))
      (blockBytes (indexEntries 0 blocks)).length = blockBytes (indexEntries 0 blocks) := by
  refine readAt_of_eq (dataBytes crc32c blocks ++ TableBuilder.rawBlock crc32c filter) ?rest ?file
    (by simp) rfl
  case file =>
    simp only [layoutFile, TableBuilder.rawBlock, List.append_assoc]
    rfl

theorem readAt_footer :
    readAt (layoutFile crc32c blocks filter)
      ((layoutFile crc32c blocks filter).length - Footer.kEncodedLength) Footer.kEncodedLength
      = (layoutFooter crc32c blocks filter).encode := by
  refine readAt_of_eq (dataBytes crc32c blocks ++ TableBuilder.rawBlock crc32c filter
    ++ TableBuilder.rawBlock crc32c (blockBytes (indexEntries 0 blocks))) [] ?_ ?_ ?_
  · simp [layoutFile]
  · rw [length_layoutFile]
    simp
    omega
  · simp

/-- `ReadOne` past the footer: ask the filter, search the index, search the block. -/
theorem readOne_layoutFile (findByModel : Bytes → InternalKey → Outcome (ℕ × ℕ))
    (small : (layoutFile crc32c blocks filter).length < 2 ^ 64) {ik : InternalKey}
    (tag : ik.tag < 2 ^ 64) (info : VLogEntryInfo) :
    readOne findByModel (layoutFile crc32c blocks filter)
        (layoutFile crc32c blocks filter).length ik.encode info =
      if keyMayMatch ik.userKey filter then do
        let handle ← filterInIndex (blockBytes (indexEntries 0 blocks)) ik
        findInBlock (readAt (layoutFile crc32c blocks filter) handle.offset handle.size) ik info
      else .fail .kNotFound := by
  have hlen := length_layoutFile crc32c blocks filter
  have hfits : (layoutFooter crc32c blocks filter).Fits := by
    simp only [Footer.Fits, layoutFooter, List.mem_cons, List.not_mem_nil, or_false,
      forall_eq_or_imp, forall_eq]
    omega
  have hnot : ¬ (layoutFile crc32c blocks filter).length < Footer.kEncodedLength := by omega
  rw [readOne, if_neg hnot, readAt_footer, Footer.decode_encode hfits]
  simp only [Outcome.ok_bind, InternalKey.decode_encode _ tag, Outcome.ofOption_some, layoutFooter,
    readAt_filter, readAt_index, ne_eq, not_true_eq_false, if_false]

end ReadOne

/-- Sizes within the fields of the format: an entry and the index entry of its key
within 32 bits, the file within 64. -/
structure TableFits (crc32c : Bytes → ℕ) (es : List (Entry Bytes)) : Prop where
  entry : ∀ e ∈ es, e.key.userKey.length + max e.value.length 16 + 16 < 2 ^ 32
  file : (tableFile crc32c es).length < 2 ^ 64

/-- `kMaxSequenceNumber`. -/
def kMaxSequenceNumber : ℕ := 2 ^ 56 - 1

/-- The block the index selects is the only one that matters for the queried user
key. -/
theorem lookup_flatten {pre post : List (List (Entry Bytes))} {blk : List (Entry Bytes)}
    {e : Entry Bytes} {q : ℕ} {u : Bytes}
    (sorted : StrictlySorted (pre ++ blk :: post).flatten)
    (newer : ∀ e ∈ (pre ++ blk :: post).flatten, e.key.seq < q)
    (before : ∀ e ∈ pre.flatten, e.key < queryKey q u)
    (last : blk.getLast? = some e) (reaches : queryKey q u ≤ e.key) :
    lookup (pre ++ blk :: post).flatten u = lookup blk u := by
  have hflat : (pre ++ blk :: post).flatten = pre.flatten ++ (blk ++ post.flatten) := by simp
  rw [hflat] at sorted newer ⊢
  have hpre : lookup pre.flatten u = none := by
    refine lookup_eq_none.mpr fun d hd hu => ?_
    have hle : queryKey q u ≤ d.key :=
      (queryKey_le_iff (newer d (List.mem_append_left _ hd))).mpr hu.ge
    exact absurd (before d hd) (not_lt.mpr hle)
  rw [lookup_append, hpre, Option.none_or, lookup_append]
  cases hblk : lookup blk u with
  | some d => rfl
  | none =>
      -- The block reaches past the query without the key, so nothing behind it has it.
      have hmem : e ∈ blk := List.mem_of_getLast? last
      have hle : u ≤ e.key.userKey := (queryKey_le_iff (newer e (by simp [hmem]))).mp reaches
      have hlt : u < e.key.userKey := lt_of_le_of_ne hle (lookup_eq_none.mp hblk e hmem).symm
      rw [Option.none_or, lookup_eq_none]
      intro d hd
      have hed : e.key < d.key := by
        have htail := (List.pairwise_append.mp sorted).2.1
        exact (List.pairwise_append.mp htail).2.2 e hmem d hd
      exact (lt_of_lt_of_le hlt (InternalKey.userKey_le_of_le hed.le)).ne'

theorem queryKey_tag_lt {q : ℕ} (q_le : q ≤ kMaxSequenceNumber) (u : Bytes) : (queryKey q u).tag < 2 ^ 64 := by
  simp only [queryKey, kMaxSequenceNumber] at q_le ⊢
  omega

theorem tag_lt_of_newer {q : ℕ} (q_le : q ≤ kMaxSequenceNumber) {e : Entry Bytes} (newer : e.key.seq < q) :
    e.key.tag < 2 ^ 64 := by
  simp only [InternalKey.seq, kMaxSequenceNumber] at newer q_le
  omega

/-- **Where the index leads a query**: nowhere, if all entries are before it; else to the block that
alone matters for the user key. -/
theorem filterInIndex_indexEntries (crc32c : Bytes → ℕ) {blocks : List (List (Entry Bytes))}
    (nonempty : ∀ blk ∈ blocks, blk ≠ []) (sorted : StrictlySorted blocks.flatten)
    (sizes : ∀ e ∈ blocks.flatten, e.key.userKey.length + 32 < 2 ^ 32) {q : ℕ}
    (q_le : q ≤ kMaxSequenceNumber) (newer : ∀ e ∈ blocks.flatten, e.key.seq < q) (u : Bytes)
    (small : (dataBytes crc32c blocks).length < 2 ^ 64) :
    (filterInIndex (blockBytes (indexEntries 0 blocks)) (queryKey q u) = .fail .kNotFound ∧
      lookup blocks.flatten u = none) ∨
    ∃ pre blk post e, blocks = pre ++ blk :: post ∧ (∀ d ∈ pre.flatten, d.key < queryKey q u) ∧
      blk.getLast? = some e ∧ queryKey q u ≤ e.key ∧ lookup blocks.flatten u = lookup blk u ∧
      filterInIndex (blockBytes (indexEntries 0 blocks)) (queryKey q u)
        = .ok ⟨(dataBytes crc32c pre).length, (blockContents blk).length⟩ := by
  have hindex : filterInIndex (blockBytes (indexEntries 0 blocks)) (queryKey q u)
      = scanEntries (fun p => filterEntry (queryKey q u) (entryBytes p)) (.fail .kNotFound)
          (indexEntries 0 blocks) :=
    scanBlock_blockBytes (indexEntries_fit nonempty sizes) (fun _ _ => rfl) (length_le_blockBytes _)
  rw [hindex]
  rcases scanEntries_indexEntries crc32c nonempty sizes (fun e he => tag_lt_of_newer q_le (newer e he))
    (queryKey q u) (by rwa [Nat.zero_add]) with ⟨hres, hall⟩ | ⟨pre, blk, post, e, rfl, hpre, hlast, hle, hres⟩
  · refine .inl ⟨hres, lookup_eq_none.mpr fun e he hu => ?_⟩
    have hlt : e.key < queryKey q u := lt_of_mem_flatten sorted hall he
    exact absurd ((queryKey_le_iff (newer e he)).mpr hu.ge) (not_le.mpr hlt)
  · have hbefore : ∀ d ∈ pre.flatten, d.key < queryKey q u := fun d hd => by
      refine lt_of_mem_flatten ?_ hpre hd
      rw [List.flatten_append] at sorted
      exact (List.pairwise_append.mp sorted).1
    refine .inr ⟨pre, blk, post, e, rfl, hbefore, hlast, hle, lookup_flatten sorted newer hbefore hlast hle, ?_⟩
    rw [hres, Nat.zero_add]

/-- **Searching the index and then the block it leads to** looks up the user key, in a file of which
the blocks can be read. -/
theorem searchIndex_eq_lookup {crc32c : Bytes → ℕ} {blocks : List (List (Entry Bytes))} {file : Bytes}
    (nonempty : ∀ blk ∈ blocks, blk ≠ []) (sorted : StrictlySorted blocks.flatten)
    (sizes : ∀ e ∈ blocks.flatten, e.key.userKey.length + 32 < 2 ^ 32)
    (fits : ∀ e ∈ blocks.flatten, EntryFits e.toBlock) {q : ℕ} (q_le : q ≤ kMaxSequenceNumber)
    (newer : ∀ e ∈ blocks.flatten, e.key.seq < q) (small : (dataBytes crc32c blocks).length < 2 ^ 64)
    (reads : ∀ pre blk post, blocks = pre ++ blk :: post →
      readAt file (dataBytes crc32c pre).length (blockContents blk).length = blockContents blk)
    (u : Bytes) (info : VLogEntryInfo) :
    (filterInIndex (blockBytes (indexEntries 0 blocks)) (queryKey q u) >>= fun handle =>
      findInBlock (readAt file handle.offset handle.size) (queryKey q u) info)
      = tableAnswer info (lookup blocks.flatten u) := by
  rcases filterInIndex_indexEntries crc32c nonempty sorted sizes q_le newer u small with
    ⟨hres, hnone⟩ | ⟨pre, blk, post, e, hsplit, -, -, -, hlookup, hres⟩
  · rw [hres, hnone]
    rfl
  · have hblk : blk ∈ blocks := hsplit ▸ List.mem_append_right _ List.mem_cons_self
    have hsub : ∀ e ∈ blk, e ∈ blocks.flatten := fun e he => List.mem_flatten_of_mem hblk he
    rw [hres, Outcome.ok_bind, reads pre blk post hsplit, findInBlock_blockContents
      ⟨fun e he => fits e (hsub e he), fun e he => tag_lt_of_newer q_le (newer e (hsub e he))⟩
      ((List.pairwise_flatten.mp sorted).1 blk hblk)
      (fun e he => by simpa using (newer e (hsub e he)).le), queryKey_userKey, hlookup]

/-- **Reading a finished table looks up the user key.** -/
theorem readOne_eq_lookup {crc32c : Bytes → ℕ}
    (findByModel : Bytes → InternalKey → Outcome (ℕ × ℕ)) {es : List (Entry Bytes)}
    (ne : es ≠ []) (sorted : StrictlySorted es) (fits : TableFits crc32c es) {q : ℕ}
    (q_le : q ≤ kMaxSequenceNumber) (newer : ∀ e ∈ es, e.key.seq < q) (u : Bytes)
    (info : VLogEntryInfo) :
    readOne findByModel (tableFile crc32c es) (tableFile crc32c es).length
      (queryKey q u).encode info = tableAnswer info (lookup es u) := by
  obtain ⟨blocks, filter, rfl, hnonempty, -, hmatch, hfile⟩ := tableFile_layout crc32c ne
  have hsizes : ∀ e ∈ blocks.flatten, e.key.userKey.length + 32 < 2 ^ 32 := by
    intro e he
    have := fits.entry e he
    omega
  have hfit : ∀ e ∈ blocks.flatten, EntryFits e.toBlock := by
    intro e he
    have := fits.entry e he
    simp only [EntryFits, Entry.toBlock, InternalKey.length_encode]
    omega
  have hsmall := fits.file
  rw [hfile] at hsmall ⊢
  rw [readOne_layoutFile findByModel hsmall (queryKey_tag_lt q_le u)]
  by_cases hmay : keyMayMatch (queryKey q u).userKey filter = true
  · rw [if_pos hmay]
    have hdata : (dataBytes crc32c blocks).length < 2 ^ 64 := by
      rw [length_layoutFile] at hsmall
      omega
    refine searchIndex_eq_lookup hnonempty sorted hsizes hfit q_le newer hdata ?_ u info
    rintro pre blk post rfl
    exact readAt_data
  · have habsent : lookup blocks.flatten u = none := by
      refine lookup_eq_none.mpr fun e he hu => hmay ?_
      rw [queryKey_userKey, ← hu]
      exact hmatch e he (Nat.lt_of_le_of_lt (Nat.le_add_right _ _) (hsizes e he))
    rw [if_neg hmay, habsent]
    rfl

/-- **A point read of a finished table.**  A value is found and decoded, a tombstone
leaves `*vlog_info` as it was, and `NotFound` means exactly that the user key does not
occur. -/
theorem readOne_tableFile (crc32c : Bytes → ℕ)
    (findByModel : Bytes → InternalKey → Outcome (ℕ × ℕ)) {es : List (Entry Bytes)}
    (ne : es ≠ []) (sorted : StrictlySorted es)
    (values : ∀ e ∈ es, e.key.type = .kTypeValue → e.value.length = 16)
    (fits : TableFits crc32c es) {q : ℕ} (q_le : q ≤ kMaxSequenceNumber)
    (newer : ∀ e ∈ es, e.key.seq < q) (u : Bytes) (info : VLogEntryInfo) :
    let result := readOne findByModel (tableFile crc32c es) (tableFile crc32c es).length
      (queryKey q u).encode info
    (∀ e, IsNewest es u e → e.key.type = .kTypeValue →
      ∃ location, VLogEntryInfo.decode e.value = .ok location ∧ result = .ok location) ∧
    (∀ e, IsNewest es u e → e.key.type = .kTypeDeletion → result = .ok info) ∧
    (result = .fail .kNotFound ↔ ∀ e ∈ es, e.key.userKey ≠ u) := by
  rw [readOne_eq_lookup findByModel ne sorted fits q_le newer u info]
  refine ⟨fun e he htype => ?_, fun e he htype => ?_, ?_⟩
  · obtain ⟨location, hlocation⟩ := VLogEntryInfo.decode_isOk (values e he.1 htype)
    exact ⟨location, hlocation, by simp [lookup_of_isNewest sorted he, tableAnswer, htype, hlocation]⟩
  · simp [lookup_of_isNewest sorted he, tableAnswer, htype]
  · rw [← lookup_eq_none]
    cases hfound : lookup es u with
    | none => simp [tableAnswer]
    | some e =>
        refine ⟨fun h => ?_, fun h => by simp at h⟩
        by_cases htype : e.key.type = .kTypeValue
        · obtain ⟨location, hlocation⟩ :=
            VLogEntryInfo.decode_isOk (values e (lookup_mem hfound) htype)
          simp [tableAnswer, htype, hlocation] at h
        · simp [tableAnswer, htype] at h

/-- CRC-32C, bit by bit: the reflected Castagnoli polynomial, with the register
complemented before and after. -/
def crc32cCastagnoli (data : Bytes) : ℕ :=
  let shift (crc : ℕ) : ℕ := if crc % 2 = 1 then (crc / 2) ^^^ 0x82F63B78 else crc / 2
  let step (crc : ℕ) (b : Byte) : ℕ := Nat.repeat shift 8 (crc ^^^ b.val)
  (data.foldl step 0xFFFFFFFF) ^^^ 0xFFFFFFFF

/-- A table with a deleted and an overwritten key: the newest version of either is
found. -/
theorem readOne_tableFile_two_keys :
    let es : List (Entry Bytes) :=
      [⟨.ofWrite [1] 5 .kTypeDeletion, List.replicate 16 0⟩,
        ⟨.ofWrite [1] 2 .kTypeValue, (VLogEntryInfo.mk 0 0 30).encode⟩,
        ⟨.ofWrite [1, 0] 4 .kTypeValue, (VLogEntryInfo.mk 60 0 33).encode⟩]
    let read u := readOne (fun _ _ => .fault) (tableFile crc32cCastagnoli es)
      (tableFile crc32cCastagnoli es).length (queryKey kMaxSequenceNumber u).encode .zero
    read [1] = .ok .zero ∧ read [1, 0] = .ok ⟨60, 0, 33⟩ ∧ read [2] = .fail .kNotFound := by
  intro es read
  have hne : es ≠ [] := by simp [es]
  have hfits : TableFits crc32cCastagnoli es := by
    refine ⟨by simp [es], lt_of_le_of_lt (length_tableFile_le hne) ?_⟩
    simp [es, blockContents, Entry.toBlock, InternalKey.ofWrite]
  have hread := fun u => readOne_tableFile crc32cCastagnoli (fun _ _ => .fault) hne
    (by simp [es, StrictlySorted, InternalKey.lt_iff, InternalKey.ofWrite, ValueType.code])
    (by simp [es]) hfits le_rfl (by simp [es, kMaxSequenceNumber]) u .zero
  refine ⟨?_, ?_, ?_⟩
  · exact (hread [1]).2.1 ⟨.ofWrite [1] 5 .kTypeDeletion, List.replicate 16 0⟩
      (by simp [es, IsNewest, InternalKey.ofWrite, ValueType.code]) (by simp)
  · obtain ⟨location, hlocation, hresult⟩ := (hread [1, 0]).1
      ⟨.ofWrite [1, 0] 4 .kTypeValue, (VLogEntryInfo.mk 60 0 33).encode⟩
      (by simp [es, IsNewest, InternalKey.ofWrite, ValueType.code]) (by simp)
    rw [VLogEntryInfo.decode_encode (by simp [VLogEntryInfo.Fits])] at hlocation
    exact hresult.trans hlocation.symm
  · exact (hread [2]).2.2.mpr (by simp [es])

end Lsmkv
