import Lsmkv.MemTable

/-!
# Reading the tables of the levels

The tables of the levels are described by their entries, and a read of a table by the
blocks that the builder cuts the entries into: `SSTReader::ReadOne` takes the first block
whose index key is not before the query and searches that block from its start.  The
filter is not asked here: it lets every key of the table pass (`tableFile_layout`), and a
search finds nothing for another one.

`tableBlocks_layout` says that these are the blocks of the file, and `readOne_eq_readTable`
that reading the bytes of a sorted table gives what `readTable` gives.  In a sorted table
that is the newest version (`readTable_eq_lookup`).
-/

namespace Lsmkv

open ByteCode

/-! ## Blocks -/

/-- The bytes of entries in a data block; the values of a table have sixteen bytes. -/
def entriesLength {β : Type} (es : List (Entry β)) : ℕ :=
  (es.map fun e => e.key.userKey.length + 8 + 16 + 8).sum

/-- The data blocks of a table, with `cur` in the open one: a block is closed when it
reaches `block_size`. -/
def cutBlocks {β : Type} (cur : List (Entry β)) : List (Entry β) → List (List (Entry β))
  | [] => if cur.isEmpty then [] else [cur]
  | e :: es =>
      if blockSize ≤ entriesLength (cur ++ [e]) then (cur ++ [e]) :: cutBlocks [] es
      else cutBlocks (cur ++ [e]) es

/-- The data blocks of a table. -/
def tableBlocks {β : Type} (es : List (Entry β)) : List (List (Entry β)) := cutBlocks [] es

/-- The key under which the index lists a block: the last key of the block, and for the
last block the key that `SetLastKey` was given, which is the largest key of the table. -/
def indexKeys {β : Type} (largest : InternalKey) : List (List (Entry β)) → List InternalKey
  | [] => []
  | [_] => [largest]
  | blk :: blk' :: blocks =>
      (blk.getLast?.map (·.key)).getD largest :: indexKeys largest (blk' :: blocks)

/-- `FilterInIndex`: the first block whose index key is not before the query. -/
def findBlock {β : Type} (query : InternalKey) :
    List InternalKey → List (List (Entry β)) → Option (List (Entry β))
  | key :: keys, blk :: blocks => if query ≤ key then some blk else findBlock query keys blocks
  | _, _ => none

/-- `FindInBlock` on the entries of a block.  A tombstone leaves `*vlog_info` zero. -/
def findInEntries (query : InternalKey) : List (Entry VLogEntryInfo) → Outcome VLogEntryInfo
  | [] => .fail .kNotFound
  | e :: es =>
      match strCompare query.userKey e.key.userKey with
      | .lt => .fail .kNotFound
      | .eq =>
          if e.key.seq ≤ query.seq then
            if e.key.type = .kTypeValue then .ok e.value else .ok .zero
          else .fail .kNotFound
      | .gt => findInEntries query es

/-- `ReadOne` of a table. -/
def readTable (t : SSTFile VLogEntryInfo) (query : InternalKey) : Outcome VLogEntryInfo :=
  let blocks := tableBlocks t.entries
  match findBlock query (indexKeys t.largest blocks) blocks with
  | none => .fail .kNotFound
  | some blk => findInEntries query blk

/-- What a table answers for the newest version of a user key. -/
def sstAnswer : Option (Entry VLogEntryInfo) → Outcome VLogEntryInfo
  | none => .fail .kNotFound
  | some e => if e.key.type = .kTypeValue then .ok e.value else .ok .zero

/-! ## Sorted tables -/

section Blocks

variable {β : Type}

theorem flatten_cutBlocks (cur es : List (Entry β)) : (cutBlocks cur es).flatten = cur ++ es := by
  induction es generalizing cur with
  | nil =>
      rw [cutBlocks]
      split
      · simp_all
      · simp
  | cons e es ih =>
      rw [cutBlocks]
      split
      · simp [ih]
      · simp [ih]

theorem cutBlocks_nonempty (cur es : List (Entry β)) : ∀ blk ∈ cutBlocks cur es, blk ≠ [] := by
  induction es generalizing cur with
  | nil =>
      rw [cutBlocks]
      split
      · simp
      · simp_all
  | cons e es ih =>
      rw [cutBlocks]
      split
      · intro blk hblk
        rcases List.mem_cons.mp hblk with rfl | hblk
        · simp
        · exact ih [] blk hblk
      · exact ih _

/-- The blocks of a table hold its entries, in order. -/
theorem flatten_tableBlocks (es : List (Entry β)) : (tableBlocks es).flatten = es :=
  flatten_cutBlocks [] es

theorem tableBlocks_nonempty (es : List (Entry β)) : ∀ blk ∈ tableBlocks es, blk ≠ [] :=
  cutBlocks_nonempty [] es

end Blocks

theorem findInEntries_eq_lookup {es : List (Entry VLogEntryInfo)} (sorted : StrictlySorted es)
    {q : ℕ} (newer : ∀ e ∈ es, e.key.seq < q) (u : Bytes) :
    findInEntries (queryKey q u) es = sstAnswer (lookup es u) := by
  induction es with
  | nil => rfl
  | cons e es ih =>
      obtain ⟨he, hes⟩ := List.pairwise_cons.mp sorted
      rw [findInEntries, queryKey_userKey]
      rcases lt_trichotomy u e.key.userKey with hlt | heq | hgt
      · have hnone : lookup (e :: es) u = none := by
          refine lookup_eq_none.mpr fun d hd hu => ?_
          rcases List.mem_cons.mp hd with rfl | hd
          · exact hlt.ne' hu
          · exact absurd (hu ▸ InternalKey.userKey_le_of_le (he d hd).le) (not_le.mpr hlt)
        simp [strCompare_eq_lt.mpr hlt, hnone, sstAnswer]
      · simp [strCompare_eq_eq.mpr heq, lookup_cons_of_eq heq.symm, sstAnswer,
          (newer e List.mem_cons_self).le]
      · simp only [strCompare_eq_gt.mpr hgt, lookup_cons_of_ne hgt.ne]
        exact ih hes fun d hd => newer d (List.mem_cons_of_mem _ hd)

/-- A search of blocks in order, by keys that bound them, is a search of their entries. -/
theorem findBlock_eq_lookup {blocks : List (List (Entry VLogEntryInfo))}
    (nonempty : ∀ blk ∈ blocks, blk ≠ []) (sorted : StrictlySorted blocks.flatten) {q : ℕ}
    (newer : ∀ e ∈ blocks.flatten, e.key.seq < q) (largest : InternalKey)
    (bound : ∀ e ∈ blocks.flatten, e.key ≤ largest) (u : Bytes) :
    (match findBlock (queryKey q u) (indexKeys largest blocks) blocks with
      | none => .fail .kNotFound
      | some blk => findInEntries (queryKey q u) blk) = sstAnswer (lookup blocks.flatten u) := by
  induction blocks with
  | nil => rfl
  | cons blk blocks ih =>
      have hsorted := sorted
      rw [List.flatten_cons, StrictlySorted, List.pairwise_append] at sorted
      obtain ⟨hblk, hrest, hcross⟩ := sorted
      have hnewer : ∀ e ∈ blk, e.key.seq < q := fun e he => newer e (by simp [he])
      -- Index keys bound the keys of their block from above.
      obtain ⟨key, keys, hkeys, hkey, hlast, hkeys'⟩ : ∃ key keys,
          indexKeys largest (blk :: blocks) = key :: keys ∧ (∀ e ∈ blk, e.key ≤ key) ∧
          (blocks = [] ∨ ∃ e ∈ blk, e.key = key) ∧ keys = indexKeys largest blocks := by
        cases blocks with
        | nil => exact ⟨largest, [], rfl, fun e he => bound e (by simp [he]), .inl rfl, rfl⟩
        | cons blk' blocks =>
            obtain ⟨init, e, hconcat⟩ : ∃ init e, blk = init ++ [e] :=
              ⟨_, _, (List.dropLast_append_getLast (nonempty blk List.mem_cons_self)).symm⟩
            refine ⟨e.key, _, by simp [indexKeys, hconcat], fun d hd => ?_,
              .inr ⟨e, by simp [hconcat], rfl⟩, rfl⟩
            rw [hconcat] at hd hblk
            rcases List.mem_append.mp hd with hd | hd
            · exact ((List.pairwise_append.mp hblk).2.2 d hd e (by simp)).le
            · rw [List.mem_singleton.mp hd]
      rw [hkeys, findBlock, List.flatten_cons, lookup_append]
      by_cases hle : queryKey q u ≤ key
      · simp only [if_pos hle, findInEntries_eq_lookup hblk hnewer]
        cases hfound : lookup blk u with
        | some e => rfl
        | none =>
            -- Nothing behind the block has the user key: its index key is past all versions.
            have hnone : lookup blocks.flatten u = none := by
              refine lookup_eq_none.mpr fun d hd hu => ?_
              rcases hlast with rfl | ⟨e, he, rfl⟩
              · simp at hd
              · have hle' := (queryKey_le_iff (hnewer e he)).mp hle
                have hge := InternalKey.userKey_le_of_le (hcross e he d hd).le
                exact lookup_eq_none.mp hfound e he (le_antisymm (hu ▸ hge) hle')
            rw [hnone]
            rfl
      · simp only [if_neg hle]
        have hnone : lookup blk u = none := by
          refine lookup_eq_none.mpr fun e he hu => hle ?_
          exact ((queryKey_le_iff (hnewer e he)).mpr hu.ge).trans (hkey e he)
        rw [hnone, hkeys', ih (fun b hb => nonempty b (List.mem_cons_of_mem _ hb)) hrest
          (fun e he => newer e (by simp [he])) (fun e he => bound e (by simp [he]))]
        rfl

/-- **A read of a sorted table answers with the newest version of a user key.** -/
theorem readTable_eq_lookup {t : SSTFile VLogEntryInfo} (sorted : StrictlySorted t.entries)
    (covers : t.Covers) {q : ℕ} (newer : ∀ e ∈ t.entries, e.key.seq < q) (u : Bytes) :
    readTable t (queryKey q u) = sstAnswer (lookup t.entries u) := by
  have hflat : (tableBlocks t.entries).flatten = t.entries := flatten_tableBlocks t.entries
  have hread := findBlock_eq_lookup (tableBlocks_nonempty t.entries) (by rwa [hflat]) (q := q) (by rwa [hflat])
    t.largest (by rw [hflat]; exact fun e he => (covers e he).2) u
  rw [hflat] at hread
  exact hread

/-! ## The bytes behind a table -/

/-- The entries of a table as its file stores them. -/
def storedEntries (es : List (Entry VLogEntryInfo)) : List (Entry Bytes) :=
  es.map (Entry.map VLogEntryInfo.encode)

theorem flatten_map_storedEntries (blocks : List (List (Entry VLogEntryInfo))) :
    (blocks.map storedEntries).flatten = storedEntries blocks.flatten := by
  rw [storedEntries, List.map_flatten]
  rfl

theorem length_blockContents_stored (es : List (Entry VLogEntryInfo)) :
    (blockContents (storedEntries es)).length = entriesLength es := by
  induction es with
  | nil => rfl
  | cons e es ih =>
      have hcons : blockContents (storedEntries (e :: es))
          = blockContents (storedEntries [e]) ++ blockContents (storedEntries es) := by
        rw [← blockContents_append]
        rfl
      rw [hcons, List.length_append, ih]
      simp [entriesLength, storedEntries, blockContents, Entry.toBlock]

/-- A run of `Add` cuts the entries into the blocks of `cutBlocks`. -/
theorem builds_cutBlocks {crc32c : Bytes → ℕ} {b : TableBuilder}
    {blocks : List (List (Entry Bytes))} (cur : List (Entry VLogEntryInfo))
    (h : TableBuilder.Builds crc32c b blocks (storedEntries cur)) (es : List (Entry VLogEntryInfo)) :
    ∃ blocks' cur', TableBuilder.Builds crc32c (b.addAll crc32c (storedEntries es)) blocks' cur' ∧
      (blocks' ++ if cur'.isEmpty then [] else [cur'])
        = blocks ++ (cutBlocks cur es).map storedEntries := by
  induction es generalizing b blocks cur with
  | nil =>
      refine ⟨blocks, storedEntries cur, h, ?_⟩
      by_cases hcur : cur = []
      · simp [hcur, storedEntries, cutBlocks]
      · simp [hcur, storedEntries, cutBlocks]
  | cons e es ih =>
      have hadd := h.add (e.map VLogEntryInfo.encode)
      have hcat : storedEntries cur ++ [e.map VLogEntryInfo.encode] = storedEntries (cur ++ [e]) := by
        simp [storedEntries]
      rw [hcat, length_blockContents_stored] at hadd
      rw [cutBlocks]
      split at hadd
      · rename_i hfull
        obtain ⟨blocks', cur', hb, heq⟩ := ih [] hadd
        exact ⟨blocks', cur', hb, by rw [if_pos hfull, heq]; simp⟩
      · rename_i hfull
        obtain ⟨blocks', cur', hb, heq⟩ := ih _ hadd
        exact ⟨blocks', cur', hb, by rw [if_neg hfull, heq]⟩

/-- **The blocks of a table are the data blocks of its file.** -/
theorem tableBlocks_layout (crc32c : Bytes → ℕ) {es : List (Entry VLogEntryInfo)} (ne : es ≠ []) :
    ∃ filter, filter.length = bloomSize ∧
      (∀ e ∈ es, e.key.userKey.length < 2 ^ 32 → keyMayMatch e.key.userKey filter = true) ∧
      tableFile crc32c (storedEntries es)
        = layoutFile crc32c ((tableBlocks es).map storedEntries) filter := by
  obtain ⟨blocks, cur, hbuilds, heq⟩ :=
    builds_cutBlocks [] (TableBuilder.builds_new crc32c) es
  have hflat : blocks.flatten ++ cur = storedEntries es := by
    have hcur : blocks.flatten ++ cur = (blocks ++ if cur.isEmpty then [] else [cur]).flatten := by
      by_cases hempty : cur = []
      · simp [hempty]
      · simp [hempty]
    rw [hcur, heq, List.nil_append]
    exact (flatten_map_storedEntries _).trans (congrArg storedEntries (flatten_tableBlocks es))
  obtain ⟨filter, hlen, hmatch, hfile⟩ :=
    tableFile_of_builds (by simpa [storedEntries] using ne) hbuilds hflat
  refine ⟨filter, hlen, fun e he hshort => ?_, ?_⟩
  · exact hmatch (e.map VLogEntryInfo.encode) (List.mem_map_of_mem he) hshort
  · rw [hfile, heq, List.nil_append, tableBlocks]

end Lsmkv
