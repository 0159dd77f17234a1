import Lsmkv.PointRead

/-!
# Iterators over a range of keys

`KVStore::scan` reads a range of keys from the memtables (`MemTableIterator`,
`src/memtable.cpp`) and from the tables (`TableIterator`, `src/include/block_format.h`).
An iterator is described by the entries it will yield.

The value that an iterator returns is a slice of the bytes of a record.  The record of a
deletion has a value of sixteen bytes like every other, so the test by which a scan tells
deletions apart, that the value is empty, never fires (`marksDeletions_iff`).
-/

namespace Lsmkv

open ByteCode Files

variable {crc32c : Bytes → ℕ}

/-! ## The bytes of a record -/

/-- The record of a memtable: `key_size | key | seq_type | value`. -/
def memRecord (e : Entry VLogEntryInfo) : Bytes :=
  fixedEncode 4 (e.key.userKey.length + 8) ++ (e.key.encode ++ e.value.encode)

/-- `GetValueFromMemKey`. -/
def getValueFromMemKey (record : Bytes) : Outcome Bytes := do
  let size ← Outcome.ofOption (fixedDecode 4 record)
  .ok (record.drop (size + 4))

/-- `BlockIterator::value` with `cur_` in a buffer. -/
def blockValue (buffer : Bytes) (cur : ℕ) : Outcome Bytes := do
  let keySize ← Outcome.ofOption (fixedDecode 4 (buffer.drop cur))
  let valueSize ← Outcome.ofOption (fixedDecode 4 (buffer.drop (cur + 4)))
  .ok ((buffer.drop (cur + 8 + keySize)).take valueSize)

/-- The value of a record has at least sixteen bytes, whatever the type of the key. -/
theorem getValueFromMemKey_memRecord (e : Entry VLogEntryInfo) :
    ∃ value, getValueFromMemKey (memRecord e) = .ok value ∧ 16 ≤ value.length := by
  have hsize : fixedDecode 4 (memRecord e) = some ((e.key.userKey.length + 8) % 2 ^ 32) :=
    fixedDecode_fixedEncode_append 4 _ _
  refine ⟨_, by rw [getValueFromMemKey, hsize]; rfl, ?_⟩
  have hle : (e.key.userKey.length + 8) % 2 ^ 32 ≤ e.key.userKey.length + 8 := Nat.mod_le _ _
  simp only [memRecord, List.length_drop, List.length_append, length_fixedEncode,
    InternalKey.length_encode, VLogEntryInfo.length_encode]
  omega

/-- The value of an entry in a block has sixteen bytes, whatever the type of the key. -/
theorem blockValue_blockContents (pre post : List (Entry VLogEntryInfo)) (e : Entry VLogEntryInfo) :
    ∃ value, blockValue (blockContents (storedEntries (pre ++ e :: post)))
      (blockContents (storedEntries pre)).length = .ok value ∧ value.length = 16 := by
  set cur := (blockContents (storedEntries pre)).length with hcur
  set record : Bytes × Bytes := (e.map VLogEntryInfo.encode).toBlock with hrecord
  set rest := blockContents (storedEntries post)
  have hbuffer : blockContents (storedEntries (pre ++ e :: post))
      = blockContents (storedEntries pre) ++ (entryBytes record ++ rest) := by
    simp only [storedEntries, List.map_append, List.map_cons, blockContents_append]
    rfl
  have hdrop : ∀ n, (blockContents (storedEntries (pre ++ e :: post))).drop (cur + n)
      = (entryBytes record ++ rest).drop n := by
    intro n
    rw [hbuffer, hcur, List.drop_length_add_append]
  have hkey : fixedDecode 4 ((blockContents (storedEntries (pre ++ e :: post))).drop cur)
      = some (record.1.length % 2 ^ 32) := by
    rw [show cur = cur + 0 from rfl, hdrop 0, List.drop_zero]
    exact fixedDecode_key_size record rest
  have hvalue : fixedDecode 4 ((blockContents (storedEntries (pre ++ e :: post))).drop (cur + 4))
      = some 16 := by
    rw [hdrop 4, fixedDecode_value_size]
    simp [hrecord, Entry.toBlock]
  refine ⟨_, by rw [blockValue, hkey, hvalue]; rfl, ?_⟩
  have hle : record.1.length % 2 ^ 32 ≤ record.1.length := Nat.mod_le _ _
  have hsize : record.2.length = 16 := by simp [hrecord, Entry.toBlock]
  rw [Nat.add_assoc, hdrop]
  simp only [List.length_take, List.length_drop, List.length_append, length_entryBytes]
  omega

/-! ## What a scan takes for a deletion -/

/-- The iterator over one of the places that a scan reads returns `value` for an entry.  An
iterator over a table holds the contents of consecutive blocks. -/
def Store.Yields (s : Store) (e : Entry VLogEntryInfo) (value : Bytes) : Prop :=
  (e ∈ s.mem.entries ∧ getValueFromMemKey (memRecord e) = .ok value) ∨
  (∃ imm, s.imm = some imm ∧ e ∈ imm.entries ∧ getValueFromMemKey (memRecord e) = .ok value) ∨
  ∃ i, ∃ f ∈ levelAt s.levels i, ∃ blocks pre post, blocks <:+: tableBlocks f.entries ∧
    blocks.flatten = pre ++ e :: post ∧
    blockValue (blockContents (storedEntries (pre ++ e :: post)))
      (blockContents (storedEntries pre)).length = .ok value

/-- The test by which scans drop deleted keys, that the value is empty, is right for every
entry of every place. -/
def Store.MarksDeletions (s : Store) : Prop :=
  ∀ e value, s.Yields e value → (value = [] ↔ e.key.type = .kTypeDeletion)

namespace Store

variable {s : Store} {e : Entry VLogEntryInfo} {value : Bytes}

/-- No iterator returns an empty value. -/
theorem Yields.ne_nil (h : s.Yields e value) : value ≠ [] := by
  have hmem : getValueFromMemKey (memRecord e) = .ok value → value ≠ [] := by
    intro hget
    obtain ⟨v, hv, hlen⟩ := getValueFromMemKey_memRecord e
    obtain rfl : v = value := Outcome.ok.inj (hv.symm.trans hget)
    rintro rfl
    simp at hlen
  rcases h with ⟨-, hget⟩ | ⟨-, -, -, hget⟩ | ⟨-, -, -, -, pre, post, -, -, hget⟩
  · exact hmem hget
  · exact hmem hget
  · obtain ⟨v, hv, hlen⟩ := blockValue_blockContents pre post e
    obtain rfl : v = value := Outcome.ok.inj (hv.symm.trans hget)
    rintro rfl
    simp at hlen

/-- Only entries that are held are returned. -/
theorem Yields.holds (h : s.Yields e value) : s.Holds e := by
  rcases h with ⟨he, -⟩ | ⟨imm, himm, he, -⟩ | ⟨i, f, hf, blocks, pre, post, hblocks, hflat, -⟩
  · exact .inl he
  · exact .inr (.inl ⟨imm, himm, he⟩)
  · refine .inr (.inr ⟨i, f, hf, ?_⟩)
    have he : e ∈ blocks.flatten := by simp [hflat]
    obtain ⟨blk, hblk, hmem⟩ := List.mem_flatten.mp he
    rw [← flatten_tableBlocks f.entries]
    exact List.mem_flatten.mpr ⟨blk, hblocks.subset hblk, hmem⟩

/-- Every entry that is held is returned, with some value. -/
theorem Holds.yields (h : s.Holds e) : ∃ value, s.Yields e value := by
  obtain ⟨v, hv, -⟩ := getValueFromMemKey_memRecord e
  rcases h with he | ⟨imm, himm, he⟩ | ⟨i, f, hf, he⟩
  · exact ⟨v, .inl ⟨he, hv⟩⟩
  · exact ⟨v, .inr (.inl ⟨imm, himm, he, hv⟩)⟩
  · obtain ⟨pre, post, hsplit⟩ := List.append_of_mem he
    obtain ⟨w, hw, -⟩ := blockValue_blockContents pre post e
    refine ⟨w, .inr (.inr ⟨i, f, hf, tableBlocks f.entries, pre, post, List.infix_rfl, ?_, hw⟩)⟩
    exact (flatten_tableBlocks f.entries).trans hsplit

/-- The test is right exactly where there is no deletion. -/
theorem marksDeletions_iff_values :
    s.MarksDeletions ↔ ∀ e, s.Holds e → e.key.type = .kTypeValue := by
  constructor
  · intro hmarks e he
    obtain ⟨value, hvalue⟩ := he.yields
    cases htype : e.key.type with
    | kTypeValue => rfl
    | kTypeDeletion => exact absurd ((hmarks e value hvalue).mpr htype) hvalue.ne_nil
  · intro hvalues e value hyields
    refine ⟨fun hnil => absurd hnil hyields.ne_nil, fun htype => ?_⟩
    rw [hvalues e hyields.holds] at htype
    exact absurd htype (by decide)

end Store

/-- **The test of a scan is right exactly where there is nothing to test for.**  In every
reachable state the value that an iterator returns is empty for the deletions and only for
them if and only if no place holds a deletion; so it is in every run without deletions. -/
theorem marksDeletions_iff {cond : Machine → Action → Prop} {m : Machine}
    (reached : Machine.Reachable crc32c cond m) :
    (m.store.MarksDeletions ↔ ∀ e, m.store.Holds e → e.key.type = .kTypeValue) ∧
      ((∀ w ∈ m.history, w.type = .kTypeValue) → m.store.MarksDeletions) := by
  refine ⟨Store.marksDeletions_iff_values, fun hputs => ?_⟩
  refine Store.marksDeletions_iff_values.mpr fun e he => ?_
  obtain ⟨w, hw, hkey⟩ := (accounted_of_reachable reached).sound e he
  rw [hkey, InternalKey.type_ofWrite]
  exact hputs w (List.mem_of_getElem? hw)

/-- After six `put`s, with entries in both memtables and in a level, the test is right. -/
theorem marksDeletions_merged :
    ∃ m, Machine.Reachable crc32cCastagnoli Machine.Regular m ∧
      (levelAt m.store.levels 1).length = 4 ∧ m.store.imm ≠ none ∧ m.store.mem.entries ≠ [] ∧
      m.store.MarksDeletions := by
  obtain ⟨m, reached, -, hhist, hlevel, -, ⟨imm, himm, -⟩, hmem⟩ :=
    Machine.exists_merged crc32cCastagnoli
  refine ⟨m, reached, hlevel, by simp [himm], hmem, (marksDeletions_iff reached).2 ?_⟩
  simp [hhist, longWrite]

/-- **A deletion is not recognised**: after a `put` and a `del` of its key, the memtable's
iterator returns sixteen bytes for the deletion. -/
theorem not_marksDeletions_put_del :
    ∃ s₁ s₂, Store.new.put crc32cCastagnoli [1] [9] 1 = .ok s₁ ∧
      s₁.del crc32cCastagnoli [1] .zero 1 = .ok s₂ ∧ ¬ s₂.MarksDeletions := by
  obtain ⟨s₁, ok₁⟩ :=
    Store.VLogsOwned.init.writeImpl_isOk crc32cCastagnoli ⟨[1], .kTypeValue, [9]⟩ .zero 1
  have reached : Machine.Reachable crc32cCastagnoli Machine.Unexpired
      ⟨s₁, false, [⟨[1], .kTypeValue, [9]⟩]⟩ :=
    .step .new (a := .write ⟨[1], .kTypeValue, [9]⟩ .zero 1)
      ⟨⟨Nat.zero_le _, trivial, by simp only [Machine.Fitting]; decide⟩, by simp⟩ (.write ok₁)
  have hintact := intact_of_reachable (fun _ _ hm => hm.1) reached
  have hget : (s₁.getImpl crc32cCastagnoli [1]).1 = .ok [9] := by
    have hlive : s₁.lastLivingSequence = 0 := (Store.writeImpl_fields ok₁).2.2.2.2.2
    have himm : s₁.imm = none := (Store.writeImpl_fields ok₁).2.1
    refine (hintact.getImpl_alive (u := [1]) (n := 0) rfl hlive.le).1 rfl fun hserved => ?_
    obtain ⟨-, imm, himm', -⟩ := hserved
    exact absurd (himm.symm.trans himm') (by simp)
  have howned : (s₁.getImpl crc32cCastagnoli [1]).2.VLogsOwned := by
    rcases s₁.getImpl_snd crc32cCastagnoli [1] with hs | ⟨info, hs⟩
    · rw [hs]
      exact hintact.durable.owned
    · obtain ⟨handles, hs'⟩ := s₁.readValue_handles crc32cCastagnoli info
      rw [hs, hs']
      exact hintact.durable.owned.congr rfl rfl rfl rfl (fun _ _ => rfl) fun _ he => he
  obtain ⟨s₂, ok₂⟩ := howned.writeImpl_isOk crc32cCastagnoli ⟨[1], .kTypeDeletion, []⟩ .zero 1
  refine ⟨s₁, s₂, ok₁, ?_, fun hmarks => ?_⟩
  · rw [Store.del, ← Prod.mk.eta (p := s₁.getImpl crc32cCastagnoli [1]), hget]
    exact ok₂
  · obtain ⟨⟨value, hmem⟩, -⟩ := Store.writeImpl_fields ok₂
    have hheld : s₂.Holds ⟨.ofWrite [1] (s₁.getImpl crc32cCastagnoli [1]).2.lastSequence
        .kTypeDeletion, value⟩ := by
      refine .inl ?_
      rw [hmem]
      exact mem_insertEntry.mpr (.inl rfl)
    have htype := Store.marksDeletions_iff_values.mp hmarks _ hheld
    exact absurd htype (by simp)

end Lsmkv
