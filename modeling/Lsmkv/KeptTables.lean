import Lsmkv.Store

/-!
# Compactions whose tables reach the disk

`BuildWhenCompaction` does not look at the size of the file that it has written, so a
compaction may install a table whose file was damaged on the way to the disk.
`MergesKept` says of the inputs that this does not happen, and `buildWhenCompaction_onDisk_iff`
that exactly then nothing is lost, duplicated or changed on the way from the input tables to
the files of the output tables.  A table is cut as soon as it has reached
`sst_file_size_`, so only its last key can make it too large: compactions of keys up to
`keptKeyLength` bytes always keep their tables (`CompactInfo.keepsTables_of_short`).
-/

namespace Lsmkv

open ByteCode Files

variable {β : Type}

/-! ## Which compactions keep their tables -/

/-- The living entries cut into tables, each with the last key of its index: a table is cut as
soon as it has reached `sst_file_size_`, and the last one has the last key of all. -/
def cutTables (last : InternalKey) (cur : List (Entry β)) :
    List (Entry β) → List (InternalKey × List (Entry β))
  | [] => if cur.isEmpty then [] else [(last, cur)]
  | e :: es =>
      if sstFileSize ≤ approximateSize (cur ++ [e]) then
        (e.key, cur ++ [e]) :: cutTables last [] es
      else cutTables last (cur ++ [e]) es

/-- **The inputs are merged into tables that reach the disk**: the living entries, in the order
in which the loser tree visits them, leave no table with a block that is too large. -/
def MergesKept (live : ℕ) (inputs : List (List (Entry β))) : Prop :=
  ∀ visited e, LoserTree.visit (fun e => e.key.encode) inputs = some (visited ++ [e]) →
    ∀ t ∈ cutTables e.key [] ((visited ++ [e]).filter fun e => decide (live ≤ e.key.seq)),
      TableKept t.1 t.2

/-- **The tables that the compaction writes reach the disk.** -/
def CompactInfo.KeepsTables (live : ℕ) (info : CompactInfo β) : Prop := MergesKept live info.inputs

/-- The tables behind the ones that are finished. -/
theorem Build.tables_run (b : Build β) (live : ℕ) (key : InternalKey) (es : List (Entry β)) :
    (((b.run live es).finish 0 (some key)).newFiles.map fun t => (t.largest, t.entries))
      = (b.newFiles.map fun t => (t.largest, t.entries))
        ++ cutTables key b.out (es.filter fun e => decide (live ≤ e.key.seq)) := by
  induction es generalizing b with
  | nil =>
      rw [Build.run, List.foldl_nil, Build.finish, List.filter_nil, cutTables]
      split
      · rw [List.append_nil]
      · simp [Build.close]
  | cons e es ih =>
      rw [Build.run, List.foldl_cons, ← Build.run, ih]
      by_cases hexp : e.key.seq < live
      · rw [step_expired hexp, List.filter_cons_of_neg (by simpa using hexp)]
        rfl
      · rw [step_live hexp, List.filter_cons_of_pos (by simpa using hexp), cutTables, Build.add]
        by_cases hcut : sstFileSize ≤ approximateSize (b.out ++ [e])
        · simp [hcut, Build.close, Build.see]
        · simp [hcut, Build.see]

/-- The tables that a compaction makes are the ones that are cut from the living entries. -/
theorem mergedTables_tables (live fileno : ℕ) (visited : List (Entry β)) (e : Entry β) :
    (mergedTables live fileno (visited ++ [e])).newFiles.map (fun t => (t.largest, t.entries))
      = cutTables e.key [] ((visited ++ [e]).filter fun e => decide (live ≤ e.key.seq)) := by
  rw [mergedTables, List.getLast?_concat, Option.map_some, Build.tables_run]
  rfl

theorem mergesKept_iff {live : ℕ} (fileno : ℕ) {inputs : List (List (Entry β))} :
    MergesKept live inputs ↔
      ∀ visited, LoserTree.visit (fun e => e.key.encode) inputs = some visited →
        ∀ f ∈ (mergedTables live fileno visited).newFiles, f.Kept := by
  constructor
  · intro h visited hvisit f hf
    rcases List.eq_nil_or_concat visited with rfl | ⟨init, e, rfl⟩
    · simp [mergedTables, Build.run, Build.start, Build.finish] at hf
    · rw [List.concat_eq_append] at hvisit hf
      refine h init e hvisit (f.largest, f.entries) ?_
      rw [← mergedTables_tables live fileno]
      exact List.mem_map_of_mem hf
  · intro h visited e hvisit t ht
    rw [← mergedTables_tables live fileno] at ht
    obtain ⟨f, hf, rfl⟩ := List.mem_map.mp ht
    exact h _ hvisit f hf

/-! ## Views -/

section View

variable {γ : Type} (f : Entry β → γ)

theorem entriesLength_view (es : List (Entry β)) :
    entriesLength (es.map (Entry.view f)) = entriesLength es := by
  simp [entriesLength, Function.comp_def]

theorem cutBlocks_view (cur es : List (Entry β)) :
    cutBlocks (cur.map (Entry.view f)) (es.map (Entry.view f))
      = (cutBlocks cur es).map (List.map (Entry.view f)) := by
  induction es generalizing cur with
  | nil =>
      rw [List.map_nil, cutBlocks, cutBlocks, List.isEmpty_map]
      split
      · rfl
      · rfl
  | cons e es ih =>
      have hcat : cur.map (Entry.view f) ++ [e.view f] = (cur ++ [e]).map (Entry.view f) := by simp
      rw [List.map_cons, cutBlocks, cutBlocks, hcat, entriesLength_view, ih]
      split
      · rw [List.map_cons, ← ih, List.map_nil]
      · rfl

theorem indexKeys_view (largest : InternalKey) (blocks : List (List (Entry β))) :
    indexKeys largest (blocks.map (List.map (Entry.view f))) = indexKeys largest blocks := by
  induction blocks with
  | nil => rfl
  | cons blk blocks ih =>
      cases blocks with
      | nil => rfl
      | cons blk' blocks =>
          simp only [List.map_cons, indexKeys] at ih ⊢
          rw [ih, List.getLast?_map, Option.map_map]
          rfl

/-- Whether a table is kept is a matter of its keys. -/
theorem SSTFile.kept_view {t : SSTFile β} : (t.view f).Kept ↔ t.Kept := by
  have hblocks : tableBlocks (t.entries.map (Entry.view f))
      = (tableBlocks t.entries).map (List.map (Entry.view f)) := cutBlocks_view f [] t.entries
  have hview : (t.view f).Kept ↔ TableKept t.largest (t.entries.map (Entry.view f)) := Iff.rfl
  rw [hview, SSTFile.Kept, TableKept, TableKept, hblocks, indexLength, indexLength, indexKeys_view,
    List.forall_mem_map]
  simp only [entriesLength_view]

/-- The tables that a compaction makes are kept exactly if its inputs are merged into kept
tables. -/
theorem newFiles_kept_iff {crc32c : Bytes → ℕ} {buildVlog : Bool} {live fileno : ℕ}
    {w w' : VLogWork} {inputs : List (List (Entry VLogEntryInfo))} {b : Build VLogEntryInfo}
    {visited : List (Entry VLogEntryInfo)}
    (order : LoserTree.visit (fun e => e.key.encode) inputs = some visited)
    (built : buildWhenCompaction crc32c buildVlog live fileno w inputs = .ok (b, w')) :
    (∀ t ∈ b.newFiles, t.Kept) ↔ MergesKept live inputs := by
  have hshape := congrArg Build.newFiles (buildWhenCompaction_shape order built)
  have hview (files : List (SSTFile VLogEntryInfo)) :
      (∀ t ∈ files, t.Kept) ↔ ∀ t ∈ files.map (SSTFile.view fun _ => ()), t.Kept := by
    simp only [List.forall_mem_map, SSTFile.kept_view]
  rw [hview, show b.newFiles.map (SSTFile.view fun _ => ())
    = (mergedTables live fileno visited).newFiles.map (SSTFile.view fun _ => ()) from hshape,
    ← hview, mergesKept_iff fileno]
  constructor
  · intro h visited' hvisit
    obtain rfl : visited = visited' := Option.some.inj (order.symm.trans hvisit)
    exact h
  · exact fun h => h visited order

/-- The tables of a compaction that keeps its tables are kept. -/
theorem CompactInfo.KeepsTables.of_built {crc32c : Bytes → ℕ} {buildVlog : Bool} {live fileno : ℕ}
    {w w' : VLogWork} {info : CompactInfo VLogEntryInfo} {b : Build VLogEntryInfo}
    (keeps : info.KeepsTables live) (ne : info.oldFiles ≠ [])
    (built : buildWhenCompaction crc32c buildVlog live fileno w info.inputs = .ok (b, w')) :
    ∀ t ∈ b.newFiles, t.Kept := by
  obtain ⟨-, visited, hvisit, -⟩ := visit_of_built ne built
  exact (newFiles_kept_iff hvisit built).mpr keeps

end View

/-! ## The size of an output table -/

theorem length_blockContents_of_values {γ : Type} {f : γ → Bytes} (sixteen : ∀ v, (f v).length = 16)
    (es : List (Entry γ)) :
    (blockContents (es.map (Entry.map f))).length = entriesLength es := by
  induction es with
  | nil => rfl
  | cons e es ih =>
      have hcons : blockContents ((e :: es).map (Entry.map f))
          = blockContents [e.map f] ++ blockContents (es.map (Entry.map f)) := by
        rw [← blockContents_append]
        rfl
      rw [hcons, List.length_append, ih]
      simp [entriesLength, blockContents, Entry.toBlock, sixteen]

theorem length_blockContents_flatten_le (crc32c : Bytes → ℕ) (blocks : List (List (Entry Bytes))) :
    (blockContents blocks.flatten).length ≤ (dataBytes crc32c blocks).length := by
  induction blocks with
  | nil => simp [blockContents]
  | cons blk blocks ih =>
      rw [List.flatten_cons, blockContents_append, dataBytes_cons, List.length_append,
        List.length_append, TableBuilder.length_rawBlock]
      omega

/-- The size that the builder reports counts the entries and the filter. -/
theorem entriesLength_le_approximateSize (es : List (Entry β)) :
    entriesLength es + bloomSize ≤ approximateSize es := by
  let stored := es.map (Entry.map fun _ => List.replicate 16 (0 : Byte))
  obtain ⟨blocks, cur, hbuilds, hes⟩ := (TableBuilder.builds_new fun _ => 0).addAll stored
  rw [List.flatten_nil, List.append_nil, List.nil_append] at hes
  have hlength := congrArg (fun l => (blockContents l).length) hes
  simp only [blockContents_append, List.length_append] at hlength
  rw [length_blockContents_of_values (fun _ => List.length_replicate)] at hlength
  have hblocks := length_blockContents_flatten_le (fun _ => 0) blocks
  have hsize : approximateSize es
      = (TableBuilder.new.addAll (fun _ => 0) stored).approximateFileSize := rfl
  rw [hsize, TableBuilder.approximateFileSize, hbuilds.offset_eq, hbuilds.data_eq,
    hbuilds.covers.length_buffer]
  omega

/-- The longest key that never makes a table of a compaction too large. -/
def keptKeyLength : ℕ := 65500

/-- A table of one key. -/
theorem tableKept_singleton {k : InternalKey} (short : k.userKey.length ≤ keptKeyLength) (v : β) :
    TableKept k [⟨k, v⟩] := by
  rw [← List.nil_append [(⟨k, v⟩ : Entry β)]]
  refine .of_entriesLength ?_ ?_
  · simp only [entriesLength, List.nil_append, List.map_cons, List.map_nil, List.sum_cons,
      List.sum_nil, keptKeyLength] at short ⊢
    omega
  · simp only [entriesLength, List.nil_append, List.map_cons, List.map_nil, List.sum_cons,
      List.sum_nil, keptKeyLength] at short ⊢
    omega

/-- **A table of a compaction is kept** when its keys are not too long: without its last entry
it was not large enough to be cut. -/
theorem tableKept_of_cut {es : List (Entry β)} {e : Entry β} (room : approximateSize es < sstFileSize)
    (short : e.key.userKey.length ≤ keptKeyLength) : TableKept e.key (es ++ [e]) := by
  have hle := entriesLength_le_approximateSize es
  have hlast : entriesLength [e] = e.key.userKey.length + 32 := by simp [entriesLength]
  simp only [bloomSize, sstFileSize, keptKeyLength] at hle room short
  refine .of_entriesLength ?_ ?_
  · rw [entriesLength_append, hlast]
    omega
  · rw [entriesLength_append, hlast]
    omega

/-- And so is the last one, which may end in a key that was dropped. -/
theorem tableKept_of_room {es : List (Entry β)} {largest : InternalKey}
    (room : approximateSize es < sstFileSize) (short : largest.userKey.length ≤ keptKeyLength)
    (ne : es ≠ []) : TableKept largest es := by
  have hle := entriesLength_le_approximateSize es
  simp only [bloomSize, sstFileSize, keptKeyLength] at hle room short
  have hsplit := List.dropLast_append_getLast ne
  rw [← hsplit]
  refine .of_entriesLength ?_ ?_
  · rw [hsplit]
    omega
  · rw [hsplit]
    omega

/-! ## The output tables of a compaction -/

namespace Build

/-- The finished tables are kept, and the open one is not large enough to be cut. -/
structure Roomy (b : Build β) : Prop where
  kept : ∀ f ∈ b.newFiles, f.Kept
  room : approximateSize b.out < sstFileSize

variable {b : Build β} {live : ℕ} {e : Entry β}

theorem approximateSize_nil : approximateSize ([] : List (Entry β)) < sstFileSize := by
  have hfilter : TableBuilder.new.filterBlock.buffer.length = bloomSize := List.length_replicate
  show TableBuilder.new.approximateFileSize < sstFileSize
  rw [TableBuilder.approximateFileSize, hfilter]
  decide

theorem Roomy.start (fileno : ℕ) : (start fileno : Build β).Roomy :=
  ⟨by simp [Build.start], approximateSize_nil⟩

theorem Roomy.of_close (kept : ∀ f ∈ b.newFiles, f.Kept) (n : ℕ) {largest : InternalKey}
    (out : TableKept largest b.out) : (b.close n largest).Roomy := by
  refine ⟨fun f hf => ?_, approximateSize_nil⟩
  rcases List.mem_append.mp hf with hf | hf
  · exact kept f hf
  · rw [List.mem_singleton.mp hf]
    exact out

theorem Roomy.step (h : b.Roomy) (short : e.key.userKey.length ≤ keptKeyLength) :
    (b.step live e).Roomy := by
  by_cases hexp : e.key.seq < live
  · rw [step_expired hexp]
    exact ⟨h.kept, h.room⟩
  · rw [step_live hexp, Build.add]
    split
    · exact .of_close (b := { b.see e.key with out := b.out ++ [e] }) h.kept 0
        (tableKept_of_cut h.room short)
    · rename_i hroom
      exact ⟨h.kept, not_le.mp hroom⟩

theorem Roomy.run (h : b.Roomy) {es : List (Entry β)}
    (short : ∀ e ∈ es, e.key.userKey.length ≤ keptKeyLength) : (b.run live es).Roomy := by
  induction es generalizing b with
  | nil => exact h
  | cons e es ih =>
      exact ih (h.step (short e List.mem_cons_self)) fun d hd => short d (List.mem_cons_of_mem _ hd)

theorem Roomy.finish (h : b.Roomy) {last : Option InternalKey}
    (short : ∀ key, last = some key → key.userKey.length ≤ keptKeyLength) :
    ∀ f ∈ (b.finish 0 last).newFiles, f.Kept := by
  cases last with
  | none => exact h.kept
  | some key =>
      rw [Build.finish]
      split
      · exact h.kept
      · rename_i hout
        have hne : b.out ≠ [] := fun hnil => hout (List.isEmpty_iff.mpr hnil)
        exact (Roomy.of_close h.kept 0 (tableKept_of_room h.room (short key rfl) hne)).kept

end Build

/-- **The tables that are merged from short keys are kept.** -/
theorem mergedTables_kept {live fileno : ℕ} {visited : List (Entry β)}
    (short : ∀ e ∈ visited, e.key.userKey.length ≤ keptKeyLength) :
    ∀ f ∈ (mergedTables live fileno visited).newFiles, f.Kept := by
  refine ((Build.Roomy.start fileno).run short).finish fun key hkey => ?_
  obtain ⟨e, he, rfl⟩ := Option.map_eq_some_iff.mp hkey
  exact short e (List.mem_of_getLast? he)

/-- **Short keys are merged into kept tables.** -/
theorem mergesKept_of_short {live : ℕ} {inputs : List (List (Entry β))} (two : 2 ≤ inputs.length)
    (short : ∀ e ∈ inputs.flatten, e.key.userKey.length ≤ keptKeyLength) :
    MergesKept live inputs :=
  (mergesKept_iff 0).mpr fun _ hvisit =>
    mergedTables_kept fun e he => short e ((visit_perm two hvisit).mem_iff.mp he)

/-- **A compaction of short keys keeps its tables.** -/
theorem CompactInfo.keepsTables_of_short {live : ℕ} {info : CompactInfo β}
    (ne : info.oldFiles ≠ [])
    (short : ∀ e ∈ info.inputs.flatten, e.key.userKey.length ≤ keptKeyLength) :
    info.KeepsTables live := by
  intro visited e hvisit
  have htwo := two_le_of_visit (by simpa [CompactInfo.inputs] using fun h => absurd h ne) hvisit
  exact mergesKept_of_short htwo short visited e hvisit

/-! ## From tables to files -/

/-- **A compaction neither loses, duplicates nor changes an entry**: the output tables hold the
keys and payloads of the living inputs, and their files hold the tables, in whatever order the
kernel executes the writes. -/
def PayloadsOnDisk (crc32c : Bytes → ℕ) (d d' : VLogDir) (live : ℕ)
    (inputs : List (List (Entry VLogEntryInfo))) (tables : List (SSTFile VLogEntryInfo)) : Prop :=
  payloads crc32c d' (tables.flatMap (·.entries))
      = payloads crc32c d (inputs.flatten.filter fun e => decide (live ≤ e.key.seq)) ∧
    ∀ t ∈ tables, ∀ f, UringFile.Written (t.calls crc32c) f → f.content = t.bytes crc32c

/-- **When a compaction keeps what it merges.**  Every write succeeds, every value can be read,
and then the output holds the living inputs exactly if no block of an output table is too
large. -/
theorem buildWhenCompaction_onDisk_iff (crc32c : Bytes → ℕ) (buildVlog : Bool) (live fileno : ℕ)
    {w : VLogWork} {inputs : List (List (Entry VLogEntryInfo))} (two : 2 ≤ inputs.length)
    (wf : w.vlogs.WellFormed) (fresh : ∀ n, w.lastVlogFileNo ≤ n → w.vlogs.inode n = none)
    (readable : ∀ e ∈ inputs.flatten, live ≤ e.key.seq → e.key.type = .kTypeValue →
      ∃ v, Resolves crc32c w.vlogs e.value e.key v) :
    ∃ b w', buildWhenCompaction crc32c buildVlog live fileno w inputs = .ok (b, w') ∧
      b.out = [] ∧
      (PayloadsOnDisk crc32c w.vlogs w'.vlogs live inputs b.newFiles ↔ MergesKept live inputs) := by
  obtain ⟨b, w', hok, hout, hpayloads⟩ :=
    buildWhenCompaction_payloads crc32c buildVlog live fileno two wf fresh readable
  obtain ⟨visited, hvisit, -⟩ := visit_headMerge (fun e : Entry VLogEntryInfo => e.key.encode) two
  have hne : ∀ t ∈ b.newFiles, t.entries ≠ [] := (buildWhenCompaction_consecutive hvisit hok).nonempty
  refine ⟨b, w', hok, hout, ?_⟩
  rw [PayloadsOnDisk, and_iff_right hpayloads, ← newFiles_kept_iff hvisit hok]
  exact forall₂_congr fun t ht => SSTFile.content_eq_bytes_iff crc32c (hne t ht)

/-- Two tables, one value expired: the rest is copied into a new value log. -/
theorem buildWhenCompaction_onDisk_two_tables :
    let k₁ := InternalKey.ofWrite [1] 4 .kTypeValue
    let k₂ := InternalKey.ofWrite [2] 5 .kTypeDeletion
    let k₃ := InternalKey.ofWrite [3] 1 .kTypeValue
    let data := recordBytes crc32cCastagnoli k₁ [9]
    let d : VLogDir := ⟨fun n => if n = 0 then some 0 else none, fun _ => data, 1⟩
    let inputs : List (List (Entry VLogEntryInfo)) := [[⟨k₁, ⟨0, 0, 18⟩⟩], [⟨k₂, .zero⟩, ⟨k₃, .zero⟩]]
    ∃ b w', buildWhenCompaction crc32cCastagnoli true 2 7 ⟨1, d, .new⟩ inputs = .ok (b, w') ∧
      PayloadsOnDisk crc32cCastagnoli d w'.vlogs 2 inputs b.newFiles := by
  intro k₁ k₂ k₃ data d inputs
  have hresolves : Resolves crc32cCastagnoli d ⟨0, 0, 18⟩ k₁ [9] := by
    refine ⟨⟨⟨0, [], rfl, rfl, ?_⟩, by simp [recordLength, k₁], by decide⟩, by decide⟩
    rw [List.nil_append]
  have htwo : 2 ≤ inputs.length := by simp [inputs]
  obtain ⟨b, w', hok, -, hiff⟩ := buildWhenCompaction_onDisk_iff crc32cCastagnoli true 2 7
    (w := ⟨1, d, .new⟩) htwo
    ⟨by intro n i h; simp_all [d], by intro m n i hm hn; simp_all [d]⟩
    (by
      intro n hn
      have hne : n ≠ 0 := Nat.one_le_iff_ne_zero.mp hn
      simp [d, hne])
    (by
      intro e he hlive htype
      simp only [inputs, List.flatten_cons, List.flatten_nil, List.cons_append, List.nil_append,
        List.mem_cons, List.not_mem_nil, or_false] at he
      rcases he with rfl | rfl | rfl
      · exact ⟨[9], hresolves⟩
      · simp [k₂] at htype
      · simp [k₃] at hlive)
  refine ⟨b, w', hok, hiff.mpr (mergesKept_of_short htwo fun e he => ?_)⟩
  simp only [inputs, List.flatten_cons, List.flatten_nil, List.cons_append, List.nil_append,
    List.mem_cons, List.not_mem_nil, or_false] at he
  rcases he with rfl | rfl | rfl <;> decide

theorem visit_pair {α κ : Type} [LinearOrder κ] (key : α → κ) {a b : α} (h : key a < key b) :
    LoserTree.visit key [[a], [b]] = some [a, b] := by
  simp [LoserTree.visit, LoserTree.create, playLeaves, playMiddle, playLevels, playLevel,
    setLoserWinner, vecSet, iterCmp, h, LoserTree.drain, LoserTree.topIter, LoserTree.increment,
    LoserTree.adjust]

/-- A first entry that does not fill a block. -/
theorem approximateSize_singleton {e : Entry β} (small : entriesLength [e] < blockSize) :
    approximateSize [e] = entriesLength [e] + kBlockTrailerSize + bloomSize := by
  have hopen : ¬ blockSize ≤ (entryBytes (e.key.encode, List.replicate 16 (0 : Byte))).length := by
    simp only [entriesLength, List.map_cons, List.map_nil, List.sum_cons, List.sum_nil] at small
    simp only [length_entryBytes, InternalKey.length_encode, List.length_replicate]
    omega
  have hlength : entriesLength [e]
      = (entryBytes (e.key.encode, List.replicate 16 (0 : Byte))).length := by
    simp [entriesLength]
  simp only [approximateSize, TableBuilder.addAll, List.map_cons, List.map_nil, List.foldl_cons,
    List.foldl_nil, TableBuilder.add, TableBuilder.addIndexEntry_eq]
  split
  · rename_i hfull
    exact absurd (by simpa [TableBuilder.appendEntry, TableBuilder.new] using hfull) hopen
  · rw [hlength]
    simp [TableBuilder.approximateFileSize, TableBuilder.appendEntry, TableBuilder.new,
      TableBuilder.fullIndex, FilterBlockBuilder.addKey, FilterBlockBuilder.new]

/-- Two entries that only together fill a block make a table of one block. -/
theorem cutTables_pair (last : InternalKey) {a b : Entry β} (small : entriesLength [a] < blockSize)
    (large : sstFileSize ≤ entriesLength [a, b]) :
    cutTables last [] [a, b] = [(b.key, [a, b])] ∧ tableBlocks [a, b] = [[a, b]] := by
  have hsizes : blockSize = 16384 ∧ sstFileSize = 32768 ∧ bloomSize = 8192 ∧
    kBlockTrailerSize = 4 := ⟨rfl, rfl, rfl, rfl⟩
  have hopen : ¬ sstFileSize ≤ approximateSize [a] := by
    rw [approximateSize_singleton small]
    omega
  have hcut : sstFileSize ≤ approximateSize [a, b] := by
    have hle := entriesLength_le_approximateSize [a, b]
    omega
  have hblock : blockSize ≤ entriesLength [a, b] := by omega
  constructor
  · simp [cutTables, hopen, hcut]
  · simp [tableBlocks, cutBlocks, not_le.mpr small, hblock]

/-- The merge of two tables of one key, which only together fill a block. -/
theorem not_mergesKept {a b : Entry β} {live : ℕ} (lt : a.key.encode < b.key.encode)
    (alive : live ≤ a.key.seq ∧ live ≤ b.key.seq) (small : entriesLength [a] < blockSize)
    (large : 98304 ≤ entriesLength [a, b]) : ¬ MergesKept live [[a], [b]] := by
  obtain ⟨hcut, hblocks⟩ := cutTables_pair b.key small (le_trans (by simp [sstFileSize]) large)
  have hliving : [a, b].filter (fun e => decide (live ≤ e.key.seq)) = [a, b] := by simp [alive]
  intro hkept
  have htable := hkept [a] b (visit_pair (fun e : Entry β => e.key.encode) lt) (b.key, [a, b])
  rw [List.singleton_append, hliving, hcut] at htable
  have hsizes := (htable (List.mem_singleton_self _)).1
  rw [hblocks] at hsizes
  exact absurd (hsizes [a, b] (List.mem_singleton_self _)) (not_lt.mpr large)

/-- A table of one key is flushed undamaged up to a key of 90075 bytes. -/
theorem flushKept_singleton {e : Entry β} (short : e.key.userKey.length < 90076) :
    FlushKept [e] := by
  intro d hd
  obtain rfl : e = d := by simpa using hd
  rw [← List.nil_append [e]]
  refine .of_entriesLength ?_ ?_
  · simp [entriesLength]
    omega
  · simp [entriesLength]
    omega

/-- **Two keys that damage the file of their table.**  Tables of one tombstone each, of keys of
16000 and 85000 bytes, are on the disk as they should be, and become one data block. -/
theorem not_buildWhenCompaction_onDisk :
    let k₁ := InternalKey.ofWrite (List.replicate 16000 1) 4 .kTypeDeletion
    let k₂ := InternalKey.ofWrite (List.replicate 85000 2) 5 .kTypeDeletion
    let inputs : List (List (Entry VLogEntryInfo)) := [[⟨k₁, .zero⟩], [⟨k₂, .zero⟩]]
    (∀ t ∈ inputs, FlushKept t) ∧
    ∃ b w', buildWhenCompaction crc32cCastagnoli false 0 7 ⟨0, Dir.empty, .new⟩ inputs = .ok (b, w') ∧
      ¬ PayloadsOnDisk crc32cCastagnoli Dir.empty w'.vlogs 0 inputs b.newFiles := by
  intro k₁ k₂ inputs
  have hlen₁ : k₁.userKey.length = 16000 := List.length_replicate
  have hlen₂ : k₂.userKey.length = 85000 := List.length_replicate
  have htypes : k₁.type = .kTypeDeletion ∧ k₂.type = .kTypeDeletion :=
    ⟨InternalKey.type_ofWrite _ _ _, InternalKey.type_ofWrite _ _ _⟩
  have hlt : k₁.encode < k₂.encode := by
    rw [InternalKey.encode, InternalKey.encode]
    exact List.Lex.rel (by decide)
  have hnot : ¬ MergesKept 0 inputs := by
    refine not_mergesKept hlt ⟨Nat.zero_le _, Nat.zero_le _⟩ ?_ ?_
    · simp [entriesLength, hlen₁, blockSize]
    · simp [entriesLength, hlen₁, hlen₂]
  refine ⟨fun t ht => ?_, ?_⟩
  · rcases List.mem_pair.mp ht with rfl | rfl
    · exact flushKept_singleton (by rw [hlen₁]; decide)
    · exact flushKept_singleton (by rw [hlen₂]; decide)
  · obtain ⟨b, w', hok, -, -⟩ := buildWhenCompaction_payloads crc32cCastagnoli false 0 7
      (w := ⟨0, Dir.empty, .new⟩) (show 2 ≤ inputs.length from le_rfl) Dir.wellFormed_empty
      (fun _ _ => rfl) (by
        intro e he _ htype
        rcases List.mem_pair.mp he with rfl | rfl
        · exact absurd (htypes.1.symm.trans htype) (by decide)
        · exact absurd (htypes.2.symm.trans htype) (by decide))
    have hvisit := visit_pair (fun e : Entry VLogEntryInfo => e.key.encode)
      (a := ⟨k₁, .zero⟩) (b := ⟨k₂, .zero⟩) hlt
    refine ⟨b, w', hok, fun h => hnot ((newFiles_kept_iff hvisit hok).mp fun t ht => ?_)⟩
    have hne := (buildWhenCompaction_consecutive hvisit hok).nonempty t ht
    exact (SSTFile.content_eq_bytes_iff crc32cCastagnoli hne).mp (h.2 t ht)

end Lsmkv
