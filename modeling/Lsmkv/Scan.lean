import Lsmkv.Iterators
import Lsmkv.Snapshot

/-!
# Scans

`KVStore::scan` and `KVStore::scan_w_cro` (`src/kvstore.cc`) return the pairs of a range of
keys.  Both collect the versions of the range in a map: from the memtable, the immutable
memtable, the tables of level 0 from the newest on, and the tables of the deeper levels
(`Store.collect`).  The map keeps what comes first, so it holds for each key the first version
in the order of the sources (`Store.collect_getElem?`).

They differ in how the locations in the list are replaced by values.  `scan` reads one after
another with `VLogReader`, drops what has expired, and stops at another failure
(`Store.resolveList`).  `scan_w_cro` starts a read for each (`CoroVLogReader::ReadList`,
`src/include/reader.h`); a read that completes writes its value into its own place of the list,
and one that fails leaves the location there (`Store.readList`).
-/

namespace Lsmkv

open ByteCode Files

variable {crc32c : Bytes → ℕ}

/-! ## Collecting the versions of a range -/

/-- `TableIterator::seek(K1, K2)` and the iteration that follows.  Of the index the blocks from
the first key not below `k1` to the first key above `k2` are read, and where there is none,
the first block; in what was read the range is searched again.  A table whose file cannot be
opened yields nothing. -/
def SSTFile.range (sstFiles : ℕ → Bool) (k1 k2 : Bytes) (f : SSTFile VLogEntryInfo) :
    List (Entry VLogEntryInfo) :=
  if sstFiles f.fileNumber then
    let blocks := tableBlocks f.entries
    let index := (indexKeys f.largest blocks).zip blocks
    let cur := index.dropWhile fun p => decide (p.1.userKey < k1)
    let count := (cur.takeWhile fun p => decide (p.1.userKey ≤ k2)).length
    let read := if count = 0 then blocks.take 1 else (cur.take (count + 1)).map Prod.snd
    (read.flatten.dropWhile fun e => decide (e.key.userKey < k1)).takeWhile
      fun e => decide (e.key.userKey ≤ k2)
  else []

/-- `LevelCache::scan`.  `cache[0]` of an empty vector is a fault. -/
def scanLevels (sstFiles : ℕ → Bool) (seq : ℕ) (k1 k2 : Bytes) :
    List (Level VLogEntryInfo) → KeyMap → Outcome KeyMap
  | [], _ => .fault
  | level0 :: levels, keyMap =>
      .ok ((level0.reverse ++ levels.flatten).foldl
        (fun keyMap f => keyMap.scan seq (f.range sstFiles k1 k2)) keyMap)

namespace Store

/-- The first half of `scan` and `scan_w_cro`. -/
def collect (s : Store) (k1 k2 : Bytes) : Outcome KeyMap :=
  let seq := s.lastSequence
  let K1 := queryKey seq k1
  let K2 := queryKey seq k2
  let keyMap := KeyMap.scan seq ∅ (s.mem.range K1 K2)
  let keyMap := match s.imm with
    | none => keyMap
    | some imm => keyMap.scan seq (imm.range K1 K2)
  scanLevels s.sstFiles seq k1 k2 s.levels keyMap

/-- The list after the map was copied to it: keys with the locations of their versions. -/
def locations (keyMap : KeyMap) : List (Bytes × VLogEntryInfo) :=
  keyMap.toList.map fun p => (p.1, p.2.value)

variable (crc32c)

/-! ## Replacing the locations, one after another -/

/-- The loop at the end of `scan`.  `status` is the status of the iteration before, and places
of the list that the loop does not reach keep the bytes of their location. -/
def resolveList : Store → Code → List (Bytes × VLogEntryInfo) →
    Outcome (Code × List (Bytes × Bytes)) × Store
  | s, status, [] => (.ok (status, []), s)
  | s, status, (key, info) :: rest =>
      if info.encode.isEmpty then resolveList s status rest
      else
        match s.readValue crc32c info with
        | (.ok value, s) =>
            let (result, s) := resolveList s .kOk rest
            (result >>= fun p => .ok (p.1, (key, value) :: p.2), s)
        | (.fail c, s) =>
            if c = .kExpired then resolveList s .kExpired rest
            else (.ok (c, (key, info.encode) :: rest.map fun p => (p.1, p.2.encode)), s)
        | (.fault, s) => (.fault, s)

/-- `scan(key1, key2, list)` with an empty list: the status and the list. -/
def scan (s : Store) (k1 k2 : Bytes) : Outcome (Code × List (Bytes × Bytes)) × Store :=
  match s.collect k1 k2 with
  | .ok keyMap => s.resolveList crc32c .kOk (locations keyMap)
  | .fail c => (.fail c, s)
  | .fault => (.fault, s)

/-! ## Replacing the locations, in the order of completion -/

/-- A read of `CoroVLogReader`: a place of the list, what is read for it, and the status of the
coroutine when it is done. -/
structure ReadTask where
  key : Bytes
  value : Bytes
  info : VLogEntryInfo
  status : Option Code

/-- `Async_ReadOne` when its read completes.  What the completion reports is not looked at, so
after an `open` that failed or a read that was short the buffer holds what it held before; past
the read the text is that of `VLogReader::Read`. -/
def asyncReadOne (s : Store) (t : ReadTask) : Outcome ReadTask :=
  match s.vlogs.contents t.info.fileNo with
  | none => .fault
  | some data =>
      if (pread data t.info.offset (fetchSize t.info)).length ≠ fetchSize t.info then .fault
      else
        match vlogRead crc32c (some s.lastLivingSequence) data t.info with
        | .ok value => .ok { t with value := value, status := some .kOk }
        | .fail c => .ok { t with status := some c }
        | .fault => .fault

/-- The completion of the task `i`. -/
def completeTask (s : Store) (tasks : List ReadTask) (i : ℕ) : Outcome (List ReadTask) :=
  match tasks[i]? with
  | none => .ok tasks
  | some t => do
      let t ← s.asyncReadOne crc32c t
      .ok (tasks.set i t)

/-- The last loop of `ReadList`: the status of the first task that is not `NotFound`. -/
def listStatus : List ReadTask → Outcome Code
  | [] => .ok .kOk
  | t :: ts =>
      match t.status with
      | none => .fault
      | some c => if c = .kNotFound then listStatus ts else .ok c

/-- `ReadList(list)`, when the reads complete in the given order.  Every task is counted twice
when it starts and twice when it is done, so the loop waits for all of them. -/
def readList (s : Store) (order : List ℕ) (list : List (Bytes × VLogEntryInfo)) :
    Outcome (Code × List (Bytes × Bytes)) := do
  let tasks := (list.filter fun p => !p.2.encode.isEmpty).map fun p =>
    ReadTask.mk p.1 p.2.encode p.2 none
  let tasks ← order.foldlM (s.completeTask crc32c) tasks
  let status ← listStatus tasks
  .ok (status, tasks.map fun t => (t.key, t.value))

/-- `scan_w_cro(key1, key2, list)` with an empty list. -/
def scanWCro (s : Store) (order : List ℕ) (k1 k2 : Bytes) :
    Outcome (Code × List (Bytes × Bytes)) :=
  match s.collect k1 k2 with
  | .ok keyMap => s.readList crc32c order (locations keyMap)
  | .fail c => .fail c
  | .fault => .fault

end Store

/-! ## What is collected -/

theorem untilEnd_subset {α : Type} (stop es : List α) : untilEnd stop es ⊆ es := by
  induction es with
  | nil => simp [untilEnd]
  | cons e es ih =>
      rw [untilEnd]
      split
      · simp
      · exact List.cons_subset_cons e ih

/-- A range iteration yields entries of the memtable. -/
theorem MemTable.range_subset (m : MemTable) (K1 K2 : InternalKey) : m.range K1 K2 ⊆ m.entries := by
  have hcur : ∀ stop, untilEnd stop (m.entries.dropWhile fun e => decide (e.key < K1))
      ⊆ m.entries := fun stop =>
    List.Subset.trans (untilEnd_subset stop _) (List.dropWhile_sublist _).subset
  rw [MemTable.range]
  split
  · exact hcur _
  · split
    · exact hcur _
    · exact hcur _

/-- A range iteration yields entries of the table. -/
theorem SSTFile.range_subset (sstFiles : ℕ → Bool) (k1 k2 : Bytes) (f : SSTFile VLogEntryInfo) :
    f.range sstFiles k1 k2 ⊆ f.entries := by
  have hread : ∀ read : List (List (Entry VLogEntryInfo)), read ⊆ tableBlocks f.entries →
      (read.flatten.dropWhile fun e => decide (e.key.userKey < k1)).takeWhile
        (fun e => decide (e.key.userKey ≤ k2)) ⊆ f.entries := by
    intro read hread e he
    have he := (List.dropWhile_sublist _).subset ((List.takeWhile_sublist _).subset he)
    obtain ⟨blk, hblk, he⟩ := List.mem_flatten.mp he
    rw [← flatten_tableBlocks f.entries]
    exact List.mem_flatten.mpr ⟨blk, hread hblk, he⟩
  simp only [SSTFile.range]
  split
  · refine hread _ ?_
    split
    · exact List.take_subset _ _
    · intro blk hblk
      obtain ⟨p, hp, rfl⟩ := List.mem_map.mp hblk
      have hp := (List.dropWhile_sublist _).subset (List.take_subset _ _ hp)
      exact (List.of_mem_zip hp).2
  · simp

namespace Store

variable {s : Store} {k1 k2 u : Bytes} {keyMap : KeyMap} {e : Entry VLogEntryInfo}

/-- What the iterators of a scan yield, in the order in which they are read. -/
def scanSources (s : Store) (k1 k2 : Bytes) : List (List (Entry VLogEntryInfo)) :=
  let K1 := queryKey s.lastSequence k1
  let K2 := queryKey s.lastSequence k2
  s.mem.range K1 K2 :: (s.imm.toList.map (fun imm => imm.range K1 K2) ++
    ((levelAt s.levels 0).reverse ++ (s.levels.drop 1).flatten).map fun f =>
      f.range s.sstFiles k1 k2)

/-- A scan calls `Scan` on one source after another. -/
theorem collect_eq_scanAll (ne : s.levels ≠ []) (k1 k2 : Bytes) :
    s.collect k1 k2 = .ok (KeyMap.scanAll s.lastSequence ∅ (s.scanSources k1 k2)) := by
  obtain ⟨level0, levels, hlevels⟩ := List.exists_cons_of_ne_nil ne
  cases himm : s.imm with
  | none =>
      rw [collect, scanSources, hlevels, himm]
      exact congrArg Outcome.ok List.foldl_map.symm
  | some imm =>
      rw [collect, scanSources, hlevels, himm]
      exact congrArg Outcome.ok List.foldl_map.symm

/-- **A scan collects the first version that its sources yield of each key.** -/
theorem collect_getElem? (h : s.collect k1 k2 = .ok keyMap) (u : Bytes) :
    keyMap[u]? = (s.scanSources k1 k2).findSome? fun src => visible src s.lastSequence u := by
  have hne : s.levels ≠ [] := fun hnil => by simp [collect, hnil, scanLevels] at h
  rw [collect_eq_scanAll hne, Outcome.ok.injEq] at h
  rw [← h, KeyMap.getElem?_scanAll, visible, List.find?_flatten, Std.TreeMap.getElem?_emptyc,
    Option.none_or]
  rfl

/-- Where there are levels, something is collected. -/
theorem collect_isOk (ne : s.levels ≠ []) (k1 k2 : Bytes) :
    ∃ keyMap, s.collect k1 k2 = .ok keyMap := by
  cases hlevels : s.levels with
  | nil => exact absurd hlevels ne
  | cons level0 levels => exact ⟨_, by rw [collect, hlevels, scanLevels]⟩

/-- What is collected is held. -/
theorem collect_holds (h : s.collect k1 k2 = .ok keyMap) (found : keyMap[u]? = some e) :
    s.Holds e ∧ e.key.userKey = u := by
  rw [collect_getElem? h] at found
  obtain ⟨src, hsrc, hvis⟩ := List.exists_of_findSome?_eq_some found
  obtain ⟨he, hu, -⟩ := visible_mem hvis
  refine ⟨?_, hu⟩
  rcases List.mem_cons.mp hsrc with rfl | hsrc
  · exact .inl (MemTable.range_subset _ _ _ he)
  · rcases List.mem_append.mp hsrc with hsrc | hsrc
    · obtain ⟨imm, himm, rfl⟩ := List.mem_map.mp hsrc
      exact .inr (.inl ⟨imm, Option.mem_toList.mp himm, MemTable.range_subset _ _ _ he⟩)
    · obtain ⟨f, hf, rfl⟩ := List.mem_map.mp hsrc
      have he := SSTFile.range_subset _ _ _ _ he
      rcases List.mem_append.mp hf with hf | hf
      · exact .inr (.inr ⟨0, f, List.mem_reverse.mp hf, he⟩)
      · obtain ⟨level, hlevel, hf⟩ := List.mem_flatten.mp hf
        obtain ⟨i, hi, rfl⟩ := List.mem_iff_getElem.mp (List.mem_of_mem_drop hlevel)
        exact .inr (.inr ⟨i, f, mem_levelAt.mpr ⟨hi, hf⟩, he⟩)

end Store

/-! ## Reading what was collected -/

namespace Store

/-- A location that leads to a record, and what a reader makes of it: the value, or nothing when
the record has expired. -/
def Answers (crc32c : Bytes → ℕ) (s : Store) (info : VLogEntryInfo) (read : Option Bytes) : Prop :=
  ∃ key value, Resolves crc32c s.vlogs info key value ∧ key.tag < 2 ^ 64 ∧
    read = if key.seq < s.lastLivingSequence then none else some value

variable {s : Store} {info : VLogEntryInfo} {read : Option Bytes}

/-- The outcome of a read that found its record. -/
def readOutcome : Option Bytes → Outcome Bytes
  | some value => .ok value
  | none => .fail .kExpired

/-- What `VLogReader` answers, with any files open. -/
theorem Answers.readCached (h : s.Answers crc32c info read) {handles : List (ℕ × ℕ)}
    (agree : Agree handles s.vlogs s.lastVlogFileNo) :
    (readCached crc32c pread (some s.lastLivingSequence) s.vlogs handles info).1 = readOutcome read := by
  obtain ⟨key, value, hresolves, htag, rfl⟩ := h
  rw [readCached_of_resolves agree.same hresolves, expiryCheck_eq htag]
  by_cases hexpired : key.seq < s.lastLivingSequence
  · simp [hexpired, readOutcome]
  · simp [hexpired, readOutcome]

/-- A task after its read has completed. -/
def ReadTask.done (t : ReadTask) : Option Bytes → ReadTask
  | some value => { t with value := value, status := some .kOk }
  | none => { t with status := some .kExpired }

/-- What `Async_ReadOne` makes of it. -/
theorem Answers.asyncReadOne {t : ReadTask} (h : s.Answers crc32c t.info read) :
    s.asyncReadOne crc32c t = .ok (t.done read) := by
  obtain ⟨key, value, hresolves, htag, rfl⟩ := h
  obtain ⟨i, pre, hi, hlen, hrecord⟩ := hresolves.record
  have hfetch : pread (s.vlogs.data i) t.info.offset (fetchSize t.info)
      = recordBytes crc32c key value := by
    rw [hresolves.fetchSize_eq, pread_of_le hresolves.readable,
      readAt_of_record hlen hrecord hresolves.length_eq]
  have hshort : (recordBytes crc32c key value).length = fetchSize t.info := by
    rw [length_recordBytes, hresolves.fetchSize_eq, hresolves.length_eq]
  have hread := hresolves.vlogRead hlen hrecord (some s.lastLivingSequence)
  rw [expiryCheck_eq htag] at hread
  simp only [Store.asyncReadOne, Dir.contents, hi, Option.map_some, hfetch, hshort,
    ne_eq, not_true_eq_false, if_false, hread]
  by_cases hexpired : key.seq < s.lastLivingSequence
  · simp [hexpired, ReadTask.done]
  · simp [hexpired, ReadTask.done]

theorem encode_isEmpty (info : VLogEntryInfo) : info.encode.isEmpty = false := by
  cases h : info.encode with
  | nil => simpa [h] using VLogEntryInfo.length_encode info
  | cons b bs => rfl

/-- The pairs whose value was read. -/
def answered : List (Bytes × VLogEntryInfo) → List (Option Bytes) → List (Bytes × Bytes)
  | (key, _) :: list, some value :: reads => (key, value) :: answered list reads
  | _ :: list, none :: reads => answered list reads
  | _, _ => []

/-- **The loop of `scan` drops what has expired.**  Its status is that of the last read. -/
theorem resolveList_of_answers {list : List (Bytes × VLogEntryInfo)} {reads : List (Option Bytes)}
    (h : List.Forall₂ (fun p read => s.Answers crc32c p.2 read) list reads)
    (fresh : ∀ n, s.lastVlogFileNo ≤ n → s.vlogs.inode n = none) {handles : List (ℕ × ℕ)}
    (agree : Agree handles s.vlogs s.lastVlogFileNo) (status : Code) :
    ∃ status', (resolveList crc32c { s with handles := handles } status list).1
        = .ok (status', answered list reads) ∧
      (none ∉ reads → status = .kOk → status' = .kOk) := by
  induction h generalizing handles status with
  | nil => exact ⟨status, rfl, fun _ hok => hok⟩
  | @cons p read list reads hp hrest ih =>
      obtain ⟨key, info⟩ := p
      -- Only the open files change from one read to the next.
      have hagree : Agree (readCached crc32c pread (some s.lastLivingSequence) s.vlogs handles info).2
          s.vlogs s.lastVlogFileNo := agree.read fresh pread (some s.lastLivingSequence) info
      rw [Store.resolveList, encode_isEmpty, Store.readValue_eq]
      simp only [Bool.false_eq_true, if_false, hp.readCached agree]
      cases read with
      | some value =>
          obtain ⟨status', hres, hstatus⟩ := ih hagree .kOk
          refine ⟨status', ?_, fun hno _ => hstatus (fun hmem => hno (List.mem_cons_of_mem _ hmem)) rfl⟩
          simp only [readOutcome, hres, Outcome.ok_bind, answered]
      | none =>
          obtain ⟨status', hres, -⟩ := ih hagree .kExpired
          refine ⟨status', ?_, fun hno => absurd List.mem_cons_self hno⟩
          simp only [readOutcome, if_true, hres, answered]

/-- A list of locations, with a read started for each. -/
def started (list : List (Bytes × VLogEntryInfo)) : List ReadTask :=
  list.map fun p => ReadTask.mk p.1 p.2.encode p.2 none

end Store

/-- What a read of the version should return: the value of its write, or nothing when it has
expired. -/
def Machine.recorded (m : Machine) (e : Entry VLogEntryInfo) : Option Bytes :=
  if e.key.seq < m.store.lastLivingSequence then none
  else (m.history[e.key.seq]?).map Write.value

/-- **What was collected in a reachable state leads to the records of its writes**, as far as it
is values. -/
theorem collected_answers {m : Machine} {k1 k2 : Bytes} {keyMap : KeyMap} (durable : Durable crc32c m)
    (below : ∀ e, m.store.Holds e → e.key.seq < m.store.lastSequence)
    (small : m.store.lastSequence ≤ kMaxSequenceNumber + 1)
    (collected : m.store.collect k1 k2 = .ok keyMap)
    (values : ∀ p ∈ keyMap.toList, p.2.key.type = .kTypeValue) :
    List.Forall₂ (fun p read => m.store.Answers crc32c p.2 read) (Store.locations keyMap)
        (keyMap.toList.map fun p => m.recorded p.2) ∧
      (none ∉ keyMap.toList.map (fun p => m.recorded p.2) ↔
        ∀ p ∈ keyMap.toList, m.store.lastLivingSequence ≤ p.2.key.seq) := by
  have hentry : ∀ p ∈ keyMap.toList, m.store.Answers crc32c p.2.value (m.recorded p.2) ∧
      (m.recorded p.2 ≠ none ↔ m.store.lastLivingSequence ≤ p.2.key.seq) := by
    intro p hp
    have hheld := (Store.collect_holds collected
      (Std.TreeMap.mem_toList_iff_getElem?_eq_some.mp hp)).1
    obtain ⟨w, hw, hresolves⟩ := durable.resolves p.2 hheld (values p hp)
    have htag : p.2.key.tag < 2 ^ 64 := by
      have hlt := below p.2 hheld
      simp only [InternalKey.seq, kMaxSequenceNumber] at hlt small
      omega
    refine ⟨⟨p.2.key, w.value, hresolves, htag, by simp [Machine.recorded, hw]⟩, ?_⟩
    by_cases hexpired : p.2.key.seq < m.store.lastLivingSequence
    · simp [Machine.recorded, hexpired]
    · simp [Machine.recorded, hexpired, hw, not_lt.mp hexpired]
  constructor
  · rw [Store.locations, List.forall₂_map_left_iff, List.forall₂_map_right_iff, List.forall₂_same]
    exact fun p hp => (hentry p hp).1
  · constructor
    · intro hno p hp
      refine (hentry p hp).2.mp fun hnone => hno ?_
      exact List.mem_map.mpr ⟨p, hp, hnone⟩
    · intro halive hmem
      obtain ⟨p, hp, hnone⟩ := List.mem_map.mp hmem
      exact (hentry p hp).2.mpr (halive p hp) hnone

theorem tableBlocks_singleton {β : Type} (e : Entry β) : tableBlocks [e] = [[e]] := by
  rw [tableBlocks, cutBlocks]
  split
  · rfl
  · rfl

/-- The range of a table with one entry. -/
theorem SSTFile.range_singleton {sstFiles : ℕ → Bool} {f : SSTFile VLogEntryInfo}
    {e : Entry VLogEntryInfo} (present : sstFiles f.fileNumber = true) (entries : f.entries = [e])
    (largest : f.largest = e.key) : f.range sstFiles e.key.userKey e.key.userKey = [e] := by
  simp [SSTFile.range, present, entries, largest, tableBlocks_singleton, indexKeys]

/-- A scan finds the entry of the only table. -/
theorem Store.collect_one_table {s : Store} {e : Entry VLogEntryInfo} {t : SSTFile VLogEntryInfo}
    (mem : s.mem = .new) (imm : s.imm = none) (levels : s.levels = setLevel Store.new.levels 0 [t])
    (present : s.sstFiles t.fileNumber = true) (entries : t.entries = [e])
    (largest : t.largest = e.key) (newer : e.key.seq ≤ s.lastSequence) :
    ∃ keyMap, s.collect e.key.userKey e.key.userKey = .ok keyMap ∧
      keyMap[e.key.userKey]? = some e := by
  obtain ⟨keyMap, hcollect⟩ :=
    Store.collect_isOk (s := s) (by rw [levels]; exact setLevel_ne_nil _ _ _) e.key.userKey e.key.userKey
  refine ⟨keyMap, hcollect, ?_⟩
  have hrange := SSTFile.range_singleton present entries largest
  rw [Store.collect_getElem? hcollect, Store.scanSources, mem, imm, levels]
  simp [Store.new, setLevel, levelAt, hrange, MemTable.range, MemTable.new, untilEnd, visible, newer,
    List.findSome?_cons]

/-- A first write that fills the memtable, in a table of level 0. -/
theorem Machine.exists_one_table (crc32c : Bytes → ℕ) {w : Write} (fills : Machine.Fills w) :
    ∃ m e keyMap, Machine.Reachable crc32c Machine.Flushing m ∧ m.Resting ∧ m.history = [w] ∧
      m.store.lastSequence = 1 ∧ m.store.lastLivingSequence = 0 ∧
      m.store.collect w.key w.key = .ok keyMap ∧ keyMap[w.key]? = some e ∧
      e.key = .ofWrite w.key 0 w.type ∧
      ∀ i, ∀ f ∈ levelAt m.store.levels i, f.entries = [e] ∧ f.largest = e.key := by
  have hnew : Machine.Reachable crc32c Machine.Flushing .new := .new
  obtain ⟨m, info, hrun, hrest, hhist, hseq, hlive, -, -, hlevels⟩ :=
    Machine.Resting.round crc32c (m := .new) ⟨rfl, rfl, rfl⟩ .init
      (seqOrdered_of_reachable hnew).numbered (by decide) fills
  have hreach := hnew.run hrun
  have hzero : Machine.new.store.lastSequence = 0 := rfl
  rw [hzero] at hlevels hseq
  have hfile := (tableFiles_of_reachable hreach).present 0
    ⟨Machine.new.store.fileno, .ofWrite w.key 0 w.type, .ofWrite w.key 0 w.type, 0,
      [⟨.ofWrite w.key 0 w.type, info⟩]⟩ (by rw [hlevels, levelAt_setLevel]; simp)
  obtain ⟨keyMap, hcollect, hfound⟩ := Store.collect_one_table (s := m.store)
    (e := ⟨.ofWrite w.key 0 w.type, info⟩) hrest.mem hrest.imm hlevels hfile rfl rfl (by simp)
  refine ⟨m, _, keyMap, hreach, hrest, hhist, hseq, hlive, hcollect, hfound, rfl, fun i f hf => ?_⟩
  rw [hlevels, levelAt_setLevel] at hf
  split at hf
  · obtain rfl := List.mem_singleton.mp hf
    exact ⟨rfl, rfl⟩
  · simp [Machine.new] at hf

end Lsmkv
