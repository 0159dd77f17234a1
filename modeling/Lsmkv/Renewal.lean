import Lsmkv.Expiry
import Lsmkv.Reset
import Lsmkv.Scan

/-!
# A store that was reset, beside a new one

`KVStore::reset` is meant to leave a store that nobody can tell from a new one.  It forgets the
memtables, the levels, the files and three of the counters.  It keeps `LastLivingSequence`, the
files that `VLogReader` has open, the deletion tasks of the executor, and `offset_` of the
`VLogBuilder`, which decides after which record the next entry of its index is due.

The inodes of the directory are used up as well, but a store never compares them: two stores
whose inodes differ by a shift take the same steps (`Store.Alike.call`).  The operations of a
run are `Operation`, with the steps of the background thread among them, and
`Store.answers` lists what they return.

When nothing of the first three is left at the reset, the store answers every run as a new one
does (`answers_reset`), as long as the index of the open value log does not matter: `offset_` is
0, or the log is not closed because it is full; and as long as nothing is scanned while the
vector of levels is empty, as `LevelCache::reset` leaves it.  A bound of `ExpireAt` that is left makes the
first value that is put expired (`answers_reset_ne`).
-/

namespace Lsmkv

open ByteCode Files

/-! ## Levels with empty ones behind them -/

section Padded

variable {β : Type} {levels levels' : List (Level β)}

/-- The levels of the second cache, and empty levels behind them. -/
def Padded (levels levels' : List (Level β)) : Prop := ∃ n, levels = levels' ++ List.replicate n []

theorem Padded.levelAt_eq (h : Padded levels levels') (i : ℕ) : levelAt levels i = levelAt levels' i := by
  obtain ⟨n, rfl⟩ := h
  simp only [levelAt, List.getD_eq_getElem?_getD, List.getElem?_append, List.getElem?_replicate]
  split
  · rfl
  · rename_i hlen
    rw [List.getElem?_eq_none (not_lt.mp hlen)]
    split
    · rfl
    · rfl

theorem Padded.setLevel (h : Padded levels levels') (i : ℕ) (l : Level β) :
    Padded (setLevel levels i l) (setLevel levels' i l) := by
  obtain ⟨n, rfl⟩ := h
  refine ⟨n - (i + 1 - levels'.length), ?_⟩
  have hpad : levels' ++ List.replicate n ([] : Level β) ++ List.replicate
        (i + 1 - (levels' ++ List.replicate n ([] : Level β)).length) []
      = levels' ++ List.replicate (i + 1 - levels'.length) []
        ++ List.replicate (n - (i + 1 - levels'.length)) [] := by
    simp only [List.append_assoc, List.replicate_append_replicate, List.length_append,
      List.length_replicate]
    congr 2
    omega
  have hlen : i < (levels' ++ List.replicate (i + 1 - levels'.length) ([] : Level β)).length := by
    rw [List.length_append, List.length_replicate]
    omega
  rw [Lsmkv.setLevel, Lsmkv.setLevel, hpad, List.set_append_left _ _ hlen]

theorem Padded.pickCompaction_eq (h : Padded levels levels') (level : ℕ) :
    pickCompaction levels level = pickCompaction levels' level := by
  simp only [pickCompaction, pickSSTFileNum, pickOverlappingFiles, h.levelAt_eq]

theorem Padded.moveFiles (h : Padded levels levels') (level : ℕ) (files : List (SSTFile β))
    (newLevel : ℕ) : Padded (moveFiles levels level files newLevel)
      (moveFiles levels' level files newLevel) := by
  have hset := h.setLevel level (removeFiles files (levelAt levels' level))
  simp only [Lsmkv.moveFiles, h.levelAt_eq, hset.levelAt_eq]
  exact hset.setLevel newLevel _

theorem Padded.replaceFiles (h : Padded levels levels') (info : CompactInfo β)
    (newFiles : List (SSTFile β)) :
    Padded (replaceFiles levels info newFiles) (replaceFiles levels' info newFiles) := by
  have hset := h.setLevel info.level (removeFiles info.oldFiles (levelAt levels' info.level))
  simp only [Lsmkv.replaceFiles, h.levelAt_eq, hset.levelAt_eq]
  exact hset.setLevel _ _

theorem getDeeper_replicate (sstFiles : ℕ → Bool) (query : InternalKey) (n : ℕ)
    (s : Outcome VLogEntryInfo) : getDeeper sstFiles query (List.replicate n []) s = s := by
  induction n with
  | zero => rfl
  | succ n ih =>
      cases s with
      | ok => rfl
      | fail => simpa [List.replicate_succ, getDeeper] using ih
      | fault => simpa [List.replicate_succ, getDeeper] using ih

theorem getDeeper_append (sstFiles : ℕ → Bool) (query : InternalKey)
    (l : List (Level VLogEntryInfo)) (n : ℕ) (s : Outcome VLogEntryInfo) :
    getDeeper sstFiles query (l ++ List.replicate n []) s = getDeeper sstFiles query l s := by
  induction l generalizing s with
  | nil => exact getDeeper_replicate sstFiles query n s
  | cons level l ih =>
      simp only [List.cons_append, getDeeper]
      split
      · rfl
      · exact ih _

/-- A lookup passes over empty levels; `cache[0]` of an empty vector is never read by it. -/
theorem Padded.getLevels_eq {levels levels' : List (Level VLogEntryInfo)} (h : Padded levels levels')
    (ne : levels ≠ []) (sstFiles : ℕ → Bool) (query : InternalKey) :
    getLevels sstFiles query levels
      = if levels'.isEmpty then .fail .kNotFound else getLevels sstFiles query levels' := by
  obtain ⟨n, rfl⟩ := h
  cases levels' with
  | nil =>
      obtain ⟨n, rfl⟩ : ∃ n', n = n' + 1 := Nat.exists_eq_succ_of_ne_zero (by rintro rfl; exact ne rfl)
      simp [List.replicate_succ, getLevels, readBatch, getDeeper_replicate]
  | cons level0 levels' =>
      simp only [List.cons_append, getLevels, getDeeper_append, List.isEmpty_cons,
        Bool.false_eq_true, if_false]

end Padded

/-! ## Outcomes that correspond -/

/-- Both computations end in the same way, with corresponding values. -/
inductive Outcome.Rel {α β : Type} (R : α → β → Prop) : Outcome α → Outcome β → Prop
  | ok {a : α} {b : β} (h : R a b) : Rel R (.ok a) (.ok b)
  | fail (c : Code) : Rel R (.fail c) (.fail c)
  | fault : Rel R .fault .fault

theorem Outcome.Rel.bind {α β γ δ : Type} {R : α → β → Prop} {S : γ → δ → Prop} {x : Outcome α}
    {y : Outcome β} {f : α → Outcome γ} {g : β → Outcome δ} (h : Rel R x y)
    (hf : ∀ a b, R a b → Rel S (f a) (g b)) : Rel S (x >>= f) (y >>= g) := by
  cases h with
  | ok h => exact hf _ _ h
  | fail c => exact .fail c
  | fault => exact .fault

theorem Outcome.Rel.refl {α : Type} {R : α → α → Prop} (hR : ∀ a, R a a) (x : Outcome α) :
    Rel R x x := by
  cases x with
  | ok a => exact .ok (hR a)
  | fail c => exact .fail c
  | fault => exact .fault

/-! ## The builders of value logs -/

/-- Two builders that have written the same records.  Their indexes may differ. -/
structure TableBuilder.SameRecords (t t' : TableBuilder) : Prop where
  file : t'.file = t.file
  dataBlock : t'.dataBlock = t.dataBlock
  offset : t'.offset = t.offset
  filterBlock : t'.filterBlock = t.filterBlock

theorem TableBuilder.SameRecords.refl (t : TableBuilder) : t.SameRecords t := ⟨rfl, rfl, rfl, rfl⟩

variable {crc32c : Bytes → ℕ} {k : ℕ}

variable (crc32c) in
theorem TableBuilder.SameRecords.flushWith {t t' : TableBuilder} (h : t.SameRecords t')
    (next next' : Bool) : (t.flushWith crc32c next).SameRecords (t'.flushWith crc32c next') := by
  simp only [TableBuilder.flushWith, h.dataBlock, h.filterBlock]
  split
  · exact ⟨h.file, rfl, h.offset, rfl⟩
  · exact ⟨by simp [TableBuilder.writeRawBlock, h.file], rfl,
      by simp [TableBuilder.writeRawBlock, h.offset], rfl⟩

variable (crc32c) in
/-- A record goes to the same place, whatever the index is. -/
theorem TableBuilder.SameRecords.addInfo {t t' : TableBuilder} (h : t.SameRecords t')
    (key : InternalKey) (value : Bytes) :
    (t.addInfo crc32c key value).1.SameRecords (t'.addInfo crc32c key value).1 ∧
      (t'.addInfo crc32c key value).2 = (t.addInfo crc32c key value).2 := by
  simp only [TableBuilder.addInfo, TableBuilder.addIndexEntry_eq, TableBuilder.appendEntry,
    h.dataBlock, h.offset, h.filterBlock]
  refine ⟨?_, trivial⟩
  split
  · refine TableBuilder.SameRecords.flushWith crc32c ?_ true true
    exact ⟨h.file, rfl, rfl, rfl⟩
  · exact ⟨h.file, rfl, rfl, rfl⟩

/-- The second builder writes to the file of the first, moved by `k`.  With `exact` also their
indexes are the same. -/
structure VLogBuilder.Moved (k : ℕ) (exact : Prop) (next : ℕ) (b b' : VLogBuilder) : Prop where
  fileNo_eq : b'.fileNo = b.fileNo
  exact_eq : exact → b'.offset = b.offset ∧ b'.builder = b.builder
  records : Option.Rel TableBuilder.SameRecords b.builder b'.builder
  inode_eq : b.builder ≠ none → b'.inode = b.inode + k ∧ b.inode < next

section Builders

variable {exact : Prop} {b b' : VLogBuilder} {d d' : VLogDir}

theorem VLogBuilder.Moved.mono {next next' : ℕ} (h : b.Moved k exact next b') (le : next ≤ next') :
    b.Moved k exact next' b' :=
  ⟨h.fileNo_eq, h.exact_eq, h.records, fun hb => ⟨(h.inode_eq hb).1, (h.inode_eq hb).2.trans_le le⟩⟩

theorem VLogBuilder.Moved.new : VLogBuilder.new.Moved k exact next VLogBuilder.new :=
  ⟨rfl, fun _ => ⟨rfl, rfl⟩, .none, fun h => absurd rfl h⟩

variable (exact b b') in
theorem VLogBuilder.Moved.openFile (offset_eq : exact → b'.offset = b.offset)
    (dirs : Dir.Shifted k d d') (n : ℕ) :
    (b.openFile d n).1.Moved k exact (b.openFile d n).2.next (b'.openFile d' n).1 ∧
      Dir.Shifted k (b.openFile d n).2 (b'.openFile d' n).2 ∧ d.next ≤ (b.openFile d n).2.next := by
  obtain ⟨hdirs, hinode, hlt, hle⟩ := dirs.create n
  refine ⟨⟨rfl, fun he => ⟨offset_eq he, rfl⟩, .some (.refl _), fun _ => ⟨hinode, hlt⟩⟩, hdirs, hle⟩

/-- **An append writes the same record to both files** and returns the same location. -/
theorem VLogBuilder.Moved.append (h : b.Moved k exact d.next b') (dirs : Dir.Shifted k d d')
    (key : InternalKey) (value : Bytes) :
    Outcome.Rel (fun r r' => r'.1 = r.1 ∧ r.2.1.Moved k exact r.2.2.next r'.2.1 ∧
        Dir.Shifted k r.2.2 r'.2.2 ∧ r.2.2.next = d.next)
      (b.append crc32c d key value) (b'.append crc32c d' key value) := by
  obtain ⟨n, off, i, t⟩ := b
  obtain ⟨n', off', i', t'⟩ := b'
  obtain ⟨hno, hexact, hrecords, hinode⟩ := h
  cases hrecords with
  | none => exact .fault
  | @some t t' hsame =>
      obtain ⟨hi, hlt⟩ := hinode (by simp)
      obtain ⟨hadd, hplace⟩ := hsame.addInfo crc32c key value
      simp only at hno hi hexact hlt
      subst hno hi
      simp only [VLogBuilder.append, Outcome.ofOption_some, Outcome.ok_bind, hplace]
      have hset : ((t.addInfo crc32c key value).1.setLastKey key).SameRecords
          ((t'.addInfo crc32c key value).1.setLastKey key) :=
        ⟨hadd.file, hadd.dataBlock, hadd.offset, hadd.filterBlock⟩
      have hflush := hset.flushWith crc32c
        (decide (blockSize < off + (t.addInfo crc32c key value).2.2))
        (decide (blockSize < off' + (t.addInfo crc32c key value).2.2))
      refine .ok ⟨rfl, ⟨rfl, fun he => ?_, .some hflush, fun _ => ⟨rfl, hlt⟩⟩, ?_, rfl⟩
      · obtain ⟨hoff, hbuilder⟩ := hexact he
        obtain rfl := Option.some.inj hbuilder
        subst hoff
        exact ⟨rfl, rfl⟩
      · rw [hflush.file]
        exact dirs.write hlt _

variable (crc32c) in
/-- Builders with the same index finish their files in the same way. -/
theorem VLogBuilder.Moved.close (h : b.Moved k exact d.next b') (same : exact)
    (dirs : Dir.Shifted k d d') :
    (b.close crc32c d).1.Moved k exact (b.close crc32c d).2.next (b'.close crc32c d').1 ∧
      Dir.Shifted k (b.close crc32c d).2 (b'.close crc32c d').2 ∧
      (b.close crc32c d).2.next = d.next := by
  obtain ⟨hoffset, hbuilder⟩ := h.exact_eq same
  refine ⟨⟨rfl, fun _ => ⟨hoffset, rfl⟩, .none, fun h => absurd rfl h⟩, ?_, ?_⟩
  · cases ht : b.builder with
    | none => simpa [VLogBuilder.close, hbuilder, ht] using dirs
    | some t =>
        obtain ⟨hi, hlt⟩ := h.inode_eq (by simp [ht])
        simpa [VLogBuilder.close, hbuilder, ht, hi] using dirs.write hlt _
  · cases ht : b.builder <;> simp [VLogBuilder.close, ht, Dir.write]

end Builders

/-! ## Compactions -/

/-- The value log side of two compactions, moved by `k`.  `used` inodes were taken before. -/
structure VLogWork.Moved (k used : ℕ) (w w' : VLogWork) : Prop where
  lastVlogFileNo_eq : w'.lastVlogFileNo = w.lastVlogFileNo
  vlogs : Dir.Shifted k w.vlogs w'.vlogs
  builder : w.builder.Moved k True w.vlogs.next w'.builder
  used_le : used ≤ w.vlogs.next

section Compactions

variable {used : ℕ} {w w' : VLogWork} {buildVlog : Bool} {live : ℕ}

theorem VLogWork.Moved.openNext (h : w.Moved k used w') : w.openNext.Moved k used w'.openNext := by
  obtain ⟨hbuilder, hdirs, hle⟩ := VLogBuilder.Moved.openFile True w.builder w'.builder
    (fun _ => (h.builder.exact_eq trivial).1) h.vlogs w.lastVlogFileNo
  simp only [VLogWork.openNext, h.lastVlogFileNo_eq]
  exact ⟨rfl, hdirs, hbuilder, h.used_le.trans hle⟩

theorem VLogWork.Moved.close (h : w.Moved k used w') :
    (w.close crc32c).Moved k used (w'.close crc32c) := by
  obtain ⟨hbuilder, hdirs, hnext⟩ := h.builder.close crc32c trivial h.vlogs
  exact ⟨h.lastVlogFileNo_eq, hdirs, hbuilder, h.used_le.trans hnext.ge⟩

/-- Opening or closing the output log, where the code does so. -/
theorem VLogWork.Moved.ite {f : VLogWork → VLogWork} (h : w.Moved k used w')
    (hf : (f w).Moved k used (f w')) (c : Bool) :
    (if c then f w else w).Moved k used (if c then f w' else w') := by
  cases c with
  | false => exact h
  | true => exact hf

theorem VLogWork.Moved.readVLog_eq (h : w.Moved k used w') (info : VLogEntryInfo) :
    readVLog crc32c none w'.vlogs info = readVLog crc32c none w.vlogs info := by
  simp only [readVLog, h.vlogs.contents_eq]

theorem VLogWork.Moved.rewrite (h : w.Moved k used w') (e : Entry VLogEntryInfo) :
    Outcome.Rel (fun r r' => r'.1 = r.1 ∧ r.2.Moved k used r'.2)
      (w.rewrite crc32c buildVlog e) (w'.rewrite crc32c buildVlog e) := by
  simp only [VLogWork.rewrite, h.readVLog_eq]
  split
  · exact .ok ⟨rfl, h⟩
  · split
    · refine Outcome.Rel.bind (R := Eq) (.refl (fun _ => rfl) _) ?_
      rintro data _ rfl
      refine (h.builder.append h.vlogs e.key data).bind ?_
      rintro ⟨info, b, d⟩ ⟨info', b', d'⟩ ⟨hinfo, hbuilder, hdirs, hnext⟩
      exact .ok ⟨hinfo, h.lastVlogFileNo_eq, hdirs, hbuilder, h.used_le.trans hnext.ge⟩
    · exact .ok ⟨rfl, h⟩

theorem buildStep_moved (h : w.Moved k used w') (b : Build VLogEntryInfo) (e : Entry VLogEntryInfo) :
    Outcome.Rel (fun r r' => r'.1 = r.1 ∧ r.2.Moved k used r'.2)
      (buildStep crc32c buildVlog live b w e) (buildStep crc32c buildVlog live b w' e) := by
  simp only [buildStep]
  split
  · exact .ok ⟨rfl, h⟩
  · refine ((h.ite h.openNext _).rewrite e).bind ?_
    rintro ⟨value, w₁⟩ ⟨value', w₁'⟩ ⟨hvalue, h₁⟩
    simp only at hvalue h₁
    subst hvalue
    simp only [h₁.builder.fileNo_eq]
    exact .ok ⟨rfl, h₁.ite h₁.close _⟩

theorem buildLoop_moved (es : List (Entry VLogEntryInfo)) (h : w.Moved k used w')
    (b : Build VLogEntryInfo) :
    Outcome.Rel (fun r r' => r'.1 = r.1 ∧ r.2.Moved k used r'.2)
      (buildLoop crc32c buildVlog live es b w) (buildLoop crc32c buildVlog live es b w') := by
  induction es generalizing b w w' with
  | nil => exact .ok ⟨rfl, h⟩
  | cons e es ih =>
      refine (buildStep_moved h b e).bind ?_
      rintro ⟨b₁, w₁⟩ ⟨b₁', w₁'⟩ ⟨hb, h₁⟩
      simp only at hb h₁
      subst hb
      exact ih h₁ _

/-- **A merge writes the same tables**, and the same value logs but for the shift. -/
theorem buildWhenCompaction_moved (h : w.Moved k used w') (fileno : ℕ)
    (inputs : List (List (Entry VLogEntryInfo))) :
    Outcome.Rel (fun r r' => r'.1 = r.1 ∧ r.2.Moved k used r'.2)
      (buildWhenCompaction crc32c buildVlog live fileno w inputs)
      (buildWhenCompaction crc32c buildVlog live fileno w' inputs) := by
  refine Outcome.Rel.bind (R := Eq) (.refl (fun _ => rfl) _) ?_
  rintro visited _ rfl
  refine (buildLoop_moved visited h _).bind ?_
  rintro ⟨b₁, w₁⟩ ⟨b₁', w₁'⟩ ⟨hb, h₁⟩
  simp only at hb h₁
  subst hb
  simp only [h₁.builder.fileNo_eq]
  exact .ok ⟨rfl, h₁.ite h₁.close _⟩

/-- The results of two compactions, moved by `k`. -/
structure CompactionResult.Moved (k used : ℕ) (r r' : CompactionResult) : Prop where
  levels : Padded r.levels r'.levels
  levels_ne : r.levels ≠ []
  fileno : r'.fileno = r.fileno
  work : r.work.Moved k used r'.work
  rmSstFiles : r'.rmSstFiles = r.rmSstFiles
  rmVlogFiles : r'.rmVlogFiles = r.rmVlogFiles

theorem doCompactionWork_moved (h : w.Moved k used w') {levels levels' : List (Level VLogEntryInfo)}
    (padded : Padded levels levels') (fileno : ℕ) (info : CompactInfo VLogEntryInfo) :
    Outcome.Rel (CompactionResult.Moved k used)
      (doCompactionWork crc32c live levels fileno w info)
      (doCompactionWork crc32c live levels' fileno w' info) := by
  simp only [doCompactionWork]
  split
  · exact .ok ⟨padded.moveFiles _ _ _, setLevel_ne_nil _ _ _, rfl, h, rfl, rfl⟩
  · split
    · exact .fault
    · refine (buildWhenCompaction_moved h fileno info.inputs).bind ?_
      rintro ⟨b₁, w₁⟩ ⟨b₁', w₁'⟩ ⟨hb, h₁⟩
      simp only at hb h₁
      subst hb
      split
      · exact .fault
      · exact .ok ⟨padded.replaceFiles _ _, setLevel_ne_nil _ _ _, rfl, h₁, rfl, rfl⟩

end Compactions

/-! ## Stores that differ by a shift of their inodes -/

/-- The two stores agree in everything but their inodes, and in `exact` runs also in the index of
the open value log. -/
structure Store.Alike (k : ℕ) (exact : Prop) (s s' : Store) : Prop where
  lastSequence : s'.lastSequence = s.lastSequence
  lastLivingSequence : s'.lastLivingSequence = s.lastLivingSequence
  fileno : s'.fileno = s.fileno
  lastVlogFileNo : s'.lastVlogFileNo = s.lastVlogFileNo
  mem : s'.mem = s.mem
  imm : s'.imm = s.imm
  levels : Padded s.levels s'.levels
  levels_ne : s.levels ≠ []
  sstFiles : s'.sstFiles = s.sstFiles
  tasks : s'.tasks = s.tasks
  vlogs : Dir.Shifted k s.vlogs s'.vlogs
  vlog : s.vlog.Moved k exact s.vlogs.next s'.vlog
  handles : s'.handles = s.handles.map fun h => (h.1, h.2 + k)
  handles_lt : ∀ h ∈ s.handles, h.2 < s.vlogs.next

section Alike

variable {exact : Prop} {s s' : Store}

theorem lruPut_map (handles : List (ℕ × ℕ)) (n i : ℕ) :
    lruPut (handles.map fun h => (h.1, h.2 + k)) n (i + k)
      = (lruPut handles n i).map fun h => (h.1, h.2 + k) := by
  have hfilter : (handles.map fun h => (h.1, h.2 + k)).filter (fun h => h.1 != n)
      = (handles.filter fun h => h.1 != n).map fun h => (h.1, h.2 + k) := by
    rw [List.filter_map]
    rfl
  simp only [lruPut, hfilter, List.length_map, List.map_cons]
  split
  · rw [List.map_dropLast]
  · rfl

theorem lruTouch_map (handles : List (ℕ × ℕ)) (n i : ℕ) :
    lruTouch (handles.map fun h => (h.1, h.2 + k)) n (i + k)
      = (lruTouch handles n i).map fun h => (h.1, h.2 + k) := by
  simp only [lruTouch, List.filter_map, List.map_cons]
  rfl

theorem mem_of_mem_lruPut {handles : List (ℕ × ℕ)} {n i : ℕ} {h : ℕ × ℕ}
    (mem : h ∈ lruPut handles n i) : h = (n, i) ∨ h ∈ handles := by
  simp only [lruPut, List.mem_cons] at mem
  refine mem.imp_right fun hrest => ?_
  split at hrest
  · exact List.mem_of_mem_filter (List.mem_of_mem_dropLast hrest)
  · exact List.mem_of_mem_filter hrest

/-- Only the open files change. -/
theorem Store.Alike.setHandles (h : s.Alike k exact s') {handles handles' : List (ℕ × ℕ)}
    (moved : handles' = handles.map fun h => (h.1, h.2 + k))
    (used : ∀ h ∈ handles, h.2 < s.vlogs.next) :
    Store.Alike k exact { s with handles := handles } { s' with handles := handles' } :=
  { h with handles := moved, handles_lt := used }

variable (crc32c) in
/-- **A value is read from the same bytes.** -/
theorem Store.Alike.readValue (h : s.Alike k exact s') (info : VLogEntryInfo) :
    (s'.readValue crc32c info).1 = (s.readValue crc32c info).1 ∧
      (s.readValue crc32c info).2.Alike k exact (s'.readValue crc32c info).2 := by
  have hfind : s'.handles.find? (fun h => h.1 == info.fileNo)
      = (s.handles.find? fun h => h.1 == info.fileNo).map fun h => (h.1, h.2 + k) := by
    rw [h.handles, List.find?_map]
    rfl
  simp only [Store.readValue, hfind, h.vlogs.inode_eq]
  cases hopen : s.handles.find? fun h => h.1 == info.fileNo with
  | some handle =>
      obtain ⟨n, i⟩ := handle
      have hlt : i < s.vlogs.next := h.handles_lt _ (List.mem_of_find?_eq_some hopen)
      simp only [Option.map_some]
      refine ⟨?_, h.setHandles ?_ fun g hg => ?_⟩
      · rw [h.vlogs.data_eq i hlt, h.lastLivingSequence]
      · rw [h.handles, lruTouch_map]
      · rcases List.mem_cons.mp hg with rfl | hg
        · exact hlt
        · exact h.handles_lt g (List.mem_of_mem_filter hg)
  | none =>
      cases hinode : s.vlogs.inode info.fileNo with
      | none => exact ⟨rfl, h⟩
      | some i =>
          have hlt : i < s.vlogs.next := h.vlogs.lt_next hinode
          simp only [Option.map_none, Option.map_some]
          refine ⟨?_, h.setHandles ?_ fun g hg => ?_⟩
          · rw [h.vlogs.data_eq i hlt, h.lastLivingSequence]
          · rw [h.handles, lruPut_map]
          · rcases mem_of_mem_lruPut hg with rfl | hg
            · exact hlt
            · exact h.handles_lt g hg

theorem Store.Alike.resolve (h : s.Alike k exact s') (found : Outcome VLogEntryInfo) :
    (s'.resolve crc32c found).1 = (s.resolve crc32c found).1 ∧
      (s.resolve crc32c found).2.Alike k exact (s'.resolve crc32c found).2 := by
  cases found with
  | ok info =>
      simp only [Store.resolve]
      split
      · exact ⟨rfl, h⟩
      · exact h.readValue crc32c info
  | fail c => exact ⟨rfl, h⟩
  | fault => exact ⟨rfl, h⟩

variable (crc32c) in
theorem Store.Alike.getImpl (h : s.Alike k exact s') (key : Bytes) :
    (s'.getImpl crc32c key).1 = (s.getImpl crc32c key).1 ∧
      (s.getImpl crc32c key).2.Alike k exact (s'.getImpl crc32c key).2 := by
  have hempty : s.levels.isEmpty = false := by simpa using h.levels_ne
  simp only [Store.getImpl, h.lastSequence, h.mem, h.imm, h.levels.getLevels_eq h.levels_ne,
    h.sstFiles, hempty, Bool.false_eq_true, if_false]
  split
  · exact h.resolve _
  · split
    · exact ⟨rfl, h⟩
    · split
      · exact ⟨rfl, h⟩
      · exact h.resolve _

/-- **What a scan collects**, where there are levels. -/
theorem Store.Alike.collect_eq (h : s.Alike k exact s') (ne : s'.levels ≠ []) (k1 k2 : Bytes) :
    s'.collect k1 k2 = s.collect k1 k2 := by
  have hzero := h.levels.levelAt_eq 0
  obtain ⟨n, hlevels⟩ := h.levels
  have hdrop : (s.levels.drop 1).flatten = (s'.levels.drop 1).flatten := by
    obtain ⟨level0, rest, hs'⟩ := List.exists_cons_of_ne_nil ne
    simp [hlevels, hs']
  rw [Store.collect_eq_scanAll ne, Store.collect_eq_scanAll h.levels_ne]
  simp only [Store.scanSources, h.lastSequence, h.mem, h.imm, h.sstFiles, hzero, hdrop]

theorem Store.Alike.resolveList (list : List (Bytes × VLogEntryInfo)) (h : s.Alike k exact s')
    (status : Code) :
    (s'.resolveList crc32c status list).1 = (s.resolveList crc32c status list).1 ∧
      (s.resolveList crc32c status list).2.Alike k exact (s'.resolveList crc32c status list).2 := by
  induction list generalizing s s' status with
  | nil => exact ⟨rfl, h⟩
  | cons p rest ih =>
      obtain ⟨key, info⟩ := p
      simp only [Store.resolveList]
      split
      · exact ih h status
      · obtain ⟨hvalue, hread⟩ := h.readValue crc32c info
        cases hr : s.readValue crc32c info with
        | mk r s₁ =>
            cases hr' : s'.readValue crc32c info with
            | mk r' s₁' =>
                rw [hr, hr'] at hvalue hread
                simp only at hvalue hread
                subst hvalue
                cases r' with
                | ok value =>
                    obtain ⟨hlist, hrest⟩ := ih hread .kOk
                    simp only [hlist]
                    exact ⟨trivial, hrest⟩
                | fail c =>
                    simp only
                    split
                    · exact ih hread .kExpired
                    · exact ⟨rfl, hread⟩
                | fault => exact ⟨rfl, hread⟩

variable (crc32c) in
/-- **Both kinds of scans** return the same list. -/
theorem Store.Alike.scan (h : s.Alike k exact s') (ne : s'.levels ≠ []) (k1 k2 : Bytes) :
    (s'.scan crc32c k1 k2).1 = (s.scan crc32c k1 k2).1 ∧
      (s.scan crc32c k1 k2).2.Alike k exact (s'.scan crc32c k1 k2).2 := by
  simp only [Store.scan, h.collect_eq ne]
  split
  · exact h.resolveList _ _
  · exact ⟨rfl, h⟩
  · exact ⟨rfl, h⟩

theorem Store.Alike.scanWCro (h : s.Alike k exact s') (ne : s'.levels ≠ []) (order : List ℕ) (k1 k2 : Bytes) :
    s'.scanWCro crc32c order k1 k2 = s.scanWCro crc32c order k1 k2 := by
  have hread : s'.asyncReadOne crc32c = s.asyncReadOne crc32c := by
    funext t
    simp only [Store.asyncReadOne, h.vlogs.contents_eq, h.lastLivingSequence]
  have hcomplete : s'.completeTask crc32c = s.completeTask crc32c := by
    funext tasks i
    simp only [Store.completeTask, hread]
  simp only [Store.scanWCro, h.collect_eq ne, Store.readList, hcomplete]

end Alike

/-! ## Steps of stores that are alike -/

section Steps

variable {exact : Prop} {s s' : Store}

theorem Store.Alike.rotateVlog (h : s.Alike k exact s') (same : exact) :
    (s.rotateVlog crc32c).Alike k exact (s'.rotateVlog crc32c) := by
  obtain ⟨hclosed, hdirs, hnext⟩ := h.vlog.close crc32c same h.vlogs
  obtain ⟨hopen, hdirs, hle⟩ := VLogBuilder.Moved.openFile exact (s.vlog.close crc32c s.vlogs).1
    (s'.vlog.close crc32c s'.vlogs).1 (fun he => (hclosed.exact_eq he).1) hdirs s.lastVlogFileNo
  simp only [Store.rotateVlog, h.lastVlogFileNo]
  exact { h with
    lastVlogFileNo := rfl
    vlogs := hdirs
    vlog := hopen
    handles_lt := fun g hg => (h.handles_lt g hg).trans_le (hnext.ge.trans hle) }

/-- **A write.**  The index of the open log matters only when the log is full. -/
theorem Store.Alike.writeImpl (h : s.Alike k exact s') (w : Write) (garbage : VLogEntryInfo)
    (height : ℕ) (roomy : exact ∨ s.vlog.full w.value.length = .ok false ∧
      s'.vlog.full w.value.length = .ok false) :
    Outcome.Rel (Store.Alike k exact) (s.writeImpl crc32c w garbage height)
      (s'.writeImpl crc32c w garbage height) := by
  have hfull : Outcome.Rel (fun full full' => full' = full ∧ (full = true → exact))
      (s.vlog.full w.value.length) (s'.vlog.full w.value.length) := by
    rcases roomy with same | ⟨hs, hs'⟩
    · have heq : s'.vlog.full w.value.length = s.vlog.full w.value.length := by
        simp only [VLogBuilder.full, (h.vlog.exact_eq same).2]
      rw [heq]
      exact .refl (fun _ => ⟨rfl, fun _ => same⟩) _
    · rw [hs, hs']
      exact .ok ⟨rfl, by simp⟩
  simp only [Store.writeImpl, h.lastSequence]
  refine hfull.bind ?_
  rintro _ full ⟨rfl, hexact⟩
  have hrotated : Store.Alike k exact (if full then s.rotateVlog crc32c else s)
      (if full then s'.rotateVlog crc32c else s') := by
    cases full with
    | false => exact h
    | true => exact h.rotateVlog (hexact rfl)
  refine (hrotated.vlog.append hrotated.vlogs _ w.value).bind ?_
  rintro ⟨info, b, d⟩ ⟨info', b', d'⟩ ⟨hinfo, hbuilder, hdirs, hnext⟩
  simp only at hinfo hbuilder hdirs hnext
  subst hinfo
  refine .ok { hrotated with
    lastSequence := ?_
    mem := ?_
    vlogs := hdirs
    vlog := hbuilder
    handles_lt := fun g hg => (hrotated.handles_lt g hg).trans_le hnext.ge }
  · simp only [hrotated.lastSequence]
  · simp only [hrotated.mem]

theorem Store.Alike.writeLevel0Table (h : s.Alike k exact s') (imm : MemTable) :
    Outcome.Rel (Store.Alike k exact) (s.writeLevel0Table imm) (s'.writeLevel0Table imm) := by
  simp only [Store.writeLevel0Table, h.fileno, h.levels.levelAt_eq, h.sstFiles]
  refine Outcome.Rel.bind (R := Eq) (.refl (fun _ => rfl) _) ?_
  rintro table _ rfl
  exact .ok { h with
    fileno := rfl
    levels := h.levels.setLevel 0 _
    levels_ne := setLevel_ne_nil _ _ _
    sstFiles := rfl }

/-- **A compaction.** -/
theorem Store.Alike.compactLevel (h : s.Alike k exact s') (level : ℕ) :
    Outcome.Rel (Store.Alike k exact) (s.compactLevel crc32c level)
      (s'.compactLevel crc32c level) := by
  simp only [Store.compactLevel, h.levels.pickCompaction_eq]
  cases pickCompaction s'.levels level with
  | none => exact .ok h
  | some info =>
      have hwork : VLogWork.Moved k s.vlogs.next ⟨s.lastVlogFileNo, s.vlogs, .new⟩
          ⟨s'.lastVlogFileNo, s'.vlogs, .new⟩ := ⟨h.lastVlogFileNo, h.vlogs, .new, le_rfl⟩
      simp only [h.lastLivingSequence, h.fileno]
      refine (doCompactionWork_moved hwork h.levels s.fileno info).bind ?_
      rintro r r' ⟨hlevels, hne, hfileno, hwork, hsst, hvlog⟩
      refine .ok ⟨h.lastSequence, h.lastLivingSequence, hfileno, hwork.lastVlogFileNo_eq, h.mem, h.imm,
        hlevels, hne, ?_, ?_, hwork.vlogs, h.vlog.mono hwork.used_le, h.handles, ?_⟩
      · simp only [Store.compacted, h.sstFiles, h.fileno, hfileno]
      · simp only [Store.compacted, h.tasks, hsst, hvlog]
      · exact fun g hg => (h.handles_lt g hg).trans_le hwork.used_le

theorem Store.Alike.runTask (h : s.Alike k exact s') (i : ℕ) :
    (s.runTask i).Alike k exact (s'.runTask i) := by
  simp only [Store.runTask, h.tasks]
  cases s.tasks[i]? with
  | none => exact h
  | some task =>
      have hnext := s.vlogs.next_unlink_all task.2
      exact { h with
        sstFiles := by simp only [Store.deleteFiles, h.sstFiles]
        tasks := rfl
        vlogs := h.vlogs.unlink_all task.2
        vlog := h.vlog.mono hnext.ge
        handles_lt := fun g hg => (h.handles_lt g hg).trans_le hnext.ge }

end Steps

/-! ## Runs and their answers -/

/-- What is asked of a store, and the steps of its background thread and of its executor. -/
inductive Operation
  | put (key val : Bytes) (height : ℕ)
  | get (key : Bytes)
  | del (key : Bytes) (garbage : VLogEntryInfo) (height : ℕ)
  | scan (k1 k2 : Bytes)
  | scanWCro (order : List ℕ) (k1 k2 : Bytes)
  | expireAt (seq : ℕ)
  | handOver
  | flush
  | flushFail (leftover : Bool)
  | clearImm
  | compact (level : ℕ)
  | compactFail (logs : List Bytes) (tables : ℕ) (leftover : ℕ → Bool)
  | runTask (i : ℕ)

/-- What an operation returns: a status, a value or the list of a scan. -/
inductive Answer
  | status (r : Outcome Unit)
  | value (r : Outcome Bytes)
  | pairs (r : Outcome (Code × List (Bytes × Bytes)))

namespace Store

/-- The end of an operation that changes the store when it succeeds. -/
def done (s : Store) : Outcome Store → Answer × Store
  | .ok s' => (.status (.ok ()), s')
  | .fail c => (.status (.fail c), s)
  | .fault => (.status .fault, s)

/-- A value log that a compaction has opened and filled. -/
def leaveLog (p : ℕ × VLogDir) (contents : Bytes) : ℕ × VLogDir :=
  let (inode, d) := p.2.create p.1
  (p.1 + 1, d.write inode contents)

/-- What a compaction leaves when it fails: value logs, numbers of tables, and files under
these. -/
def abandon (s : Store) (logs : List Bytes) (tables : ℕ) (leftover : ℕ → Bool) : Store :=
  let (lastVlogFileNo, vlogs) := logs.foldl leaveLog (s.lastVlogFileNo, s.vlogs)
  { s with
    fileno := s.fileno + tables
    lastVlogFileNo := lastVlogFileNo
    vlogs := vlogs
    sstFiles := fun n => if s.fileno ≤ n ∧ n ≤ s.fileno + tables then leftover n else s.sstFiles n }

variable (crc32c : Bytes → ℕ)

/-- One operation.  What a flush or a compaction that fails leaves is up to the disk. -/
def call (s : Store) : Operation → Answer × Store
  | .put key val height => s.done (s.put crc32c key val height)
  | .get key =>
      let (r, s) := s.getImpl crc32c key
      (.value r, s)
  | .del key garbage height =>
      let (r, s) := s.getImpl crc32c key
      s.done (r >>= fun _ => s.writeImpl crc32c ⟨key, .kTypeDeletion, []⟩ garbage height)
  | .scan k1 k2 =>
      let (r, s) := s.scan crc32c k1 k2
      (.pairs r, s)
  | .scanWCro order k1 k2 => (.pairs (s.scanWCro crc32c order k1 k2), s)
  | .expireAt seq => s.done (s.expireAt seq)
  | .handOver => s.done s.handOver
  | .flush =>
      match s.imm with
      | none => (.status (.ok ()), s)
      | some imm => s.done (s.writeLevel0Table imm)
  | .flushFail leftover =>
      (.status (.ok ()), { s with sstFiles := Function.update s.sstFiles s.fileno leftover })
  | .clearImm => (.status (.ok ()), s.clearImm)
  | .compact level => s.done (s.compactLevel crc32c level)
  | .compactFail logs tables leftover => (.status (.ok ()), s.abandon logs tables leftover)
  | .runTask i => (.status (.ok ()), s.runTask i)

/-- The answers of a run. -/
def answers (s : Store) : List Operation → List Answer
  | [] => []
  | op :: ops => (s.call crc32c op).1 :: answers (s.call crc32c op).2 ops

/-- The operation does not find the open value log full. -/
def HasRoom (s : Store) : Operation → Prop
  | .put _ val _ => s.vlog.full val.length = .ok false
  | .del .. => s.vlog.full 0 = .ok false
  | _ => True

/-- A scan finds a vector of levels that is not empty. -/
def HasLevels (s : Store) : Operation → Prop
  | .scan .. | .scanWCro .. => s.levels ≠ []
  | _ => True

/-- Every operation of the run is asked of a store that meets its condition. -/
def Throughout (cond : Store → Operation → Prop) (s : Store) : List Operation → Prop
  | [] => True
  | op :: ops => cond s op ∧ Throughout cond (s.call crc32c op).2 ops

/-- No operation of the run closes a value log because it is full. -/
def NeverFull (s : Store) (ops : List Operation) : Prop := s.Throughout crc32c HasRoom ops

/-- No scan of the run comes before there are levels. -/
def ScansLevels (s : Store) (ops : List Operation) : Prop := s.Throughout crc32c HasLevels ops

end Store

section Answers

variable {exact : Prop} {s s' : Store}

theorem Store.Alike.done (h : s.Alike k exact s') {r r' : Outcome Store}
    (hr : Outcome.Rel (Store.Alike k exact) r r') :
    (s'.done r').1 = (s.done r).1 ∧ (s.done r).2.Alike k exact (s'.done r').2 := by
  cases hr with
  | ok hstores => exact ⟨rfl, hstores⟩
  | fail c => exact ⟨rfl, h⟩
  | fault => exact ⟨rfl, h⟩

theorem leaveLog_shifted (logs : List Bytes) {n : ℕ} {d d' : VLogDir} (dirs : Dir.Shifted k d d') :
    (logs.foldl Store.leaveLog (n, d')).1 = (logs.foldl Store.leaveLog (n, d)).1 ∧
      Dir.Shifted k (logs.foldl Store.leaveLog (n, d)).2 (logs.foldl Store.leaveLog (n, d')).2 ∧
      d.next ≤ (logs.foldl Store.leaveLog (n, d)).2.next := by
  induction logs generalizing n d d' with
  | nil => exact ⟨rfl, dirs, le_rfl⟩
  | cons contents logs ih =>
      obtain ⟨hdirs, hinode, hlt, hle⟩ := dirs.create n
      obtain ⟨hno, hdirs, hle'⟩ := ih (n := n + 1) (hdirs.write hlt contents)
      simp only [List.foldl_cons, Store.leaveLog, hinode]
      exact ⟨hno, hdirs, hle.trans hle'⟩

theorem Store.Alike.abandon (h : s.Alike k exact s') (logs : List Bytes) (tables : ℕ)
    (leftover : ℕ → Bool) : (s.abandon logs tables leftover).Alike k exact
      (s'.abandon logs tables leftover) := by
  obtain ⟨hno, hdirs, hle⟩ := leaveLog_shifted logs (n := s.lastVlogFileNo) h.vlogs
  simp only [Store.abandon, h.fileno, h.sstFiles, h.lastVlogFileNo]
  exact { h with
    fileno := rfl
    sstFiles := rfl
    lastVlogFileNo := hno
    vlogs := hdirs
    vlog := h.vlog.mono hle
    handles_lt := fun g hg => (h.handles_lt g hg).trans_le hle }

theorem Store.Alike.expireAt (h : s.Alike k exact s') (seq : ℕ) :
    Outcome.Rel (Store.Alike k exact) (s.expireAt seq) (s'.expireAt seq) := by
  simp only [Store.expireAt, h.lastSequence, h.lastLivingSequence]
  split
  · exact .fail _
  · split
    · exact .ok h
    · exact .ok { h with lastSequence := rfl, lastLivingSequence := rfl }

theorem Store.Alike.handOver (h : s.Alike k exact s') :
    Outcome.Rel (Store.Alike k exact) s.handOver s'.handOver := by
  simp only [Store.handOver, h.imm, h.mem]
  split
  · exact .fault
  · exact .ok { h with imm := rfl, mem := rfl }

variable (crc32c) in
/-- **One operation answers the same on both stores**, and leaves them alike. -/
theorem Store.Alike.call (h : s.Alike k exact s') (op : Operation)
    (roomy : exact ∨ s.HasRoom op ∧ s'.HasRoom op) (levels : s'.HasLevels op) :
    (s'.call crc32c op).1 = (s.call crc32c op).1 ∧
      (s.call crc32c op).2.Alike k exact (s'.call crc32c op).2 := by
  cases op with
  | put key val height => exact h.done (h.writeImpl ⟨key, .kTypeValue, val⟩ .zero height roomy)
  | get key =>
      obtain ⟨hvalue, hstores⟩ := h.getImpl crc32c key
      exact ⟨congrArg Answer.value hvalue, hstores⟩
  | del key garbage height =>
      obtain ⟨hvalue, hstores⟩ := h.getImpl crc32c key
      have hvlog : ∀ t : Store, (t.getImpl crc32c key).2.vlog = t.vlog := by
        intro t
        obtain ⟨handles, ht⟩ := t.getImpl_handles crc32c key
        rw [ht]
      have hfound : Outcome.Rel Eq (s.getImpl crc32c key).1 (s'.getImpl crc32c key).1 := by
        rw [hvalue]
        exact .refl (fun _ => rfl) _
      refine hstores.done (hfound.bind fun _ _ _ => ?_)
      refine hstores.writeImpl ⟨key, .kTypeDeletion, []⟩ garbage height ?_
      rw [hvlog, hvlog]
      exact roomy
  | scan k1 k2 =>
      obtain ⟨hpairs, hstores⟩ := h.scan crc32c levels k1 k2
      exact ⟨congrArg Answer.pairs hpairs, hstores⟩
  | scanWCro order k1 k2 => exact ⟨congrArg Answer.pairs (h.scanWCro levels order k1 k2), h⟩
  | expireAt seq => exact h.done (h.expireAt seq)
  | handOver => exact h.done h.handOver
  | flush =>
      simp only [Store.call, h.imm]
      split
      · exact ⟨rfl, h⟩
      · exact h.done (h.writeLevel0Table _)
  | flushFail leftover =>
      exact ⟨rfl, { h with sstFiles := by simp only [Store.call, h.sstFiles, h.fileno] }⟩
  | clearImm => exact ⟨rfl, { h with imm := rfl }⟩
  | compact level => exact h.done (h.compactLevel level)
  | compactFail logs tables leftover => exact ⟨rfl, h.abandon logs tables leftover⟩
  | runTask i => exact ⟨rfl, h.runTask i⟩

end Answers

/-- **Stores that are alike answer every run alike.** -/
theorem Store.Alike.answers_eq {exact : Prop} {s s' : Store} (h : s.Alike k exact s')
    (ops : List Operation)
    (roomy : exact ∨ s.NeverFull crc32c ops ∧ s'.NeverFull crc32c ops)
    (levels : s'.ScansLevels crc32c ops) : s'.answers crc32c ops = s.answers crc32c ops := by
  induction ops generalizing s s' with
  | nil => rfl
  | cons op ops ih =>
      obtain ⟨hanswer, hstores⟩ := h.call crc32c op
        (roomy.imp_right fun hroom => ⟨hroom.1.1, hroom.2.1⟩) levels.1
      have hrest := ih hstores (roomy.imp_right fun hroom => ⟨hroom.1.2, hroom.2.2⟩) levels.2
      simp only [Store.answers, hanswer, hrest]

/-! ## After a reset -/

variable (crc32c) in
/-- **A store after a reset is like a new one** with the bound of `ExpireAt` that it had, when no
file is open and no deletion is pending.  The inodes up to then are used up. -/
theorem Store.alike_reset {s : Store} (handles : s.handles = []) (tasks : s.tasks = []) :
    Store.Alike s.vlogs.next (s.vlog.offset = 0)
      { Store.new with lastLivingSequence := s.lastLivingSequence } (s.reset crc32c) := by
  have hdirs : Dir.Shifted s.vlogs.next (Dir.empty : VLogDir)
      (s.vlog.close crc32c s.vlogs.unlinkAll).2 := by
    have hnext : (s.vlog.close crc32c s.vlogs.unlinkAll).2.next = s.vlogs.next := by
      cases ht : s.vlog.builder <;> simp [VLogBuilder.close, ht, Dir.write, Dir.unlinkAll]
    have hinode : ∀ n, (s.vlog.close crc32c s.vlogs.unlinkAll).2.inode n = none := by
      intro n
      cases ht : s.vlog.builder <;> simp [VLogBuilder.close, ht, Dir.write, Dir.unlinkAll]
    refine ⟨hinode, hnext.trans (Nat.zero_add _).symm, fun hi => ?_, fun i hi => ?_⟩
    · simp [Dir.empty] at hi
    · simp [Dir.empty] at hi
  obtain ⟨hbuilder, hdirs, -⟩ := VLogBuilder.Moved.openFile (s.vlog.offset = 0) .new
    (s.vlog.close crc32c s.vlogs.unlinkAll).1 (fun h => h) hdirs 0
  exact
    { lastSequence := rfl
      lastLivingSequence := rfl
      fileno := rfl
      lastVlogFileNo := rfl
      mem := rfl
      imm := rfl
      levels := ⟨8, rfl⟩
      levels_ne := by simp [Store.new]
      sstFiles := rfl
      tasks := tasks
      vlogs := hdirs
      vlog := hbuilder
      handles := handles
      handles_lt := by simp [Store.new] }

/-- The store after a run. -/
def Store.after (crc32c : Bytes → ℕ) (s : Store) : List Operation → Store
  | [] => s
  | op :: ops => after crc32c (s.call crc32c op).2 ops

/-- The run leaves nothing that a reset would keep: no bound of `ExpireAt`, no open file of
`VLogReader`, no deletion that is pending. -/
structure Store.Clean (s : Store) : Prop where
  lastLivingSequence : s.lastLivingSequence = 0
  handles : s.handles = []
  tasks : s.tasks = []

/-- **After a reset a store answers every run as a new store does**, when the run before left
nothing that the reset keeps and nothing is scanned before there are levels again: `cache` is
empty after `clear()`, and has eight levels in a new store.  What is left of `offset_` shows at
most when a value log is closed because it is full. -/
theorem answers_reset (before ops : List Operation) (clean : (Store.new.after crc32c before).Clean)
    (roomy : (Store.new.after crc32c before).vlog.offset = 0 ∨ Store.new.NeverFull crc32c ops ∧
      ((Store.new.after crc32c before).reset crc32c).NeverFull crc32c ops)
    (levels : ((Store.new.after crc32c before).reset crc32c).ScansLevels crc32c ops) :
    ((Store.new.after crc32c before).reset crc32c).answers crc32c ops
      = Store.new.answers crc32c ops := by
  have halike := Store.alike_reset crc32c clean.handles clean.tasks
  rw [clean.lastLivingSequence] at halike
  exact halike.answers_eq ops roomy levels

theorem Store.reset_builder (s : Store) : (s.reset crc32c).vlog.builder = some .new := rfl

/-- A value log that was just opened has room. -/
theorem Store.neverFull_put_get {s : Store} (new : s.vlog.builder = some .new) (key val key' : Bytes) :
    s.NeverFull crc32c [.put key val 1, .get key'] := by
  exact ⟨VLogBuilder.full_of_new new _, trivial, trivial⟩

/-- A store with one value. -/
theorem Store.after_put (crc32c : Bytes → ℕ) (key val : Bytes) :
    ∃ s, Store.new.put crc32c key val 1 = .ok s ∧
      Store.new.after crc32c [.put key val 1] = s ∧ s.Clean ∧ s.lastSequence = 1 := by
  obtain ⟨s, ok⟩ := Store.VLogsOwned.init.writeImpl_isOk crc32c ⟨key, .kTypeValue, val⟩ .zero 1
  obtain ⟨-, -, -, -, hseq, hlive⟩ := Store.writeImpl_fields ok
  obtain ⟨htasks, -, hhandles⟩ := Store.writeImpl_files ok
  refine ⟨s, ok, ?_, ⟨hlive, hhandles, htasks⟩, hseq⟩
  simp only [Store.after, Store.call, Store.put, ok, Store.done]

/-- One `put`, and another one behind the reset. -/
theorem answers_reset_one_put :
    ((Store.new.after crc32cCastagnoli [.put [1] [9] 1]).reset crc32cCastagnoli).answers
        crc32cCastagnoli [.put [2] [8] 1, .get [1]]
      = Store.new.answers crc32cCastagnoli [.put [2] [8] 1, .get [1]] := by
  obtain ⟨s, -, hafter, hclean, -⟩ := Store.after_put crc32cCastagnoli [1] [9]
  refine answers_reset _ _ (hafter ▸ hclean) (.inr ⟨?_, ?_⟩) ⟨trivial, trivial, trivial⟩
  · exact Store.neverFull_put_get rfl [2] [8] [1]
  · exact Store.neverFull_put_get (Store.reset_builder _) [2] [8] [1]

/-- The first value of a store, put and read. -/
theorem Store.answers_put_get {s : Store}
    (reached : Machine.Reachable crc32c Machine.Orderly ⟨s, false, []⟩) (mem : s.mem = .new)
    (imm : s.imm = none) {key val : Bytes} (fits : Write.Fits ⟨key, .kTypeValue, val⟩) :
    s.answers crc32c [.put key val 1, .get key] = [.status (.ok ()),
      .value (expiryCheck (some s.lastLivingSequence)
        (InternalKey.ofWrite key 0 .kTypeValue).encode val)] := by
  obtain ⟨s', ok, -, hget⟩ := Machine.getImpl_first_put reached mem imm fits
  simp only [Store.answers, Store.call, ok, Store.done, hget]

/-- **A bound that outlives the reset.**  A value is put and expired, the store is reset, and the
next value that is put has expired as well. -/
theorem answers_reset_ne :
    ∃ before ops, ((Store.new.after crc32cCastagnoli before).reset crc32cCastagnoli).answers
        crc32cCastagnoli ops ≠ Store.new.answers crc32cCastagnoli ops := by
  refine ⟨[.put [1] [9] 1, .expireAt 0], [.put [1] [9] 1, .get [1]], ?_⟩
  obtain ⟨s, ok, -, hclean, hseq⟩ := Store.after_put crc32cCastagnoli [1] [9]
  have hafter : Store.new.after crc32cCastagnoli [.put [1] [9] 1, .expireAt 0]
      = { s with lastLivingSequence := 1 } := by
    simp only [Store.after, Store.call, ok, Store.done, Store.expireAt, hclean.lastLivingSequence]
    simp
  have halike := Store.alike_reset crc32cCastagnoli
    (s := { s with lastLivingSequence := 1 }) hclean.handles hclean.tasks
  have hexpire : Machine.Reachable crc32cCastagnoli Machine.Orderly
      ⟨{ Store.new with lastLivingSequence := 1 }, false, []⟩ :=
    .step .new (a := .expireAt 0) ⟨trivial, trivial, trivial⟩ (.expireAt rfl)
  rw [hafter, halike.answers_eq _ (.inr ⟨Store.neverFull_put_get rfl _ _ _,
      Store.neverFull_put_get (Store.reset_builder _) _ _ _⟩) ⟨trivial, trivial, trivial⟩,
    Store.answers_put_get hexpire rfl rfl (by decide),
    Store.answers_put_get .new rfl rfl (by decide),
    expiryCheck_ofWrite _ _ (by decide), if_pos Nat.zero_lt_one]
  simp [Store.new, expiryCheck_zero]

end Lsmkv
