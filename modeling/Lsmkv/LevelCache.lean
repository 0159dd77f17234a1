import Lsmkv.CompactionValues

/-!
# The levels

`LevelCache` (`src/include/levelcache.h`, `src/levelcache.cpp`) keeps the tables of each
level in a map by file number.  A level is the list of its tables in ascending order of
their numbers, and the cache is the list of its levels; a level past the end is empty.

`PickCompaction` selects the tables of a level that are to be merged and the tables of
the next level whose ranges meet theirs, and `DoCompactionWork` moves or merges them.
`doCompactionWork_cases` says once what a successful compaction does to the cache, and
`Numbered.compacted` that file numbers stay consistent.
-/

namespace Lsmkv

open ByteCode Files

variable {β : Type}

/-! ## Levels as maps -/

/-- A level: a map from file numbers to tables, in ascending order. -/
abbrev Level (β : Type) := List (SSTFile β)

/-- `emplace(file_number_, f)`: a number that is present is left alone. -/
def emplace (f : SSTFile β) : Level β → Level β
  | [] => [f]
  | g :: gs =>
      if f.fileNumber < g.fileNumber then f :: g :: gs
      else if f.fileNumber = g.fileNumber then g :: gs
      else g :: emplace f gs

/-- `RemoveFileAtCompaction`: erase the numbers of the given tables. -/
def removeFiles (files : List (SSTFile β)) (l : Level β) : Level β :=
  l.filter fun f => !files.any fun g => g.fileNumber == f.fileNumber

/-- The loop of `AddFile(level, files)`. -/
def addFiles (files : List (SSTFile β)) (l : Level β) : Level β :=
  files.foldl (fun l f => emplace f l) l

/-- A level of the cache; past the end of the vector it is empty. -/
def levelAt (levels : List (Level β)) (i : ℕ) : Level β := levels.getD i []

/-- `resize(i + 1)` if needed, then `cache[i] = l`. -/
def setLevel (levels : List (Level β)) (i : ℕ) (l : Level β) : List (Level β) :=
  (levels ++ List.replicate (i + 1 - levels.length) []).set i l

/-! ## Picking -/

/-- `PickSSTFileNum(level)`: all of level 0; none of a deeper level below its limit,
and `num - size + 2` of a level at or over it, in the unsigned arithmetic of
`uint32_t` and `size_t`.  The limit is exact below level 10. -/
def pickSSTFileNum (levels : List (Level β)) (level : ℕ) : ℕ :=
  let size := (levelAt levels level).length
  if level = 0 then size
  else
    let num := 10 ^ level
    if size < num then 0 else (2 ^ 64 + num + 2 - size) % 2 ^ 32

/-- `CompactInfo`. -/
structure CompactInfo (β : Type) where
  level : ℕ
  oldFiles : List (SSTFile β)
  overlapFiles : List (SSTFile β)
  smallestKey : InternalKey
  largestKey : InternalKey

/-- The update of the range in the loop of `PickCompaction`. -/
def widen (range : InternalKey × InternalKey) (f : SSTFile β) : InternalKey × InternalKey :=
  (if f.smallest < range.1 then f.smallest else range.1,
    if range.2 < f.largest then f.largest else range.2)

/-- `SSTFileMeta::InRange(small, large, cmp)`. -/
def SSTFile.inRange (f : SSTFile β) (small large : InternalKey) : Bool :=
  decide (max f.smallest small ≤ min f.largest large)

/-- `PickOverlappingFiles`. -/
def pickOverlappingFiles (levels : List (Level β)) (level : ℕ) (small large : InternalKey) :
    List (SSTFile β) :=
  (levelAt levels (level + 1)).filter fun f => f.inRange small large

/-- `PickCompaction`; `none` when no table is selected. -/
def pickCompaction (levels : List (Level β)) (level : ℕ) : Option (CompactInfo β) :=
  match (levelAt levels level).take (pickSSTFileNum levels level) with
  | [] => none
  | f :: fs =>
      let (small, large) := fs.foldl widen (f.smallest, f.largest)
      some ⟨level, f :: fs, pickOverlappingFiles levels level small large, small, large⟩

/-! ## Compacting -/

/-- `Option::kCompactionVLogLevel`. -/
def kCompactionVLogLevel : ℕ := 3

/-- `Option::kL0_CompactionTrigger`. -/
def kL0CompactionTrigger : ℕ := 4

/-- `MoveFiles(level, metas, new_level)`. -/
def moveFiles (levels : List (Level β)) (level : ℕ) (files : List (SSTFile β))
    (newLevel : ℕ) : List (Level β) :=
  let levels := setLevel levels level (removeFiles files (levelAt levels level))
  setLevel levels newLevel (addFiles files (levelAt levels newLevel))

/-- The end of `DoCompactionWork`: remove the inputs and add the outputs. -/
def replaceFiles (levels : List (Level β)) (info : CompactInfo β)
    (newFiles : List (SSTFile β)) : List (Level β) :=
  let levels := setLevel levels info.level (removeFiles info.oldFiles (levelAt levels info.level))
  let below := removeFiles info.overlapFiles (levelAt levels (info.level + 1))
  setLevel levels (info.level + 1) (addFiles newFiles below)

/-- What a compaction leaves behind: the levels, the counter of table files, the value
log side, and the files that the deletion task it submits will remove. -/
structure CompactionResult where
  levels : List (Level VLogEntryInfo)
  fileno : ℕ
  work : VLogWork
  rmSstFiles : List ℕ
  rmVlogFiles : List ℕ

/-- `rm_vlog_files`: the value logs of the inputs that own one. -/
def CompactInfo.rmVlogFiles (info : CompactInfo β) : List ℕ :=
  (if kCompactionVLogLevel ≤ info.level then info.oldFiles.map (·.vlogFileNo) else [])
    ++ (if kCompactionVLogLevel ≤ info.level + 1 then info.overlapFiles.map (·.vlogFileNo) else [])

/-- `rm_sst_files`: the inputs. -/
def CompactInfo.rmSstFiles (info : CompactInfo β) : List ℕ :=
  (info.oldFiles ++ info.overlapFiles).map (·.fileNumber)

/-- The entries under the iterators that are merged. -/
def CompactInfo.inputs (info : CompactInfo β) : List (List (Entry β)) :=
  (info.oldFiles ++ info.overlapFiles).map (·.entries)

/-- `DoCompactionWork(compact_info)`.  The assertions on `vlog_file_no_`, here and in
`AddFile`, are faults. -/
def doCompactionWork (crc32c : Bytes → ℕ) (live : ℕ) (levels : List (Level VLogEntryInfo))
    (fileno : ℕ) (w : VLogWork) (info : CompactInfo VLogEntryInfo) : Outcome CompactionResult :=
  let compactVlog := decide (kCompactionVLogLevel ≤ info.level + 1)
  if info.level ≠ 0 ∧ compactVlog = false ∧ info.overlapFiles = [] then
    .ok ⟨moveFiles levels info.level info.oldFiles (info.level + 1), fileno, w, [], []⟩
  else if 0 ∈ info.rmVlogFiles then .fault
  else do
    let (b, w) ← buildWhenCompaction crc32c compactVlog live fileno w info.inputs
    if compactVlog ∧ 0 ∈ b.newFiles.map (·.vlogFileNo) then .fault
    else .ok ⟨replaceFiles levels info b.newFiles, b.fileno, w, info.rmSstFiles, info.rmVlogFiles⟩

/-! ## Membership -/

@[simp] theorem levelAt_setLevel (levels : List (Level β)) (i j : ℕ) (l : Level β) :
    levelAt (setLevel levels i l) j = if j = i then l else levelAt levels j := by
  have hi : i < (levels ++ List.replicate (i + 1 - levels.length) ([] : Level β)).length := by
    simp
    omega
  simp only [levelAt, setLevel, List.getD_eq_getElem?_getD]
  by_cases hij : j = i
  · subst hij
    rw [List.getElem?_set_self hi, if_pos rfl]
    rfl
  · rw [List.getElem?_set_ne (Ne.symm hij), if_neg hij]
    by_cases hj : j < levels.length
    · rw [List.getElem?_append_left hj]
    · rw [List.getElem?_append_right (not_lt.mp hj), List.getElem?_replicate,
        List.getElem?_eq_none (not_lt.mp hj)]
      split <;> rfl

@[simp] theorem levelAt_replicate (n i : ℕ) :
    levelAt (List.replicate n ([] : Level β)) i = [] := by
  rw [levelAt, List.getD_eq_getElem?_getD, List.getElem?_replicate]
  split <;> rfl

theorem setLevel_ne_nil (levels : List (Level β)) (i : ℕ) (l : Level β) :
    setLevel levels i l ≠ [] := by
  intro h
  have hlength := congrArg List.length h
  simp only [setLevel, List.length_set, List.length_append, List.length_replicate,
    List.length_nil] at hlength
  omega

theorem mem_removeFiles {files : List (SSTFile β)} {l : Level β} {f : SSTFile β} :
    f ∈ removeFiles files l ↔ f ∈ l ∧ ∀ g ∈ files, g.fileNumber ≠ f.fileNumber := by
  simp [removeFiles]

theorem mem_emplace {f g : SSTFile β} {l : Level β} (fresh : ∀ h ∈ l, f.fileNumber ≠ h.fileNumber) :
    g ∈ emplace f l ↔ g = f ∨ g ∈ l := by
  induction l with
  | nil => simp [emplace]
  | cons h l ih =>
      have ih := ih fun k hk => fresh k (List.mem_cons_of_mem _ hk)
      simp only [emplace]
      split
      · simp
      · rw [if_neg (fresh h List.mem_cons_self), List.mem_cons, ih, List.mem_cons]
        tauto

/-- A table that comes into a level was added to it or was there. -/
theorem of_mem_emplace {f g : SSTFile β} {l : Level β} (h : g ∈ emplace f l) : g = f ∨ g ∈ l := by
  induction l with
  | nil => simpa [emplace] using h
  | cons k l ih =>
      simp only [emplace] at h
      split at h
      · simpa using h
      · split at h
        · exact .inr h
        · rcases List.mem_cons.mp h with rfl | h
          · exact .inr List.mem_cons_self
          · exact (ih h).imp id (List.mem_cons_of_mem _)

theorem ascending_emplace {f : SSTFile β} {l : Level β}
    (h : l.Pairwise fun a b => a.fileNumber < b.fileNumber) :
    (emplace f l).Pairwise fun a b => a.fileNumber < b.fileNumber := by
  induction l with
  | nil => simp [emplace]
  | cons g l ih =>
      obtain ⟨hg, hl⟩ := List.pairwise_cons.mp h
      simp only [emplace]
      split
      · rename_i hlt
        refine List.pairwise_cons.mpr ⟨fun k hk => ?_, h⟩
        rcases List.mem_cons.mp hk with rfl | hk
        · exact hlt
        · exact hlt.trans (hg k hk)
      · split
        · exact h
        · rename_i hlt hne
          refine List.pairwise_cons.mpr ⟨fun k hk => ?_, ih hl⟩
          rcases of_mem_emplace hk with rfl | hk
          · omega
          · exact hg k hk

theorem mem_addFiles {files : List (SSTFile β)} {l : Level β} {g : SSTFile β}
    (distinct : files.Pairwise fun a b => a.fileNumber ≠ b.fileNumber)
    (fresh : ∀ f ∈ files, ∀ h ∈ l, f.fileNumber ≠ h.fileNumber) :
    g ∈ addFiles files l ↔ g ∈ files ∨ g ∈ l := by
  induction files generalizing l with
  | nil => simp [addFiles]
  | cons f files ih =>
      obtain ⟨hf, hfiles⟩ := List.pairwise_cons.mp distinct
      have hfresh : ∀ h ∈ l, f.fileNumber ≠ h.fileNumber := fresh f List.mem_cons_self
      have hstep : addFiles (f :: files) l = addFiles files (emplace f l) := rfl
      rw [hstep, ih hfiles, mem_emplace hfresh, List.mem_cons]
      · tauto
      · intro k hk h hh
        rcases of_mem_emplace hh with rfl | hh
        · exact (hf k hk).symm
        · exact fresh k (List.mem_cons_of_mem _ hk) h hh

theorem of_mem_addFiles {files : List (SSTFile β)} {l : Level β} {g : SSTFile β}
    (h : g ∈ addFiles files l) : g ∈ files ∨ g ∈ l := by
  induction files generalizing l with
  | nil => exact .inr h
  | cons f files ih =>
      rcases ih (l := emplace f l) h with h | h
      · exact .inl (List.mem_cons_of_mem _ h)
      · rcases of_mem_emplace h with rfl | h
        · exact .inl List.mem_cons_self
        · exact .inr h

theorem ascending_addFiles {files : List (SSTFile β)} {l : Level β}
    (h : l.Pairwise fun a b => a.fileNumber < b.fileNumber) :
    (addFiles files l).Pairwise fun a b => a.fileNumber < b.fileNumber := by
  induction files generalizing l with
  | nil => exact h
  | cons f files ih => exact ih (ascending_emplace h)

/-! ## What is picked -/

/-- The range of the selected tables covers each of them. -/
theorem widen_covers (fs : List (SSTFile β)) (range : InternalKey × InternalKey) :
    (fs.foldl widen range).1 ≤ range.1 ∧ range.2 ≤ (fs.foldl widen range).2 ∧
      ∀ f ∈ fs, (fs.foldl widen range).1 ≤ f.smallest ∧ f.largest ≤ (fs.foldl widen range).2 := by
  induction fs generalizing range with
  | nil => simp
  | cons g fs ih =>
      obtain ⟨hsmall, hlarge, hall⟩ := ih (widen range g)
      have hfst : (widen range g).1 ≤ range.1 ∧ (widen range g).1 ≤ g.smallest := by
        simp only [widen]
        split
        · rename_i h
          exact ⟨h.le, le_rfl⟩
        · rename_i h
          exact ⟨le_rfl, not_lt.mp h⟩
      have hsnd : range.2 ≤ (widen range g).2 ∧ g.largest ≤ (widen range g).2 := by
        simp only [widen]
        split
        · rename_i h
          exact ⟨h.le, le_rfl⟩
        · rename_i h
          exact ⟨le_rfl, not_lt.mp h⟩
      refine ⟨hsmall.trans hfst.1, hsnd.1.trans hlarge, fun f hf => ?_⟩
      rcases List.mem_cons.mp hf with rfl | hf
      · exact ⟨hsmall.trans hfst.2, hsnd.2.trans hlarge⟩
      · exact hall f hf

/-- **What `PickCompaction` selects.**  The first tables of the level, and the tables
of the next level whose range meets the range they cover. -/
theorem pickCompaction_cases {levels : List (Level β)} {level : ℕ} {info : CompactInfo β}
    (h : pickCompaction levels level = some info) :
    info.level = level ∧
      info.oldFiles = (levelAt levels level).take (pickSSTFileNum levels level) ∧
      info.oldFiles ≠ [] ∧
      (∀ f ∈ info.oldFiles, info.smallestKey ≤ f.smallest ∧ f.largest ≤ info.largestKey) ∧
      info.overlapFiles = (levelAt levels (level + 1)).filter fun f =>
        f.inRange info.smallestKey info.largestKey := by
  simp only [pickCompaction] at h
  split at h
  · exact absurd h (by simp)
  · rename_i f fs htake
    simp only [Option.some.injEq] at h
    obtain ⟨hsmall, hlarge, hall⟩ := widen_covers fs (f.smallest, f.largest)
    subst h
    refine ⟨rfl, htake.symm, by simp, ?_, rfl⟩
    intro g hg
    rcases List.mem_cons.mp hg with rfl | hg
    · exact ⟨hsmall, hlarge⟩
    · exact hall g hg

/-! ## What a compaction does -/

theorem removeFiles_nil (l : Level β) : removeFiles [] l = l := by simp [removeFiles]

theorem moveFiles_eq {levels : List (Level β)} {info : CompactInfo β}
    (none_below : info.overlapFiles = []) :
    moveFiles levels info.level info.oldFiles (info.level + 1)
      = replaceFiles levels info info.oldFiles := by
  simp [moveFiles, replaceFiles, none_below, removeFiles_nil]

theorem levelAt_replaceFiles (levels : List (Level β)) (info : CompactInfo β)
    (new : List (SSTFile β)) (j : ℕ) :
    levelAt (replaceFiles levels info new) j =
      if j = info.level + 1 then
        addFiles new (removeFiles info.overlapFiles (levelAt levels (info.level + 1)))
      else if j = info.level then removeFiles info.oldFiles (levelAt levels info.level)
      else levelAt levels j := by
  simp [replaceFiles]

section Cases

variable {crc32c : Bytes → ℕ} {live fileno : ℕ} {levels : List (Level VLogEntryInfo)}
  {w : VLogWork} {info : CompactInfo VLogEntryInfo} {r : CompactionResult}

/-- The tables are moved to the next level as they are: they are not in level 0, the next
level does not own value logs, and nothing there overlaps. -/
def CompactInfo.Moves (info : CompactInfo β) : Prop :=
  info.level ≠ 0 ∧ info.level + 1 < kCompactionVLogLevel ∧ info.overlapFiles = []

/-- The two ways in which a compaction succeeds.  Tables are moved as they are, or they
are merged into new tables. -/
inductive Compaction (crc32c : Bytes → ℕ) (live fileno : ℕ) (w : VLogWork)
    (info : CompactInfo VLogEntryInfo) (r : CompactionResult) : List (SSTFile VLogEntryInfo) → Prop
  | move (moves : info.Moves) (same_fileno : r.fileno = fileno) (same_work : r.work = w)
      (keep_sst : r.rmSstFiles = []) (keep_vlog : r.rmVlogFiles = []) :
      Compaction crc32c live fileno w info r info.oldFiles
  | merge (merges : ¬ info.Moves) (b : Build VLogEntryInfo)
      (built : buildWhenCompaction crc32c (decide (kCompactionVLogLevel ≤ info.level + 1)) live
        fileno w info.inputs = .ok (b, r.work))
      (next_fileno : r.fileno = b.fileno) (rm_sst : r.rmSstFiles = info.rmSstFiles)
      (rm_vlog : r.rmVlogFiles = info.rmVlogFiles) :
      Compaction crc32c live fileno w info r b.newFiles

/-- **What a successful compaction does.**  In both cases the selected tables leave
their level, the overlapping ones leave the next, and the new ones are put there. -/
theorem doCompactionWork_cases
    (h : doCompactionWork crc32c live levels fileno w info = .ok r) :
    ∃ new, Compaction crc32c live fileno w info r new ∧
      r.levels = replaceFiles levels info new := by
  simp only [doCompactionWork] at h
  split at h
  · rename_i hmove
    obtain ⟨hlevel, hshallow, halone⟩ := hmove
    simp only [Outcome.ok.injEq] at h
    subst h
    exact ⟨_, .move ⟨hlevel, by simpa using hshallow, halone⟩ rfl rfl rfl rfl, moveFiles_eq halone⟩
  · rename_i hmerge
    have hmerges : ¬ info.Moves := by simpa [CompactInfo.Moves] using hmerge
    split at h
    · exact absurd h (by simp)
    · obtain ⟨⟨b, w'⟩, hbuild, hrest⟩ := Outcome.bind_eq_ok.mp h
      split at hrest
      · exact absurd hrest (by simp)
      · simp only [Outcome.ok.injEq] at hrest
        subst hrest
        exact ⟨_, .merge hmerges b hbuild rfl rfl rfl, rfl⟩

variable (crc32c live fileno levels w info) in
/-- Above the levels that own value logs, a compaction of two or more tables succeeds. -/
theorem doCompactionWork_isOk (shallow : info.level + 1 < kCompactionVLogLevel)
    (two : 2 ≤ info.inputs.length) :
    ∃ r, doCompactionWork crc32c live levels fileno w info = .ok r := by
  have hnext : ¬ kCompactionVLogLevel ≤ info.level + 1 := not_le.mpr shallow
  have hlevel : ¬ kCompactionVLogLevel ≤ info.level := fun h => hnext (h.trans (Nat.le_succ _))
  obtain ⟨⟨b, w'⟩, hbuild⟩ := buildWhenCompaction_isOk crc32c live fileno w two
  simp only [doCompactionWork, CompactInfo.rmVlogFiles, hnext, hlevel, decide_false, if_false,
    List.append_nil, List.not_mem_nil, hbuild, Outcome.ok_bind, Bool.false_eq_true, false_and]
  split
  · exact ⟨_, rfl⟩
  · exact ⟨_, rfl⟩

end Cases

/-! ## File numbers -/

/-- File numbers are used once: ascending in each level, never in two levels, and below
the counter. -/
structure Numbered (levels : List (Level β)) (fileno : ℕ) : Prop where
  ascending : ∀ i, (levelAt levels i).Pairwise fun f g => f.fileNumber < g.fileNumber
  below : ∀ i, ∀ f ∈ levelAt levels i, f.fileNumber < fileno
  unique : ∀ i j, ∀ f ∈ levelAt levels i, ∀ g ∈ levelAt levels j,
    f.fileNumber = g.fileNumber → i = j

theorem mem_levelAt {levels : List (Level β)} {i : ℕ} {f : SSTFile β} :
    f ∈ levelAt levels i ↔ ∃ h : i < levels.length, f ∈ levels[i] := by
  by_cases hi : i < levels.length
  · simp [levelAt, hi]
  · simp [levelAt, hi]

theorem forall_mem_levelAt {levels : List (Level β)} {P : SSTFile β → Prop}
    (h : ∀ l ∈ levels, ∀ f ∈ l, P f) : ∀ i, ∀ f ∈ levelAt levels i, P f := by
  intro i f hf
  obtain ⟨hi, hf⟩ := mem_levelAt.mp hf
  exact h _ (List.getElem_mem hi) f hf

/-- The levels of a cache, given as a list, are numbered when its members are. -/
theorem numbered_of_forall {levels : List (Level β)} {fileno : ℕ}
    (ascending : ∀ l ∈ levels, l.Pairwise fun f g => f.fileNumber < g.fileNumber)
    (below : ∀ l ∈ levels, ∀ f ∈ l, f.fileNumber < fileno)
    (distinct : levels.Pairwise fun l m => ∀ f ∈ l, ∀ g ∈ m, f.fileNumber ≠ g.fileNumber) :
    Numbered levels fileno := by
  refine ⟨fun i => ?_, forall_mem_levelAt below, fun i j f hf g hg heq => ?_⟩
  · by_cases hi : i < levels.length
    · simpa [levelAt, hi] using ascending _ (List.getElem_mem hi)
    · simp [levelAt, List.getElem?_eq_none (not_lt.mp hi)]
  · obtain ⟨hi, hf⟩ := mem_levelAt.mp hf
    obtain ⟨hj, hg⟩ := mem_levelAt.mp hg
    rcases lt_trichotomy i j with hij | hij | hij
    · exact absurd heq (List.pairwise_iff_getElem.mp distinct i j hi hj hij f hf g hg)
    · exact hij
    · exact absurd heq.symm (List.pairwise_iff_getElem.mp distinct j i hj hi hij g hg f hf)

/-- Elements in ascending order of their numbers are known by them. -/
theorem eq_of_number_eq {α : Type} {number : α → ℕ} {l : List α}
    (ascending : l.Pairwise fun a b => number a < number b) {a b : α} (ha : a ∈ l) (hb : b ∈ l)
    (h : number a = number b) : a = b := by
  induction l with
  | nil => simp at ha
  | cons k l ih =>
      obtain ⟨hk, hl⟩ := List.pairwise_cons.mp ascending
      rcases List.mem_cons.mp ha with rfl | ha'
      · rcases List.mem_cons.mp hb with rfl | hb'
        · rfl
        · exact absurd h (hk b hb').ne
      · rcases List.mem_cons.mp hb with rfl | hb'
        · exact absurd h (hk a ha').ne'
        · exact ih hl ha' hb'

/-- The selected tables have the smallest numbers of their level. -/
theorem take_lt_rest {l : Level β} (ascending : l.Pairwise fun f g => f.fileNumber < g.fileNumber)
    {n : ℕ} {f g : SSTFile β} (hf : f ∈ l.take n) (hg : g ∈ l) (rest : g ∉ l.take n) :
    f.fileNumber < g.fileNumber := by
  rw [← List.take_append_drop n l] at ascending hg
  rcases List.mem_append.mp hg with hg | hg
  · exact absurd hg rest
  · exact (List.pairwise_append.mp ascending).2.2 f hf g hg

/-- In a level, removing tables removes exactly them. -/
theorem mem_removeFiles_of_mem {l : Level β}
    (ascending : l.Pairwise fun f g => f.fileNumber < g.fileNumber) {files : List (SSTFile β)}
    (sub : ∀ f ∈ files, f ∈ l) {g : SSTFile β} : g ∈ removeFiles files l ↔ g ∈ l ∧ g ∉ files := by
  rw [mem_removeFiles]
  refine and_congr_right fun hg => ⟨fun h hmem => h g hmem rfl, fun h f hf heq => h ?_⟩
  rwa [← eq_of_number_eq ascending (sub f hf) hg heq]

/-! ## The tables of a compaction -/

section Compaction

variable {crc32c : Bytes → ℕ} {live fileno level : ℕ} {levels : List (Level VLogEntryInfo)}
  {w : VLogWork} {info : CompactInfo VLogEntryInfo} {r : CompactionResult}
  {new : List (SSTFile VLogEntryInfo)}

/-- A merge has at least two inputs, and visits each of their entries once. -/
theorem visit_of_built {buildVlog : Bool} {b : Build VLogEntryInfo} {w' : VLogWork}
    (ne : info.oldFiles ≠ [])
    (built : buildWhenCompaction crc32c buildVlog live fileno w info.inputs = .ok (b, w')) :
    2 ≤ info.inputs.length ∧ ∃ visited,
      LoserTree.visit (fun e => e.key.encode) info.inputs = some visited ∧
      visited.Perm info.inputs.flatten := by
  obtain ⟨visited, hvisit, -⟩ := Outcome.bind_eq_ok.mp built
  have hsome : LoserTree.visit (fun e => e.key.encode) info.inputs = some visited := by
    cases hv : LoserTree.visit (fun e : Entry VLogEntryInfo => e.key.encode) info.inputs with
    | none => simp [hv] at hvisit
    | some out => simpa [hv] using hvisit
  have htwo := two_le_of_visit (by simpa [CompactInfo.inputs] using fun h => absurd h ne) hsome
  exact ⟨htwo, visited, hsome, visit_perm htwo hsome⟩

theorem mem_inputs {e : Entry VLogEntryInfo} :
    e ∈ info.inputs.flatten ↔ ∃ f ∈ info.oldFiles ++ info.overlapFiles, e ∈ f.entries := by
  simp only [CompactInfo.inputs, List.mem_flatten, List.mem_map]
  constructor
  · rintro ⟨_, ⟨f, hf, rfl⟩, he⟩
    exact ⟨f, hf, he⟩
  · rintro ⟨f, hf, he⟩
    exact ⟨_, ⟨f, hf, rfl⟩, he⟩

/-- Every key of the new tables comes from a selected or an overlapping table, and is
not expired when it comes from an overlapping one. -/
theorem Compaction.key_from (h : Compaction crc32c live fileno w info r new)
    (ne : info.oldFiles ≠ []) {f : SSTFile VLogEntryInfo} (hf : f ∈ new)
    {e : Entry VLogEntryInfo} (he : e ∈ f.entries) :
    ∃ g ∈ info.oldFiles ++ info.overlapFiles, ∃ d ∈ g.entries, d.key = e.key ∧
      (g ∈ info.overlapFiles → live ≤ d.key.seq) := by
  cases h with
  | move moves => exact ⟨f, List.mem_append_left _ hf, e, he, rfl, by simp [moves.2.2]⟩
  | merge merges b built =>
      obtain ⟨-, visited, hvisit, hperm⟩ := visit_of_built ne built
      have hkeys := buildWhenCompaction_keys hvisit built
      have hmem : e.key ∈ (b.newFiles.flatMap (·.entries)).map Entry.key :=
        List.mem_map_of_mem (List.mem_flatMap.mpr ⟨f, hf, he⟩)
      rw [hkeys] at hmem
      obtain ⟨d, hd, hkey⟩ := List.mem_map.mp hmem
      obtain ⟨hvisited, hlive⟩ := List.mem_filter.mp hd
      obtain ⟨g, hg, hdg⟩ := mem_inputs.mp (hperm.mem_iff.mp hvisited)
      exact ⟨g, hg, d, hdg, hkey, fun _ => by simpa using hlive⟩

/-- Every key of a selected or an overlapping table that is not expired is in a new
table. -/
theorem Compaction.key_kept (h : Compaction crc32c live fileno w info r new)
    (ne : info.oldFiles ≠ []) {g : SSTFile VLogEntryInfo}
    (hg : g ∈ info.oldFiles ++ info.overlapFiles) {d : Entry VLogEntryInfo} (hd : d ∈ g.entries)
    (alive : live ≤ d.key.seq) : ∃ f ∈ new, ∃ e ∈ f.entries, e.key = d.key := by
  cases h with
  | move moves =>
      rw [moves.2.2, List.append_nil] at hg
      exact ⟨g, hg, d, hd, rfl⟩
  | merge merges b built =>
      obtain ⟨-, visited, hvisit, hperm⟩ := visit_of_built ne built
      have hkeys := buildWhenCompaction_keys hvisit built
      have hvisited : d ∈ visited := hperm.mem_iff.mpr (mem_inputs.mpr ⟨g, hg, hd⟩)
      have hmem : d.key ∈ (visited.filter fun e => decide (live ≤ e.key.seq)).map Entry.key :=
        List.mem_map_of_mem (List.mem_filter.mpr ⟨hvisited, by simpa using alive⟩)
      rw [← hkeys] at hmem
      obtain ⟨e, he, hkey⟩ := List.mem_map.mp hmem
      obtain ⟨f, hf, hef⟩ := List.mem_flatMap.mp he
      exact ⟨f, hf, e, hef, hkey⟩

/-- The new tables are in order of their numbers, below the counter, and a merge gives
them numbers that no table had. -/
theorem Compaction.numbers (h : Compaction crc32c live fileno w info r new)
    (ne : info.oldFiles ≠ [])
    (old : info.oldFiles.Pairwise fun f g => f.fileNumber < g.fileNumber)
    (old_lt : ∀ f ∈ info.oldFiles, f.fileNumber < fileno) :
    fileno ≤ r.fileno ∧ (new.Pairwise fun f g => f.fileNumber < g.fileNumber) ∧
      ∀ f ∈ new, f.fileNumber < r.fileno ∧
        ((info.overlapFiles = [] ∧ f ∈ info.oldFiles) ∨ fileno ≤ f.fileNumber) := by
  cases h with
  | move moves same_fileno =>
      rw [same_fileno]
      exact ⟨le_rfl, old, fun f hf => ⟨old_lt f hf, .inl ⟨moves.2.2, hf⟩⟩⟩
  | merge merges b built next_fileno =>
      obtain ⟨-, visited, hvisit, -⟩ := visit_of_built ne built
      have hcons := buildWhenCompaction_consecutive hvisit built
      refine ⟨by rw [next_fileno, hcons.next]; exact Nat.le_add_right _ _, ?_, fun f hf => ?_⟩
      · have hpair := List.pairwise_lt_range' (s := fileno) (n := b.newFiles.length)
        rw [← hcons.numbers, List.pairwise_map] at hpair
        exact hpair
      · have hmem : f.fileNumber ∈ List.range' fileno b.newFiles.length := by
          rw [← hcons.numbers]
          exact List.mem_map_of_mem hf
        rw [List.mem_range'_1] at hmem
        rw [next_fileno, hcons.next]
        exact ⟨hmem.2, .inr hmem.1⟩

/-- A merge gives the new tables numbers that no table had. -/
theorem Compaction.fresh_of_merge (h : Compaction crc32c live fileno w info r new)
    (ne : info.oldFiles ≠ []) (merges : ¬ info.Moves) : ∀ f ∈ new, fileno ≤ f.fileNumber := by
  cases h with
  | move moves => exact absurd moves merges
  | merge _ b built =>
      obtain ⟨-, visited, hvisit, -⟩ := visit_of_built ne built
      intro f hf
      have hmem : f.fileNumber ∈ List.range' fileno b.newFiles.length := by
        rw [← (buildWhenCompaction_consecutive hvisit built).numbers]
        exact List.mem_map_of_mem hf
      exact (List.mem_range'_1.mp hmem).1

/-- The state of the levels that a compaction is picked from, with what it picks. -/
structure Picked (levels : List (Level VLogEntryInfo)) (fileno : ℕ)
    (info : CompactInfo VLogEntryInfo) : Prop where
  numbered : Numbered levels fileno
  picked : pickCompaction levels info.level = some info

namespace Picked

variable (p : Picked levels fileno info)

include p

theorem old_eq : info.oldFiles
    = (levelAt levels info.level).take (pickSSTFileNum levels info.level) :=
  (pickCompaction_cases p.picked).2.1

theorem old_ne : info.oldFiles ≠ [] := (pickCompaction_cases p.picked).2.2.1

theorem mem_old {f : SSTFile VLogEntryInfo} (hf : f ∈ info.oldFiles) :
    f ∈ levelAt levels info.level := by
  rw [p.old_eq] at hf
  exact List.mem_of_mem_take hf

theorem mem_overlap {f : SSTFile VLogEntryInfo} :
    f ∈ info.overlapFiles ↔ f ∈ levelAt levels (info.level + 1) ∧
      f.inRange info.smallestKey info.largestKey = true := by
  rw [(pickCompaction_cases p.picked).2.2.2.2, List.mem_filter]

/-- Where a selected or an overlapping table comes from. -/
theorem mem_input {f : SSTFile VLogEntryInfo} (hf : f ∈ info.oldFiles ++ info.overlapFiles) :
    f ∈ levelAt levels info.level ∨ f ∈ levelAt levels (info.level + 1) := by
  rcases List.mem_append.mp hf with hf | hf
  · exact .inl (p.mem_old hf)
  · exact .inr (p.mem_overlap.mp hf).1

theorem numbers (h : Compaction crc32c live fileno w info r new) :
    fileno ≤ r.fileno ∧ (new.Pairwise fun f g => f.fileNumber < g.fileNumber) ∧
      ∀ f ∈ new, f.fileNumber < r.fileno ∧
        ((info.overlapFiles = [] ∧ f ∈ info.oldFiles) ∨ fileno ≤ f.fileNumber) := by
  refine h.numbers p.old_ne ?_ fun f hf => p.numbered.below _ f (p.mem_old hf)
  rw [p.old_eq]
  exact (p.numbered.ascending _).sublist (List.take_sublist _ _)

/-- No table that stays in the next level has the number of a new one. -/
theorem fresh (h : Compaction crc32c live fileno w info r new) {f g : SSTFile VLogEntryInfo}
    (hf : f ∈ new) (hg : g ∈ levelAt levels (info.level + 1)) : f.fileNumber ≠ g.fileNumber := by
  intro heq
  rcases ((p.numbers h).2.2 f hf).2 with ⟨-, hold⟩ | hle
  · exact absurd (p.numbered.unique _ _ f (p.mem_old hold) g hg heq) (Nat.succ_ne_self _).symm
  · have := p.numbered.below _ g hg
    omega

/-- **The tables after a compaction.** -/
theorem mem_level (h : Compaction crc32c live fileno w info r new) {j : ℕ}
    {f : SSTFile VLogEntryInfo} :
    f ∈ levelAt (replaceFiles levels info new) j ↔
      (j = info.level + 1 ∧ f ∈ new) ∨
      (f ∈ levelAt levels j ∧ (j = info.level → f ∉ info.oldFiles) ∧
        (j = info.level + 1 → f ∉ info.overlapFiles)) := by
  have hnew := p.numbers h
  have hold := mem_removeFiles_of_mem (p.numbered.ascending info.level)
    (fun f hf => p.mem_old hf) (g := f)
  have hover := mem_removeFiles_of_mem (p.numbered.ascending (info.level + 1))
    (fun f hf => (p.mem_overlap.mp hf).1) (g := f)
  rw [levelAt_replaceFiles]
  by_cases hnext : j = info.level + 1
  · subst hnext
    rw [if_pos rfl, mem_addFiles (hnew.2.1.imp fun hlt => hlt.ne)
      (fun g hg k hk => p.fresh h hg (mem_removeFiles.mp hk).1), hover]
    simp
  · rw [if_neg hnext]
    by_cases hlevel : j = info.level
    · subst hlevel
      rw [if_pos rfl, hold]
      simp
    · rw [if_neg hlevel]
      simp [hnext, hlevel]

/-- File numbers stay consistent. -/
theorem compacted (h : Compaction crc32c live fileno w info r new) :
    Numbered (replaceFiles levels info new) r.fileno := by
  obtain ⟨hle, hasc, hnum⟩ := p.numbers h
  -- A new table has a new number, or is a table that left its level.
  have hclash : ∀ {j f g}, f ∈ new → g ∈ levelAt levels j →
      (j = info.level → g ∉ info.oldFiles) → f.fileNumber ≠ g.fileNumber := by
    intro j f g hf hg hstay heq
    rcases (hnum f hf).2 with ⟨-, hold⟩ | hge
    · have hj := p.numbered.unique _ _ f (p.mem_old hold) g hg heq
      subst hj
      have := eq_of_number_eq (p.numbered.ascending _) (p.mem_old hold) hg heq
      exact hstay rfl (this ▸ hold)
    · have := p.numbered.below _ g hg
      omega
  refine ⟨fun j => ?_, fun j f hf => ?_, fun i j f hf g hg heq => ?_⟩
  · rw [levelAt_replaceFiles]
    by_cases hnext : j = info.level + 1
    · rw [if_pos hnext]
      exact ascending_addFiles ((p.numbered.ascending _).sublist List.filter_sublist)
    · rw [if_neg hnext]
      by_cases hlevel : j = info.level
      · rw [if_pos hlevel]
        exact (p.numbered.ascending _).sublist List.filter_sublist
      · rw [if_neg hlevel]
        exact p.numbered.ascending j
  · rcases (p.mem_level h).mp hf with ⟨-, hf⟩ | ⟨hf, -⟩
    · exact (hnum f hf).1
    · exact lt_of_lt_of_le (p.numbered.below _ f hf) hle
  · rcases (p.mem_level h).mp hf with ⟨hi, hf⟩ | ⟨hf, hfold, -⟩
    · rcases (p.mem_level h).mp hg with ⟨hj, -⟩ | ⟨hg, hgold, -⟩
      · rw [hi, hj]
      · exact absurd heq (hclash hf hg hgold)
    · rcases (p.mem_level h).mp hg with ⟨hj, hg⟩ | ⟨hg, -⟩
      · exact absurd heq.symm (hclash hg hf hfold)
      · exact p.numbered.unique i j f hf g hg heq

end Picked

end Compaction

end Lsmkv
