import Lsmkv.DeepLevels

/-!
# How many tables a compaction merges

`DoCompactionWork` builds a loser tree over the tables that `PickCompaction` selected.  The tree
stays within its arrays from two tables on (`visit_headMerge`); with a single one the constructor
reads `winner[1]`, which does not exist (`create_singleton`).  So the tree is safe for what was
picked unless the pick is a single table that is to be merged (`LoserTree.inBounds_iff`).

The picking arithmetic selects one table of a level with one more than its limit
(`length_take_eq_one_iff`).  Level 1 moves such a table down, or merges it with those it overlaps;
level 2 merges in any case, since the level below owns value logs.  A run comes to a hundred and one
tables in level 2, with none below, when entries expire before level 1 is merged into it
(`LoserTree.create_fault_of_expiry`).
-/

namespace Lsmkv

open ByteCode Files

/-! ## The inputs of a merge -/

section Inputs

variable {levels : List (Level VLogEntryInfo)} {level : ℕ} {info : CompactInfo VLogEntryInfo}

/-- One table is picked, of a level whose tables are not simply moved, and no table of the next
level meets its range. -/
def PicksAlone (levels : List (Level VLogEntryInfo)) (level : ℕ) : Prop :=
  (level = 0 ∨ kCompactionVLogLevel ≤ level + 1) ∧
    ∃ f, (levelAt levels level).take (pickSSTFileNum levels level) = [f] ∧
      ∀ g ∈ levelAt levels (level + 1), g.inRange f.smallest f.largest = false

/-- The sizes from which one table is picked. -/
theorem length_take_eq_one_iff (shallow : level < 10) (small : (levelAt levels level).length < 2 ^ 31) :
    ((levelAt levels level).take (pickSSTFileNum levels level)).length = 1 ↔
      (level = 0 ∧ (levelAt levels level).length = 1) ∨
        (1 ≤ level ∧ (levelAt levels level).length = 10 ^ level + 1) := by
  rw [List.length_take]
  rcases Nat.eq_zero_or_pos level with rfl | hpos
  · rw [pickSSTFileNum, if_pos rfl]
    omega
  · have hten : 10 ≤ 10 ^ level := ten_le_pow hpos
    have hlimit : 10 ^ level ≤ 10 ^ 9 := Nat.pow_le_pow_right (by decide) (Nat.le_of_lt_succ shallow)
    by_cases hless : (levelAt levels level).length < 10 ^ level
    · rw [pickSSTFileNum_of_lt hpos hless]
      omega
    · obtain ⟨d, hd⟩ := Nat.exists_eq_add_of_le (not_lt.mp hless)
      rw [pickSSTFileNum_of_ge hpos hd, hd]
      omega

/-- A merge that stays within its arrays does not get a single table. -/
theorem not_picksAlone_of_inBounds (picked : pickCompaction levels level = some info)
    (hsafe : info.Moves ∨ ∃ out, LoserTree.visit (fun e => e.key.encode) info.inputs = some out) :
    ¬ PicksAlone levels level := by
  obtain ⟨hlevel, hold, hne, -, hover⟩ := pickCompaction_cases picked
  have hlen : info.inputs.length = info.oldFiles.length + info.overlapFiles.length := by
    rw [CompactInfo.inputs, List.length_map, List.length_append]
  rintro ⟨hmerged, f, htake, hapart⟩
  obtain rfl : info = ⟨level, [f], pickOverlappingFiles levels level f.smallest f.largest,
      f.smallest, f.largest⟩ := by
    simpa [pickCompaction, htake] using picked.symm
  have hnone : pickOverlappingFiles levels level f.smallest f.largest = [] :=
    List.filter_eq_nil_iff.mpr fun g hg => by simp [hapart g hg]
  rcases hsafe with ⟨hzero, hshallow, -⟩ | ⟨out, hvisit⟩
  · rcases hmerged with hmerged | hmerged
    · exact hzero hmerged
    · exact absurd hmerged (not_le.mpr hshallow)
  · have htwo := two_le_of_visit (by simp [CompactInfo.inputs]) hvisit
    rw [hlen, hnone] at htwo
    exact absurd htwo (by simp)

/-- A merge of two or more tables stays within its arrays. -/
theorem inBounds_of_not_picksAlone (picked : pickCompaction levels level = some info)
    (hnot : ¬ PicksAlone levels level) :
    info.Moves ∨ ∃ out, LoserTree.visit (fun e => e.key.encode) info.inputs = some out := by
  obtain ⟨hlevel, hold, hne, -, hover⟩ := pickCompaction_cases picked
  have hlen : info.inputs.length = info.oldFiles.length + info.overlapFiles.length := by
    rw [CompactInfo.inputs, List.length_map, List.length_append]
  have hpos := List.length_pos_iff.mpr hne
  by_contra hfault
  obtain ⟨hmerges, hbroken⟩ := not_or.mp hfault
  have hone : ¬ 2 ≤ info.inputs.length := by
    intro htwo
    obtain ⟨out, hvisit, -⟩ := visit_headMerge (fun e : Entry VLogEntryInfo => e.key.encode) htwo
    exact hbroken ⟨out, hvisit⟩
  have hnone : info.overlapFiles = [] := List.length_eq_zero_iff.mp (by omega)
  obtain ⟨f, hf⟩ := List.length_eq_one_iff.mp (show info.oldFiles.length = 1 by omega)
  have hkeys : info.smallestKey = f.smallest ∧ info.largestKey = f.largest := by
    have htake := hold.symm.trans hf
    rw [pickCompaction, htake] at picked
    obtain rfl := Option.some.inj picked
    exact ⟨rfl, rfl⟩
  refine hnot ⟨?_, f, hold.symm.trans hf, fun g hg => ?_⟩
  · by_contra hmoves
    obtain ⟨hzero, hdeep⟩ := not_or.mp hmoves
    exact hmerges ⟨hlevel ▸ hzero, hlevel ▸ not_le.mp hdeep, hnone⟩
  · rw [hover, hkeys.1, hkeys.2, List.filter_eq_nil_iff] at hnone
    simpa using hnone g hg

/-- **The loser tree over the tables that are picked stays within its arrays**, from its
construction to its end, exactly when it does not get a single table.  Tables that are moved are
not merged. -/
theorem LoserTree.inBounds_iff (picked : pickCompaction levels level = some info) :
    (info.Moves ∨ ∃ out, LoserTree.visit (fun e => e.key.encode) info.inputs = some out) ↔
      ¬ PicksAlone levels level :=
  ⟨not_picksAlone_of_inBounds picked, inBounds_of_not_picksAlone picked⟩

/-- Two tables in level 0. -/
theorem LoserTree.inBounds_two_tables :
    let table (n : ℕ) : SSTFile VLogEntryInfo :=
      ⟨n, .ofWrite [1] n .kTypeValue, .ofWrite [1] n .kTypeValue, 0,
        [⟨.ofWrite [1] n .kTypeValue, .zero⟩]⟩
    ∃ info, pickCompaction [[table 0, table 1]] 0 = some info ∧
      (info.Moves ∨ ∃ out, LoserTree.visit (fun e => e.key.encode) info.inputs = some out) := by
  intro table
  obtain ⟨info, hpick⟩ : ∃ info, pickCompaction [[table 0, table 1]] 0 = some info := ⟨_, rfl⟩
  refine ⟨info, hpick, (LoserTree.inBounds_iff hpick).mpr ?_⟩
  rintro ⟨-, f, htake, -⟩
  have htwo : ((levelAt [[table 0, table 1]] 0).take (pickSSTFileNum [[table 0, table 1]] 0)).length
      = 2 := rfl
  simp [htake] at htwo

end Inputs

/-! ## A hundred and one tables in level 2 -/

/-- The keys that are allowed in each level: one in level 2, and two around it above. -/
def Straddling (low key high : Bytes) (i : ℕ) (u : Bytes) : Prop :=
  (i < 2 ∧ (u = low ∨ u = high)) ∨ (i = 2 ∧ u = key)

section Straddled

variable {crc32c : Bytes → ℕ} {low key high : Bytes} {m : Machine}

theorem straddling_down (u : Bytes) (h : Straddling low key high 0 u) : Straddling low key high 1 u := by
  rcases h with ⟨-, hu⟩ | ⟨hzero, -⟩
  · exact .inl ⟨by decide, hu⟩
  · exact absurd hzero (by decide)

/-- Twelve tables in level 1 on both sides of the ninety-six in level 2, and a full level 0. -/
theorem Machine.Tower.straddled_full (crc32c : Bytes → ℕ) (longLow : IsLong low) (long : IsLong key)
    (longHigh : IsLong high) :
    ∃ m, Tower crc32c (Straddling low key high) (tiers kL0CompactionTrigger 12 96 0) m ∧
      m.history = List.replicate 96 (longWrite key) ++ List.replicate 8 (longWrite low) ++
        List.replicate 4 (longWrite high) ++ List.replicate 4 (longWrite high) := by
  obtain ⟨m₀, h₀, hhist₀⟩ := (Tower.new crc32c fun _ u => u = key).groups 6 long rfl
    fun _ _ _ hu => hu
  have hstart : Tower crc32c (Straddling low key high) (tiers 0 0 96 0) m₀ := by
    refine h₀.relax fun i u hne hu => ?_
    match i with
    | 2 => exact .inr ⟨rfl, hu⟩
    | 0 | 1 | 3 | _ + 4 => exact absurd rfl hne
  obtain ⟨m₁, h₁, hhist₁⟩ := hstart.rounds 2 longLow (.inl ⟨by decide, .inl rfl⟩) straddling_down
  have hhigh : Straddling low key high 0 high := .inl ⟨by decide, .inr rfl⟩
  obtain ⟨m₂, h₂, hhist₂⟩ := h₁.rounds 1 longHigh hhigh straddling_down
  obtain ⟨m₃, h₃, hhist₃⟩ := h₂.fill (n := kL0CompactionTrigger) le_rfl longHigh hhigh
  rw [hhist₂, hhist₁, hhist₀] at hhist₃
  exact ⟨m₃, h₃, hhist₃⟩

/-- Sixteen tables in level 1 on both sides of the ninety-six in level 2. -/
theorem Machine.Tower.straddled (crc32c : Bytes → ℕ) (longLow : IsLong low) (long : IsLong key)
    (longHigh : IsLong high) :
    ∃ m, Tower crc32c (Straddling low key high) (tiers 0 16 96 0) m ∧ m.history.length = 112 ∧
      longWrite low ∈ m.history ∧ longWrite high ∈ m.history := by
  obtain ⟨m, h, hhist⟩ := straddled_full crc32c longLow long longHigh
  obtain ⟨s, -, h', -⟩ := h.compact0 straddling_down
  refine ⟨_, h', ?_, ?_, ?_⟩
  · simp only [hhist, List.length_append, List.length_replicate]
  · simp [hhist]
  · simp [hhist]

namespace Machine.Tower

/-- What was written around the key of level 2 is in level 1. -/
theorem mem_level1 (h : Tower crc32c (Straddling low key high) (tiers 0 16 96 0) m) {u : Bytes}
    (other : u ≠ key) (written : longWrite u ∈ m.history) :
    ∃ f ∈ levelAt m.store.levels 1, f.smallest.userKey = u ∧ f.largest.userKey = u := by
  obtain ⟨i, f, hf, e, he, rfl⟩ := h.mem_level written
  obtain ⟨d, hd, hsmall, hlarge, -, -, hallowed⟩ := h.points i f hf
  rw [hd, List.mem_singleton] at he
  subst he
  have hsize : i ≠ 0 := by
    rintro rfl
    rw [List.length_eq_zero_iff.mp (h.size 0)] at hf
    exact absurd hf List.not_mem_nil
  obtain rfl : i = 1 := by
    rcases hallowed with ⟨hi, -⟩ | ⟨-, hkey⟩
    · omega
    · exact absurd hkey other
  exact ⟨f, hf, by rw [hsmall], by rw [hlarge]⟩

/-- All of level 2 lies between the tables of level 1. -/
theorem overlapFiles_eq (h : Tower crc32c (Straddling low key high) (tiers 0 16 96 0) m)
    (below : low < key) (above : key < high) (writtenLow : longWrite low ∈ m.history)
    (writtenHigh : longWrite high ∈ m.history) {info : CompactInfo VLogEntryInfo}
    (picked : pickCompaction m.store.levels 1 = some info)
    (all : info.oldFiles = levelAt m.store.levels 1) :
    info.overlapFiles = levelAt m.store.levels 2 := by
  obtain ⟨-, -, -, hcovers, hover⟩ := pickCompaction_cases picked
  rw [hover, List.filter_eq_self]
  intro g hg
  obtain ⟨f, hf, hlow, -⟩ := h.mem_level1 below.ne writtenLow
  obtain ⟨f', hf', -, hhigh⟩ := h.mem_level1 above.ne' writtenHigh
  obtain ⟨e, -, hsmall, hlarge, -, -, ⟨htwo, -⟩ | ⟨-, hkey⟩⟩ := h.points 2 g hg
  · exact absurd htwo (lt_irrefl 2)
  · have hleft : info.smallestKey < e.key :=
      lt_of_le_of_lt (hcovers f (all ▸ hf)).1
        (InternalKey.lt_of_userKey_lt (by rw [hlow, hkey]; exact below))
    have hright : e.key < info.largestKey :=
      lt_of_lt_of_le (InternalKey.lt_of_userKey_lt (by rw [hhigh, hkey]; exact above))
        (hcovers f' (all ▸ hf')).2
    simp only [SSTFile.inRange, hsmall, hlarge, decide_eq_true_eq, max_le_iff, le_min_iff]
    exact ⟨⟨le_rfl, hleft.le⟩, hright.le, (hleft.trans hright).le⟩

/-- **The tables hold one entry for each write**, so the sequence numbers in them are those that
were given. -/
theorem seq_perm (h : Tower crc32c (Straddling low key high) (tiers 0 16 96 0) m)
    (written : m.history.length = 112) :
    (((levelAt m.store.levels 1 ++ levelAt m.store.levels 2).map (·.entries)).flatten.map
      fun e => e.key.seq).Perm (List.range 112) := by
  have hlong : LongTables (levelAt m.store.levels 1 ++ levelAt m.store.levels 2) := by
    intro f hf
    rcases List.mem_append.mp hf with hf | hf
    · obtain ⟨e, he, -, -, -, hlong, -⟩ := h.points 1 f hf
      exact ⟨e, he, hlong⟩
    · obtain ⟨e, he, -, -, -, hlong, -⟩ := h.points 2 f hf
      exact ⟨e, he, hlong⟩
  have hlen : (((levelAt m.store.levels 1 ++ levelAt m.store.levels 2).map (·.entries)).flatten.map
      fun e => e.key.seq).length = 112 := by
    have hone : (levelAt m.store.levels 1).length = 16 := h.size 1
    have htwo : (levelAt m.store.levels 2).length = 96 := h.size 2
    rw [List.length_map, hlong.length_flatten, List.length_append, hone, htwo]
  have hsub : List.range 112 ⊆ (((levelAt m.store.levels 1 ++ levelAt m.store.levels 2).map
      (·.entries)).flatten.map fun e => e.key.seq) := by
    intro n hn
    rw [List.mem_range, ← written] at hn
    obtain ⟨e, he, hkey⟩ := (accounted_of_reachable h.reached).complete n _
      (List.getElem?_eq_getElem hn) (by simp [h.live])
    refine List.mem_map.mpr ⟨e, List.mem_flatten.mpr ?_, by rw [hkey, InternalKey.seq_ofWrite]⟩
    rcases he with he | ⟨imm, himm, -⟩ | ⟨i, f, hf, he⟩
    · rw [h.resting.mem] at he
      exact absurd he List.not_mem_nil
    · simp [h.resting.imm] at himm
    · have hempty : tiers 0 16 96 0 i ≠ 0 := fun hzero => by
        rw [List.length_eq_zero_iff.mp ((h.size i).trans hzero)] at hf
        exact absurd hf List.not_mem_nil
      refine ⟨f.entries, List.mem_map_of_mem (List.mem_append.mpr ?_), he⟩
      match i with
      | 1 => exact .inl hf
      | 2 => exact .inr hf
      | 0 | 3 | _ + 4 => exact absurd rfl hempty
  exact ((List.subperm_of_subset List.nodup_range hsub).perm_of_length_le
    (by rw [hlen, List.length_range])).symm

end Machine.Tower

end Straddled

/-- **Expiry leaves a hundred and one tables**: the first eleven writes expire, and level 1 is merged
into level 2. -/
theorem Machine.Tower.hundred_one {crc32c : Bytes → ℕ} {low key high : Bytes} {m : Machine}
    (h : Tower crc32c (Straddling low key high) (tiers 0 16 96 0) m) (count : m.history.length = 112)
    (writtenLow : longWrite low ∈ m.history) (writtenHigh : longWrite high ∈ m.history)
    (below : low < key) (above : key < high) :
    ∃ info s, Machine.Reachable crc32c Machine.Regular
        { m with store := { m.store with lastLivingSequence := 11 } } ∧
      pickCompaction m.store.levels 1 = some info ∧
      Store.compactLevel crc32c { m.store with lastLivingSequence := 11 } 1 = .ok s ∧
      (levelAt s.levels 2).length = 101 ∧ levelAt s.levels 3 = [] := by
  have hlast : m.store.lastSequence = 112 :=
    (accounted_of_reachable h.reached).length.trans count
  let m₁ : Machine := { m with store := { m.store with lastLivingSequence := 11 } }
  have hexpire : Machine.Step crc32c m (.expireAt 10) m₁ := by
    refine .expireAt ?_
    simp only [Store.expireAt, hlast, h.live]
    rfl
  have hreached : Machine.Reachable crc32c Machine.Regular m₁ :=
    h.reached.step (a := .expireAt 10) ⟨trivial, trivial⟩ hexpire
  -- Level 1 is compacted.
  have hone : (levelAt m.store.levels 1).length = 16 := h.size 1
  have htwo : (levelAt m.store.levels 2).length = 96 := h.size 2
  obtain ⟨info, hpicked, hlevel, hold⟩ :=
    h.picked (i := 1) (.inr ⟨le_rfl, by decide, by decide⟩)
  have hover := h.overlapFiles_eq below above writtenLow writtenHigh hpicked hold
  have hinputs : 2 ≤ info.inputs.length := by
    rw [CompactInfo.inputs, List.length_map, List.length_append, hold, hone]
    exact Nat.le_add_right_of_le (by decide)
  obtain ⟨r, new, p, hcomp, hlevels, hok⟩ :=
    Machine.compactLevel_isOk (m := m₁) (fun _ _ hm => hm.2.sized) hreached hpicked hinputs
  have hmerges : ¬ info.Moves := by
    rintro ⟨-, -, hnone⟩
    rw [hover] at hnone
    simp [hnone] at htwo
  have hlong : LongTables (info.oldFiles ++ info.overlapFiles) := by
    intro f hf
    rcases p.mem_input hf with hf | hf
    · obtain ⟨e, he, -, -, -, hlong, -⟩ := h.points _ f hf
      exact ⟨e, he, hlong⟩
    · obtain ⟨e, he, -, -, -, hlong, -⟩ := h.points _ f hf
      exact ⟨e, he, hlong⟩
  have hnew : new.length = 101 := by
    have hperm := h.seq_perm count
    rw [← hold, ← hover] at hperm
    rw [(length_merged_live hcomp p.old_ne hmerges hlong).1]
    calc (info.inputs.flatten.filter fun e => decide (11 ≤ e.key.seq)).length
        = ((info.inputs.flatten.map fun e => e.key.seq).filter fun n => decide (11 ≤ n)).length := by
          rw [List.filter_map, List.length_map]
          rfl
      _ = ((List.range 112).filter fun n => decide (11 ≤ n)).length := (hperm.filter _).length_eq
      _ = 101 := by decide
  refine ⟨info, _, hreached, hpicked, hok, ?_, ?_⟩
  · have hascending := h.numbered.ascending 2
    have hgone := length_removeFiles hascending (List.Sublist.refl (levelAt m.store.levels 2))
    have hfresh : ∀ f ∈ new, ∀ g ∈ removeFiles info.overlapFiles
        (levelAt m.store.levels (info.level + 1)), f.fileNumber ≠ g.fileNumber :=
      fun f hf g hg => p.fresh hcomp hf (mem_removeFiles.mp hg).1
    have hsum := length_addFiles ((p.numbers hcomp).2.1.imp fun hlt => hlt.ne) hfresh
    show (levelAt (m₁.store.compacted r).levels 2).length = 101
    rw [hlevels, levelAt_replaceFiles, if_pos (by rw [hlevel]), hsum, hnew, hover, hlevel]
    show 101 + (removeFiles (levelAt m.store.levels 2) (levelAt m.store.levels 2)).length = 101
    omega
  · show levelAt (m₁.store.compacted r).levels 3 = []
    rw [hlevels, levelAt_replaceFiles, if_neg (by omega), if_neg (by omega)]
    exact List.length_eq_zero_iff.mp (h.size 3)

/-- A run comes to a hundred and one tables in level 2, with none below. -/
theorem exists_hundred_one (crc32c : Bytes → ℕ) {low key high : Bytes} (longLow : IsLong low)
    (long : IsLong key) (longHigh : IsLong high) (below : low < key) (above : key < high) :
    ∃ m, Machine.Reachable crc32c Machine.Regular m ∧
      (levelAt m.store.levels 2).length = 101 ∧ levelAt m.store.levels 3 = [] := by
  obtain ⟨m, h, hcount, hlow, hhigh⟩ :=
    Machine.Tower.straddled crc32c longLow long longHigh
  obtain ⟨info, s, hreached, -, hok, htwo, hthree⟩ := h.hundred_one hcount hlow hhigh below above
  have hstep : Machine.Step crc32c { m with store := { m.store with lastLivingSequence := 11 } }
      (.compact 1) { m with store := s } := .compact h.resting.idle hok
  exact ⟨_, hreached.step (a := .compact 1)
    ⟨fun hzero => absurd hzero (by decide), hreached.fitting_compact h.short 1⟩ hstep, htwo, hthree⟩

/-- **The loser tree that reads past its arrays**: a hundred and one tables in level 2, none below,
and the compaction of level 2. -/
theorem LoserTree.create_out_of_bounds :
    ∃ m info, Machine.Reachable crc32cCastagnoli Machine.Regular m ∧
      pickCompaction m.store.levels 2 = some info ∧ ¬ info.Moves ∧
      LoserTree.create (fun e => e.key.encode) info.inputs = none ∧
      m.store.compactLevel crc32cCastagnoli 2 = .fault := by
  obtain ⟨m, hreached, htwo, hthree⟩ := exists_hundred_one crc32cCastagnoli (isLong_cons_longKey 0) (isLong_cons_longKey 1)
    (isLong_cons_longKey 2) (List.cons_lt_cons_iff.mpr (.inl (by decide)))
    (List.cons_lt_cons_iff.mpr (.inl (by decide)))
  have hnum : pickSSTFileNum m.store.levels 2 = 1 :=
    pickSSTFileNum_of_ge (d := 1) (by decide) htwo
  obtain ⟨f, fs, hcons⟩ := List.exists_cons_of_length_pos
    (show 0 < (levelAt m.store.levels 2).length by rw [htwo]; exact Nat.succ_pos 100)
  have hpicked : pickCompaction m.store.levels 2
      = some ⟨2, [f], [], f.smallest, f.largest⟩ := by
    simp [pickCompaction, hnum, hcons, pickOverlappingFiles, hthree]
  refine ⟨m, _, hreached, hpicked, fun hmoves => absurd hmoves.2.1 (lt_irrefl 3),
    create_singleton _, ?_⟩
  simp [Store.compactLevel, hpicked, doCompactionWork, CompactInfo.rmVlogFiles, kCompactionVLogLevel,
    buildWhenCompaction, CompactInfo.inputs, LoserTree.visit, create_singleton]

end Lsmkv
