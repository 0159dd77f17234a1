import Lsmkv.VersionOrder

/-!
# How many tables a level holds

`CompactSSTFile(0, true)` (`src/kvstore.cc`) works its way down the levels: as long as
`PickCompaction` picks something, `DoCompactionWork` puts it into the next level, and the next
level is looked at.  Level `i` is meant to hold fewer than `10 ^ i` tables afterwards.

How many tables are picked is up to `PickSSTFileNum` (`src/include/levelcache.h`), and its
`num - size + 2` has the sign of the difference wrong: with one table over the limit one table is
picked, with two tables none, and with more the number wraps around and all tables are.  So a
level is brought back below its limit except from two sizes (`SizeFits`); `belowLimits_iff` says
so for whole runs, and `exists_over_limit` has a run that leaves twelve tables in level 1.
-/

namespace Lsmkv

open ByteCode Files

/-- The number of tables of a level. -/
def Store.levelSize (s : Store) (i : ℕ) : ℕ := (levelAt s.levels i).length

/-- **`CompactSSTFile(level, true)` that returns `OK`.**  In each of its rounds the level and the
store meet a condition. -/
inductive CompactSSTFile (crc32c : Bytes → ℕ) (cond : ℕ → Store → Prop) : ℕ → Store → Store → Prop
  | stops {level : ℕ} {s : Store} (meets : cond level s)
      (none : pickCompaction s.levels level = none) : CompactSSTFile crc32c cond level s s
  | goesOn {level : ℕ} {s s₁ s' : Store} {info : CompactInfo VLogEntryInfo} (meets : cond level s)
      (picked : pickCompaction s.levels level = some info)
      (work : s.compactLevel crc32c level = .ok s₁)
      (rest : CompactSSTFile crc32c cond (level + 1) s₁ s') : CompactSSTFile crc32c cond level s s'

/-- **Every level is below its limit.** -/
def Store.BelowLimits (s : Store) : Prop := ∀ i, 1 ≤ i → s.levelSize i < 10 ^ i

/-- **A size from which a level is brought back below its limit.** -/
def SizeFits (i n : ℕ) : Prop := n ≤ 10 ^ i ∨ (10 ^ i + 3 ≤ n ∧ n ≤ 2 ^ 31 + 10 ^ i)

/-- The condition on a round, from level 1 on. -/
def RoundFits (i : ℕ) (s : Store) : Prop := 1 ≤ i → SizeFits i (s.levelSize i)

/-- **What `PickSSTFileNum` is for**: it returns a number between 1 and the number of tables, with
the value that its expression has without wrapping around, and with so many tables less the level
is below its limit. -/
structure PicksBack (levels : List (Level VLogEntryInfo)) (i : ℕ) : Prop where
  pos : 1 ≤ pickSSTFileNum levels i
  le : pickSSTFileNum levels i ≤ (levelAt levels i).length
  unwrapped : pickSSTFileNum levels i + (levelAt levels i).length = 10 ^ i + 2
  back : (levelAt levels i).length - pickSSTFileNum levels i < 10 ^ i

/-! ## Arithmetic of the pick -/

section Pick

variable {levels : List (Level VLogEntryInfo)} {i : ℕ}

theorem ten_le_pow (h : 1 ≤ i) : 10 ≤ 10 ^ i := by
  calc 10 = 10 ^ 1 := rfl
    _ ≤ 10 ^ i := Nat.pow_le_pow_right (by decide) h

theorem pickSSTFileNum_of_lt (h : 1 ≤ i) (small : (levelAt levels i).length < 10 ^ i) :
    pickSSTFileNum levels i = 0 := by
  rw [pickSSTFileNum, if_neg (by omega)]
  exact if_pos small

theorem pickSSTFileNum_of_ge (h : 1 ≤ i) {d : ℕ} (large : (levelAt levels i).length = 10 ^ i + d) :
    pickSSTFileNum levels i = (2 ^ 64 + 2 - d) % 2 ^ 32 := by
  have hnot : ¬ (levelAt levels i).length < 10 ^ i := by omega
  have hsub : 2 ^ 64 + 10 ^ i + 2 - (levelAt levels i).length = 2 ^ 64 + 2 - d := by omega
  rw [pickSSTFileNum, if_neg (by omega)]
  show (if (levelAt levels i).length < 10 ^ i then 0 else
    (2 ^ 64 + 10 ^ i + 2 - (levelAt levels i).length) % 2 ^ 32) = _
  rw [if_neg hnot, hsub]

/-- **What the pick leaves** is below the limit, exactly from the sizes that fit. -/
theorem left_lt_iff (h : 1 ≤ i) :
    (levelAt levels i).length - pickSSTFileNum levels i < 10 ^ i ↔
      SizeFits i (levelAt levels i).length := by
  have hten := ten_le_pow h
  unfold SizeFits
  rcases Nat.lt_or_ge (levelAt levels i).length (10 ^ i) with hlt | hge
  · rw [pickSSTFileNum_of_lt h hlt]
    omega
  · obtain ⟨d, hd⟩ := Nat.exists_eq_add_of_le hge
    rw [pickSSTFileNum_of_ge h hd, hd]
    omega

/-- `PickSSTFileNum` does what it is for at the limit only. -/
theorem picksBack_iff (h : 1 ≤ i) (full : 10 ^ i ≤ (levelAt levels i).length) :
    PicksBack levels i ↔ (levelAt levels i).length = 10 ^ i := by
  have hten := ten_le_pow h
  obtain ⟨d, hd⟩ := Nat.exists_eq_add_of_le full
  have hpick := pickSSTFileNum_of_ge h hd
  constructor
  · rintro ⟨hpos, hle, hunwrapped, hback⟩
    omega
  · intro hat
    obtain rfl : d = 0 := by omega
    refine ⟨?_, ?_, ?_, ?_⟩ <;> omega

end Pick

/-! ## What a round does to the sizes -/

section Rounds

variable {crc32c : Bytes → ℕ} {cond : ℕ → Store → Prop} {s s₁ s' : Store} {level : ℕ}
  {info : CompactInfo VLogEntryInfo}

/-- The tables that are taken out of a level are taken out once. -/
theorem length_removeFiles {β : Type} {files l : List (SSTFile β)}
    (ascending : l.Pairwise fun f g => f.fileNumber < g.fileNumber) (sub : files.Sublist l) :
    (removeFiles files l).length + files.length = l.length := by
  have hnodup : l.Nodup := ascending.imp fun hlt heq => by simp [heq] at hlt
  have hperm : (files ++ removeFiles files l).Perm l := by
    have hmem : ∀ g, g ∈ removeFiles files l ↔ g ∈ l ∧ g ∉ files :=
      fun g => mem_removeFiles_of_mem ascending sub.subset
    refine (List.perm_ext_iff_of_nodup ?_ hnodup).mpr fun g => ?_
    · refine List.nodup_append.mpr ⟨hnodup.sublist sub, hnodup.sublist List.filter_sublist, ?_⟩
      rintro f hf g hg rfl
      exact ((hmem f).mp hg).2 hf
    · rw [List.mem_append, hmem]
      constructor
      · rintro (hg | hg)
        · exact sub.subset hg
        · exact hg.1
      · intro hg
        by_cases hin : g ∈ files
        · exact .inl hin
        · exact .inr ⟨hg, hin⟩
  have hlen := hperm.length_eq
  rw [List.length_append] at hlen
  omega

/-- Tables with new numbers are all added. -/
theorem length_addFiles {β : Type} {files : List (SSTFile β)} {l : Level β}
    (distinct : files.Pairwise fun f g => f.fileNumber ≠ g.fileNumber)
    (fresh : ∀ f ∈ files, ∀ g ∈ l, f.fileNumber ≠ g.fileNumber) :
    (addFiles files l).length = files.length + l.length := by
  have hemplace : ∀ {f : SSTFile β} {l : Level β}, (∀ g ∈ l, f.fileNumber ≠ g.fileNumber) →
      (emplace f l).length = l.length + 1 := by
    intro f l hfresh
    induction l with
    | nil => rfl
    | cons g l ih =>
        rw [emplace, if_neg (hfresh g List.mem_cons_self)]
        split
        · rfl
        · rw [List.length_cons, ih fun k hk => hfresh k (List.mem_cons_of_mem _ hk),
            List.length_cons]
  induction files generalizing l with
  | nil => rw [addFiles, List.foldl_nil, List.length_nil, Nat.zero_add]
  | cons f files ih =>
      obtain ⟨hf, hfiles⟩ := List.pairwise_cons.mp distinct
      have hstep : addFiles (f :: files) l = addFiles files (emplace f l) := rfl
      rw [hstep, ih hfiles, hemplace (fresh f List.mem_cons_self), List.length_cons]
      · omega
      · intro k hk g hg
        rcases of_mem_emplace hg with rfl | hg
        · exact (hf k hk).symm
        · exact fresh k (List.mem_cons_of_mem _ hk) g hg

/-- A round, with what it picks. -/
theorem compactLevel_of_picked (picked : pickCompaction s.levels level = some info)
    (work : s.compactLevel crc32c level = .ok s₁) :
    ∃ r new, Compaction crc32c s.lastLivingSequence s.fileno
        ⟨s.lastVlogFileNo, s.vlogs, .new⟩ info r new ∧
      s₁ = s.compacted r ∧ r.levels = replaceFiles s.levels info new := by
  simp only [Store.compactLevel, picked] at work
  obtain ⟨r, hr, hok⟩ := Outcome.bind_eq_ok.mp work
  obtain ⟨new, hcomp, hlevels⟩ := doCompactionWork_cases hr
  exact ⟨r, new, hcomp, (Outcome.ok.inj hok).symm, hlevels⟩

/-- **A round takes the picked tables out of its level**, changes the next one, and leaves the
others alone. -/
theorem levelSize_of_round (numbered : Numbered s.levels s.fileno)
    (picked : pickCompaction s.levels level = some info)
    (work : s.compactLevel crc32c level = .ok s₁) :
    Numbered s₁.levels s₁.fileno ∧
      s₁.levelSize level = s.levelSize level - pickSSTFileNum s.levels level ∧
      ∀ i, i ≠ level → i ≠ level + 1 → s₁.levelSize i = s.levelSize i := by
  obtain ⟨hlevel, hold, -⟩ := pickCompaction_cases picked
  subst hlevel
  obtain ⟨r, new, hcomp, rfl, hlevels⟩ := compactLevel_of_picked picked work
  have p : Picked s.levels s.fileno info := ⟨numbered, picked⟩
  have hat : ∀ i, levelAt (s.compacted r).levels i = levelAt (replaceFiles s.levels info new) i := by
    intro i
    rw [← hlevels]
    rfl
  refine ⟨?_, ?_, fun i hne hnext => ?_⟩
  · have hnumbered := p.compacted hcomp
    rw [← hlevels] at hnumbered
    exact hnumbered
  · have hlen := length_removeFiles (numbered.ascending info.level)
      (List.take_sublist (pickSSTFileNum s.levels info.level) _)
    rw [List.length_take] at hlen
    unfold Store.levelSize
    rw [hat, levelAt_replaceFiles, if_neg (by omega), if_pos rfl, hold]
    omega
  · unfold Store.levelSize
    rw [hat, levelAt_replaceFiles, if_neg hnext, if_neg hne]

theorem CompactSSTFile.mono {cond' : ℕ → Store → Prop} (h : CompactSSTFile crc32c cond level s s')
    (imp : ∀ i s, cond i s → cond' i s) : CompactSSTFile crc32c cond' level s s' := by
  induction h with
  | stops meets none => exact .stops (imp _ _ meets) none
  | goesOn meets picked work _ ih => exact .goesOn (imp _ _ meets) picked work ih

/-- What is picked from a level that stops the recursion: nothing. -/
theorem left_of_none (none : pickCompaction s.levels level = none) :
    s.levelSize level - pickSSTFileNum s.levels level = s.levelSize level := by
  have htake : (levelAt s.levels level).take (pickSSTFileNum s.levels level) = [] := by
    simp only [pickCompaction] at none
    split at none
    · assumption
    · simp at none
  have hlen := congrArg List.length htake
  rw [List.length_take, List.length_nil] at hlen
  unfold Store.levelSize
  omega

/-- Later rounds leave the levels above alone. -/
theorem CompactSSTFile.levelSize_eq (h : CompactSSTFile crc32c cond level s s')
    (numbered : Numbered s.levels s.fileno) {i : ℕ} (above : i < level) :
    s'.levelSize i = s.levelSize i := by
  induction h with
  | stops => rfl
  | goesOn meets picked work rest ih =>
      obtain ⟨hnumbered, -, hsame⟩ := levelSize_of_round numbered picked work
      rw [ih hnumbered (by omega), hsame i (by omega) (by omega)]

/-- **A run from a level on**: it brings every level below its limit, exactly if every round finds
a size that fits. -/
theorem CompactSSTFile.below_iff (h : CompactSSTFile crc32c (fun _ _ => True) level s s')
    (numbered : Numbered s.levels s.fileno)
    (below : ∀ i, 1 ≤ i → level < i → s.levelSize i < 10 ^ i) :
    (∀ i, 1 ≤ i → level ≤ i → s'.levelSize i < 10 ^ i) ↔
      CompactSSTFile crc32c RoundFits level s s' := by
  induction h with
  -- the call ends here: the level keeps its size
  | @stops level s _ none =>
      have hleft := left_of_none none
      constructor
      · intro hall
        refine .stops (fun hone => ?_) none
        refine (left_lt_iff hone).mp ?_
        have := hall level hone le_rfl
        rw [← hleft] at this
        exact this
      · intro hfits i hone hle
        rcases Nat.lt_or_eq_of_le hle with hlt | rfl
        · exact below i hone hlt
        · have hmeets : RoundFits level s := by
            cases hfits with
            | stops meets => exact meets
            | goesOn meets => exact meets
          rw [← hleft]
          exact (left_lt_iff hone).mpr (hmeets hone)
  -- this round settles the level, and the call goes on with the next one
  | @goesOn level s s₁ s' info _ picked work rest ih =>
      obtain ⟨hnumbered, hleft, hsame⟩ := levelSize_of_round numbered picked work
      have hlast := rest.levelSize_eq hnumbered (Nat.lt_succ_self level)
      have hbelow : ∀ i, 1 ≤ i → level + 1 < i → s₁.levelSize i < 10 ^ i := by
        intro i hone hlt
        rw [hsame i (by omega) (by omega)]
        exact below i hone (by omega)
      have hiff : 1 ≤ level → (s'.levelSize level < 10 ^ level ↔ RoundFits level s) := by
        intro hone
        rw [hlast, hleft]
        exact (left_lt_iff hone).trans ⟨fun hfits _ => hfits, fun hfits => hfits hone⟩
      constructor
      · intro hall
        refine .goesOn (fun hone => ?_) picked work ((ih hnumbered hbelow).mp fun i hone hle => ?_)
        · exact (hiff hone).mp (hall level hone le_rfl) hone
        · exact hall i hone (by omega)
      · intro hfits i hone hle
        cases hfits with
        | stops _ none => simp [picked] at none
        | @goesOn _ _ s₂ _ _ meets picked' work' rest' =>
            obtain rfl : s₁ = s₂ := Outcome.ok.inj (work.symm.trans work')
            rcases Nat.lt_or_eq_of_le hle with hlt | rfl
            · exact (ih hnumbered hbelow).mpr rest' i hone hlt
            · exact (hiff hone).mpr meets

/-- **How many tables the levels hold behind `CompactSSTFile(0, true)`.**  In every reachable store
whose levels are below their limits, a call that returns `OK` leaves them below, exactly if every
round of it, from level 1 on, finds a size that fits.  And `PickSSTFileNum` gives, of a level at
its limit or over it, a number of tables to pick, without wrapping around, that brings the level
back, exactly if the level is at its limit. -/
theorem belowLimits_iff {cond : Machine → Action → Prop} {m : Machine}
    (reached : Machine.Reachable crc32c cond m)
    (returned : CompactSSTFile crc32c (fun _ _ => True) 0 m.store s')
    (before : m.store.BelowLimits) :
    (s'.BelowLimits ↔ CompactSSTFile crc32c RoundFits 0 m.store s') ∧
      ∀ (levels : List (Level VLogEntryInfo)) (i : ℕ), 1 ≤ i → 10 ^ i ≤ (levelAt levels i).length →
        (PicksBack levels i ↔ (levelAt levels i).length = 10 ^ i) := by
  refine ⟨?_, fun levels i hone hfull => picksBack_iff hone hfull⟩
  have hiff := returned.below_iff (seqOrdered_of_reachable reached).numbered
    fun i hone _ => before i hone
  exact ⟨fun hall => hiff.mp fun i hone _ => hall i hone,
    fun hfits i hone => hiff.mpr hfits i hone (Nat.zero_le i)⟩

end Rounds

/-! ## Twelve tables in level 1 -/

section Twelve

variable {crc32c : Bytes → ℕ}

/-- Tables with one entry each, whose key is as long as a table. -/
def LongTables (l : Level VLogEntryInfo) : Prop :=
  ∀ f ∈ l, ∃ e, f.entries = [e] ∧ sstFileSize ≤ e.key.userKey.length

/-- A store at rest with so many long tables in the first two levels, and nothing below. -/
structure Machine.Long (crc32c : Bytes → ℕ) (m : Machine) (top next : ℕ) : Prop where
  reached : Machine.Reachable crc32c Machine.Regular m
  resting : m.Resting
  live : m.store.lastLivingSequence = 0
  short : ∀ w ∈ m.history, w.key.length ≤ keptKeyLength
  level0 : m.store.levelSize 0 = top
  level1 : m.store.levelSize 1 = next
  long : ∀ i, LongTables (levelAt m.store.levels i)
  deep : ∀ i, 2 ≤ i → levelAt m.store.levels i = []

/-- One more long table in level 0. -/
theorem Machine.Long.round {m : Machine} {top next : ℕ} (h : m.Long crc32c top next)
    (room : top < kL0CompactionTrigger) {key value : Bytes} (long : sstFileSize ≤ key.length)
    (short : key.length ≤ keptKeyLength) (fits : Write.Fits ⟨key, .kTypeValue, value⟩) :
    ∃ m', Machine.Long crc32c m' (top + 1) next := by
  have hfills : Machine.Fills ⟨key, .kTypeValue, value⟩ := .of_long long short fits
  have hzero : (levelAt m.store.levels 0).length = top := h.level0
  obtain ⟨m', info, hrun, hrest, hhist, -, hlive, -, -, hlevels⟩ := h.resting.round crc32c
    (vlogsOwned_of_reachable h.reached) (seqOrdered_of_reachable h.reached).numbered
    (by rwa [hzero]) hfills
  have hother : ∀ i, 1 ≤ i → levelAt m'.store.levels i = levelAt m.store.levels i := by
    intro i hi
    rw [hlevels, levelAt_setLevel, if_neg (by omega)]
  refine ⟨m', h.reached.run (hrun.mono fun _ _ hm => hm.1), hrest, hlive.trans h.live,
    fun w hw => ?_, ?_, ?_, fun i => ?_, fun i hi => ?_⟩
  · rw [hhist, List.mem_append, List.mem_singleton] at hw
    rcases hw with hw | rfl
    · exact h.short w hw
    · exact short
  · rw [Store.levelSize, hlevels, levelAt_setLevel, if_pos rfl, List.length_append, hzero,
      List.length_singleton]
  · rw [Store.levelSize, hother 1 le_rfl]
    exact h.level1
  · rcases Nat.eq_zero_or_pos i with rfl | hi
    · rw [hlevels, levelAt_setLevel, if_pos rfl]
      intro f hf
      rcases List.mem_append.mp hf with hf | hf
      · exact h.long 0 f hf
      · rw [List.mem_singleton.mp hf]
        exact ⟨_, rfl, long⟩
    · rw [hother i hi]
      exact h.long i
  · rw [hother i (by omega)]
    exact h.deep i hi

/-- Lists of one element each have as many elements as there are lists. -/
theorem length_flatten_singles {α : Type} {l : List (List α)} (single : ∀ t ∈ l, t.length = 1) :
    l.flatten.length = l.length := by
  rw [List.length_flatten, List.map_congr_left single, List.map_const', List.sum_replicate,
    smul_eq_mul, Nat.mul_one]

theorem LongTables.length_flatten {l : Level VLogEntryInfo} (h : LongTables l) :
    (l.map (·.entries)).flatten.length = l.length := by
  rw [length_flatten_singles, List.length_map]
  intro t ht
  obtain ⟨f, hf, rfl⟩ := List.mem_map.mp ht
  obtain ⟨d, hd, -⟩ := h f hf
  rw [hd, List.length_singleton]

/-- **Long tables are merged into one long table for each entry that is alive.** -/
theorem length_merged_live {live fileno : ℕ} {w : VLogWork} {info : CompactInfo VLogEntryInfo}
    {r : CompactionResult} {new : List (SSTFile VLogEntryInfo)}
    (h : Compaction crc32c live fileno w info r new) (ne : info.oldFiles ≠ [])
    (merges : ¬ info.Moves) (long : LongTables (info.oldFiles ++ info.overlapFiles)) :
    new.length = (info.inputs.flatten.filter fun e => decide (live ≤ e.key.seq)).length ∧
      LongTables new := by
  cases h with
  | move moves => exact absurd moves merges
  | merge _ b built =>
      obtain ⟨-, visited, hvisit, hperm⟩ := visit_of_built ne built
      have hbig : ∀ e ∈ visited, sstFileSize ≤ e.key.userKey.length := by
        intro e he
        obtain ⟨t, ht, he⟩ := List.mem_flatten.mp (hperm.mem_iff.mp he)
        obtain ⟨f, hf, rfl⟩ := List.mem_map.mp ht
        obtain ⟨d, hd, hlong⟩ := long f hf
        rw [hd, List.mem_singleton] at he
        rwa [he]
      have hsingle := buildWhenCompaction_single hvisit (fun e he _ => hbig e he) built
      have hkeys := buildWhenCompaction_keys hvisit built
      refine ⟨?_, fun f hf => ?_⟩
      · have hnew := congrArg List.length hkeys
        rw [List.length_map, List.length_map, (hperm.filter _).length_eq, List.flatMap_def,
          length_flatten_singles, List.length_map] at hnew
        · exact hnew
        · intro t ht
          obtain ⟨f, hf, rfl⟩ := List.mem_map.mp ht
          exact hsingle f hf
      · obtain ⟨e, he⟩ := List.length_eq_one_iff.mp (hsingle f hf)
        refine ⟨e, he, ?_⟩
        have hmem : e.key ∈ (b.newFiles.flatMap (·.entries)).map Entry.key :=
          List.mem_map_of_mem (List.mem_flatMap.mpr ⟨f, hf, he ▸ List.mem_singleton_self e⟩)
        rw [hkeys] at hmem
        obtain ⟨d, hd, hkey⟩ := List.mem_map.mp hmem
        rw [← hkey]
        exact hbig d (List.mem_filter.mp hd).1

/-- Long tables are merged into as many long tables. -/
theorem length_merged {live fileno : ℕ} {w : VLogWork} {info : CompactInfo VLogEntryInfo}
    {r : CompactionResult} {new : List (SSTFile VLogEntryInfo)}
    (h : Compaction crc32c live fileno w info r new) (ne : info.oldFiles ≠ [])
    (merges : ¬ info.Moves) (unexpired : live = 0)
    (long : LongTables (info.oldFiles ++ info.overlapFiles)) :
    new.length = info.oldFiles.length + info.overlapFiles.length ∧ LongTables new := by
  obtain ⟨hcount, hlong⟩ := length_merged_live h ne merges long
  have hall : (info.inputs.flatten.filter fun e => decide (live ≤ e.key.seq))
      = info.inputs.flatten := by
    rw [unexpired]
    exact List.filter_eq_self.mpr fun e _ => by simp
  rw [hall, CompactInfo.inputs, long.length_flatten, List.length_append] at hcount
  exact ⟨hcount, hlong⟩

/-- **The compaction of a full level 0** moves its long tables to level 1. -/
theorem Machine.Long.compact {m : Machine} {next : ℕ}
    (h : m.Long crc32c kL0CompactionTrigger next) :
    ∃ m' info, pickCompaction m.store.levels 0 = some info ∧
      m.store.compactLevel crc32c 0 = .ok m'.store ∧
      Machine.Long crc32c m' 0 (next + kL0CompactionTrigger) := by
  have hnumbered := (seqOrdered_of_reachable h.reached).numbered
  have hzero : (levelAt m.store.levels 0).length = kL0CompactionTrigger := h.level0
  obtain ⟨info, r, new, p, hlevel, hold, hcomp, hlevels, hok⟩ :=
    Machine.compactLevel0_isOk crc32c hnumbered hzero.ge
  have hmerges : ¬ info.Moves := fun hmoves => hmoves.1 hlevel
  -- a long key fills a table by itself, so the merge makes as many tables as it takes
  have hlong : LongTables (info.oldFiles ++ info.overlapFiles) := by
    intro f hf
    rcases p.mem_input hf with hf | hf
    · exact h.long _ f hf
    · exact h.long _ f hf
  obtain ⟨hcount, hnew⟩ := length_merged hcomp p.old_ne hmerges h.live hlong
  have hover : info.overlapFiles.Sublist (levelAt m.store.levels 1) := by
    rw [(pickCompaction_cases p.picked).2.2.2.2, hlevel]
    exact List.filter_sublist
  have hlen := length_removeFiles (hnumbered.ascending 1) hover
  have hone : (levelAt m.store.levels 1).length = next := h.level1
  have hat : ∀ i, levelAt (m.store.compacted r).levels i =
      levelAt (replaceFiles m.store.levels info new) i := fun i => by rw [hlevels]
  have hascending := (p.compacted hcomp).ascending 1
  rw [levelAt_replaceFiles, if_pos (by rw [hlevel])] at hascending
  refine ⟨{ m with store := m.store.compacted r }, info, hlevel ▸ p.picked, hok,
    h.reached.step (a := .compact 0) ⟨fun _ => hzero.ge, h.reached.fitting_compact h.short 0⟩
      (.compact h.resting.idle hok),
    ⟨h.resting.mem, h.resting.imm, h.resting.idle⟩, h.live, h.short, ?_, ?_,
    fun i => ?_, fun i hi => ?_⟩
  · refine List.length_eq_zero_iff.mpr (List.eq_nil_iff_forall_not_mem.mpr fun f hf => ?_)
    rw [hat] at hf
    exact p.level0_empty hcomp hlevel f hf
  · have hfresh : ∀ f ∈ new, ∀ g ∈ removeFiles info.overlapFiles (levelAt m.store.levels 1),
        f.fileNumber ≠ g.fileNumber := by
      intro f hf g hg
      refine p.fresh hcomp hf ?_
      rw [hlevel]
      exact (mem_removeFiles.mp hg).1
    rw [Store.levelSize, hat, levelAt_replaceFiles, if_pos (by rw [hlevel]), hlevel,
      length_addFiles ((p.numbers hcomp).2.1.imp fun hlt => hlt.ne) hfresh, hcount, hold, hzero]
    omega
  · intro f hf
    rw [hat] at hf
    rcases (p.mem_level hcomp).mp hf with ⟨-, hf⟩ | ⟨hf, -⟩
    · exact hnew f hf
    · exact h.long i f hf
  · show levelAt (m.store.compacted r).levels i = []
    rw [hat, levelAt_replaceFiles, if_neg (by omega), if_neg (by omega)]
    exact h.deep i hi

/-- Four more long tables in level 0. -/
theorem Machine.Long.fill {m : Machine} {next : ℕ} (h : m.Long crc32c 0 next)
    (key value : Bytes) (long : sstFileSize ≤ key.length) (short : key.length ≤ keptKeyLength)
    (fits : Write.Fits ⟨key, .kTypeValue, value⟩) :
    ∃ m', Machine.Long crc32c m' kL0CompactionTrigger next := by
  have hfill : ∀ n ≤ kL0CompactionTrigger, ∃ m', Machine.Long crc32c m' n next := by
    intro n hn
    induction n with
    | zero => exact ⟨m, h⟩
    | succ n ih =>
        obtain ⟨m', hm'⟩ := ih (Nat.le_of_succ_le hn)
        exact hm'.round hn long short fits
  exact hfill _ le_rfl

/-- The rounds of `CompactSSTFile(0, true)` on a full level 0, when level 1 picks nothing then. -/
theorem Machine.Long.compacts {m : Machine} {next : ℕ}
    (h : m.Long crc32c kL0CompactionTrigger next) (cond : ℕ → Store → Prop)
    (none : ∀ levels : List (Level VLogEntryInfo), (levelAt levels 1).length
      = next + kL0CompactionTrigger → pickSSTFileNum levels 1 = 0)
    (meets : ∀ s : Store, cond 0 s)
    (meets' : ∀ s : Store, s.levelSize 1 = next + kL0CompactionTrigger → cond 1 s) :
    ∃ m', Machine.Long crc32c m' 0 (next + kL0CompactionTrigger) ∧
      CompactSSTFile crc32c cond 0 m.store m'.store := by
  obtain ⟨m', info, hpick, hok, hlong⟩ := h.compact
  refine ⟨m', hlong, .goesOn (meets _) hpick hok (.stops (meets' _ hlong.level1) ?_)⟩
  rw [pickCompaction, none _ hlong.level1, List.take_zero]

/-- Level 1 with four or eight tables picks nothing, and with twelve neither. -/
theorem pickSSTFileNum_one {levels : List (Level VLogEntryInfo)}
    (size : (levelAt levels 1).length = 4 ∨ (levelAt levels 1).length = 8 ∨
      (levelAt levels 1).length = 12) : pickSSTFileNum levels 1 = 0 := by
  rcases size with size | size | size
  · exact pickSSTFileNum_of_lt le_rfl (by rw [size]; decide)
  · exact pickSSTFileNum_of_lt le_rfl (by rw [size]; decide)
  · exact pickSSTFileNum_of_ge (d := 2) le_rfl (by rw [size]; decide)

variable (crc32c) in
theorem Machine.long_new : Machine.Long crc32c .new 0 0 where
  reached := .new
  resting := ⟨rfl, rfl, rfl⟩
  live := rfl
  short := fun w hw => by simp [Machine.new] at hw
  level0 := rfl
  level1 := rfl
  long := fun i f hf => by simp [Machine.new] at hf
  deep := fun i _ => Store.levelAt_new i

variable (crc32c) in
/-- Eight long tables in level 1, and four in level 0. -/
theorem exists_long_eight (key value : Bytes) (long : sstFileSize ≤ key.length)
    (short : key.length ≤ keptKeyLength) (fits : Write.Fits ⟨key, .kTypeValue, value⟩) :
    ∃ m, Machine.Long crc32c m kL0CompactionTrigger 8 := by
  obtain ⟨m₁, h₁⟩ := (Machine.long_new crc32c).fill key value long short fits
  obtain ⟨m₂, -, -, -, h₂⟩ := h₁.compact
  obtain ⟨m₃, h₃⟩ := h₂.fill key value long short fits
  obtain ⟨m₄, -, -, -, h₄⟩ := h₃.compact
  exact h₄.fill key value long short fits

theorem Machine.Long.belowLimits {m : Machine} {top next : ℕ} (h : m.Long crc32c top next)
    (below : next < 10) : m.store.BelowLimits := by
  intro i hone
  rcases Nat.lt_or_eq_of_le hone with hlt | rfl
  · rw [Store.levelSize, h.deep i hlt, List.length_nil]
    exact Nat.pow_pos (by decide)
  · rw [h.level1, Nat.pow_one]
    exact below

/-- A key as long as a table. -/
def longKey : Bytes := List.replicate 32768 1

theorem length_longKey : longKey.length = 32768 := List.length_replicate

theorem short_longKey : longKey.length ≤ keptKeyLength := by
  rw [length_longKey]
  decide

theorem fits_longKey : Write.Fits ⟨longKey, .kTypeValue, [9]⟩ := by
  rw [Write.Fits, length_longKey]
  decide

/-- The first compaction of four long tables leaves the levels below their limits. -/
theorem belowLimits_four_tables :
    ∃ (m : Machine) (s' : Store), Machine.Reachable crc32cCastagnoli Machine.Regular m ∧
      m.store.BelowLimits ∧ s'.levelSize 1 = 4 ∧ s'.BelowLimits := by
  obtain ⟨m, h⟩ := (Machine.long_new crc32cCastagnoli).fill longKey [9] length_longKey.ge
    short_longKey fits_longKey
  obtain ⟨m', hlong, hfits⟩ := h.compacts RoundFits (fun _ hsize => pickSSTFileNum_one (.inl hsize))
    (fun _ hone => absurd hone (by decide)) fun s hsize _ => .inl (by rw [hsize]; decide)
  have hreturned : CompactSSTFile crc32cCastagnoli (fun _ _ => True) 0 m.store m'.store :=
    hfits.mono fun _ _ _ => trivial
  have hbefore : m.store.BelowLimits := h.belowLimits (by decide)
  exact ⟨m, m'.store, h.reached, hbefore, hlong.level1,
    (belowLimits_iff h.reached hreturned hbefore).1.mpr hfits⟩

/-- **Twelve tables in level 1**: three times four tables that nothing merges are compacted, and
the third compaction returns `OK` and leaves level 1 over its limit. -/
theorem exists_over_limit :
    ∃ (m : Machine) (s' : Store), Machine.Reachable crc32cCastagnoli Machine.Regular m ∧
      m.store.BelowLimits ∧ CompactSSTFile crc32cCastagnoli (fun _ _ => True) 0 m.store s' ∧
      s'.levelSize 1 = 12 ∧ ¬ s'.BelowLimits ∧ pickSSTFileNum s'.levels 1 = 0 := by
  obtain ⟨m, h⟩ := exists_long_eight crc32cCastagnoli longKey [9] length_longKey.ge
    short_longKey fits_longKey
  have hnone : ∀ levels : List (Level VLogEntryInfo),
      (levelAt levels 1).length = 8 + kL0CompactionTrigger → pickSSTFileNum levels 1 = 0 :=
    fun levels hsize => pickSSTFileNum_one (.inr (.inr hsize))
  obtain ⟨m', hlong, hreturned⟩ := h.compacts (fun _ _ => True) hnone (fun _ => trivial)
    fun _ _ => trivial
  refine ⟨m, m'.store, h.reached, h.belowLimits (by decide), hreturned, hlong.level1,
    fun hbelow => ?_, hnone _ hlong.level1⟩
  have hlimit := hbelow 1 le_rfl
  rw [hlong.level1] at hlimit
  exact absurd hlimit (by decide)

end Twelve

end Lsmkv
