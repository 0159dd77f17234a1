import Lsmkv.LevelCache

/-!
# The order of versions in the levels

From level 1 on, `LevelCache::get` and `LevelCache::scan` read the tables of a level by
ascending number and the levels from top to bottom, and stop at the first version of a
user key they meet.  That is right as long as of two tables that share a user key the one
read first holds the newer version (`LevelOrdered` in a level, `CrossOrdered` between
levels).

A compaction moves versions to the next level and to higher numbers.  It keeps the order
when it does not separate the versions of a user key: the three conditions of
`KeysTogether`, one for the tables that stay in the level and two for the tables that stay
in the next one.  Neither `PickCompaction` nor `PickOverlappingFiles` looks at user keys,
so none of the three is guaranteed; `overlapFiles_complete_iff` and `pickCompaction_cut_iff`
say exactly when they hold.
-/

namespace Lsmkv

open ByteCode Files

variable {β : Type}

/-! ## Versions in tables -/

/-- No user key occurs in both tables. -/
def SSTFile.Apart (f g : SSTFile β) : Prop :=
  ∀ d ∈ f.entries, ∀ e ∈ g.entries, d.key.userKey ≠ e.key.userKey

/-- Of a user key that occurs in both tables, the first holds the newer versions.  Tags
compare by sequence number first. -/
def SSTFile.Newer (f g : SSTFile β) : Prop :=
  ∀ d ∈ f.entries, ∀ e ∈ g.entries, d.key.userKey = e.key.userKey → e.key.tag < d.key.tag

theorem SSTFile.Apart.newer {f g : SSTFile β} (h : f.Apart g) : f.Newer g :=
  fun d hd e he heq => absurd heq (h d hd e he)

theorem SSTFile.Apart.symm {f g : SSTFile β} (h : f.Apart g) : g.Apart f :=
  fun d hd e he heq => h e he d hd heq.symm

/-- In a level, smaller numbers hold newer versions. -/
def LevelOrdered (l : Level β) : Prop :=
  ∀ f ∈ l, ∀ g ∈ l, f.fileNumber < g.fileNumber → f.Newer g

/-- From level 1 on, upper levels hold newer versions. -/
def CrossOrdered (levels : List (Level β)) : Prop :=
  ∀ i j, 1 ≤ i → i < j → ∀ f ∈ levelAt levels i, ∀ g ∈ levelAt levels j, f.Newer g

/-- A level lists its tables by number. -/
theorem levelOrdered_of_pairwise {l : Level β}
    (ascending : l.Pairwise fun f g => f.fileNumber < g.fileNumber)
    (h : l.Pairwise SSTFile.Newer) : LevelOrdered l := by
  intro f hf g hg hlt
  obtain ⟨i, hi, rfl⟩ := List.mem_iff_getElem.mp hf
  obtain ⟨j, hj, rfl⟩ := List.mem_iff_getElem.mp hg
  rcases lt_trichotomy i j with hij | rfl | hij
  · exact List.pairwise_iff_getElem.mp h i j hi hj hij
  · exact absurd hlt (lt_irrefl _)
  · exact absurd (List.pairwise_iff_getElem.mp ascending j i hj hi hij) hlt.not_gt

/-- Tables whose entries follow each other in order: the first holds the newer versions. -/
theorem pairwise_newer_of_sorted {fs : List (SSTFile β)}
    (sorted : StrictlySorted (fs.flatMap (·.entries))) : fs.Pairwise SSTFile.Newer := by
  rw [StrictlySorted, List.flatMap_def, List.pairwise_flatten, List.pairwise_map] at sorted
  refine sorted.2.imp ?_
  intro f g hfg d hd e he heq
  rcases InternalKey.lt_iff.mp (hfg d hd e he) with hlt | ⟨-, htag⟩
  · exact absurd heq hlt.ne
  · exact htag

/-! ## What a compaction must not separate -/

/-- The tables picked for a compaction hold all versions of their user keys that the
order depends on: none stays in the level, none in the next level, and no table stays in
the next level that was read after an overlapping one. -/
structure KeysTogether (levels : List (Level β)) (info : CompactInfo β) : Prop where
  level : info.level ≠ 0 → ∀ f ∈ info.oldFiles, ∀ g ∈ levelAt levels info.level,
    g ∉ info.oldFiles → f.Apart g
  next : ∀ f ∈ info.oldFiles, ∀ g ∈ levelAt levels (info.level + 1),
    g ∉ info.overlapFiles → f.Apart g
  overlap : ∀ f ∈ info.overlapFiles, ∀ g ∈ levelAt levels (info.level + 1),
    g ∉ info.overlapFiles → f.fileNumber < g.fileNumber → f.Apart g

section Order

variable {crc32c : Bytes → ℕ} {live fileno : ℕ} {levels : List (Level VLogEntryInfo)}
  {w : VLogWork} {info : CompactInfo VLogEntryInfo} {r : CompactionResult}
  {new : List (SSTFile VLogEntryInfo)}

/-- A table is newer than the new ones when it is newer than what they come from. -/
theorem Compaction.newer_new (h : Compaction crc32c live fileno w info r new)
    (ne : info.oldFiles ≠ []) {f n : SSTFile VLogEntryInfo} (hn : n ∈ new)
    (from_input : ∀ g ∈ info.oldFiles ++ info.overlapFiles, f.Newer g) : f.Newer n := by
  intro d hd e he heq
  obtain ⟨g, hg, c, hc, hkey, -⟩ := h.key_from ne hn he
  rw [← hkey] at heq ⊢
  exact from_input g hg d hd c hc heq

/-- The new tables are newer than a table when what they come from is. -/
theorem Compaction.new_newer (h : Compaction crc32c live fileno w info r new)
    (ne : info.oldFiles ≠ []) {f n : SSTFile VLogEntryInfo} (hn : n ∈ new)
    (from_input : ∀ g ∈ info.oldFiles ++ info.overlapFiles, g.Newer f) : n.Newer f := by
  intro d hd e he heq
  obtain ⟨g, hg, c, hc, hkey, -⟩ := h.key_from ne hn hd
  rw [← hkey] at heq ⊢
  exact from_input g hg c hc e he heq

/-- The new tables are ordered among themselves: a merge in comparator order writes them
in order, and moved tables keep theirs. -/
theorem Picked.new_ordered (p : Picked levels fileno info)
    (h : Compaction crc32c live fileno w info r new)
    (moved : info.level ≠ 0 → LevelOrdered (levelAt levels info.level))
    (mergeable : 2 ≤ info.inputs.length → Mergeable info.inputs)
    (ordered : ¬ info.Moves → MergeOrdered live info.inputs) : LevelOrdered new := by
  have hasc := (p.numbers h).2.1
  cases h with
  | move moves =>
      intro f hf g hg hlt
      exact moved moves.1 f (p.mem_old hf) g (p.mem_old hg) hlt
  | merge merges b built =>
      have hm := mergeable (visit_of_built p.old_ne built).1
      have hsorted := (newFiles_sorted_iff hm built).mpr (ordered merges)
      exact levelOrdered_of_pairwise hasc (pairwise_newer_of_sorted hsorted)

/-- **Order in the next level.**  The tables that stay there are ordered, the new ones
are, and no user key occurs on both sides except in a table that stays and was read
before. -/
theorem Picked.levelOrdered (p : Picked levels fileno info)
    (h : Compaction crc32c live fileno w info r new) (j : ℕ)
    (before : LevelOrdered (levelAt levels j)) (new_ordered : LevelOrdered new)
    (next : ∀ f ∈ info.oldFiles, ∀ g ∈ levelAt levels (info.level + 1),
      g ∉ info.overlapFiles → f.Apart g)
    (overlap : ∀ f ∈ info.overlapFiles, ∀ g ∈ levelAt levels (info.level + 1),
      g ∉ info.overlapFiles → f.fileNumber < g.fileNumber → f.Apart g) :
    LevelOrdered (levelAt (replaceFiles levels info new) j) := by
  intro f hf g hg hlt
  rcases (p.mem_level h).mp hf with ⟨hj, hfn⟩ | ⟨hfj, -, hfstay⟩
  · rcases (p.mem_level h).mp hg with ⟨-, hgn⟩ | ⟨hgj, -, hgstay⟩
    · exact new_ordered f hfn g hgn hlt
    · -- A new table is read before one that stays only when tables were moved.
      subst hj
      rcases ((p.numbers h).2.2 f hfn).2 with ⟨-, hold⟩ | hge
      · exact (next f hold g hgj (hgstay rfl)).newer
      · have := p.numbered.below _ g hgj
        omega
  · rcases (p.mem_level h).mp hg with ⟨hj, hgn⟩ | ⟨hgj, -, -⟩
    · subst hj
      refine h.newer_new p.old_ne hgn fun k hk => ?_
      rcases List.mem_append.mp hk with hk | hk
      · exact (next k hk f hfj (hfstay rfl)).symm.newer
      · rcases lt_trichotomy f.fileNumber k.fileNumber with hlt' | heq | hgt
        · exact before f hfj k (p.mem_overlap.mp hk).1 hlt'
        · have := eq_of_number_eq (p.numbered.ascending _) hfj (p.mem_overlap.mp hk).1 heq
          exact absurd (this ▸ hk) (hfstay rfl)
        · exact (overlap k hk f hfj (hfstay rfl) hgt).symm.newer
    · exact before f hfj g hgj hlt

/-- **Order between levels.**  It is kept when no version of a selected user key stays
in the level. -/
theorem Picked.crossOrdered (p : Picked levels fileno info)
    (h : Compaction crc32c live fileno w info r new) (before : CrossOrdered levels)
    (top : info.level = 0 → ∀ f ∈ info.oldFiles, ∀ j, 1 ≤ j → ∀ g ∈ levelAt levels j, f.Newer g)
    (level : info.level ≠ 0 → ∀ f ∈ info.oldFiles, ∀ g ∈ levelAt levels info.level,
      g ∉ info.oldFiles → f.Apart g) :
    CrossOrdered (replaceFiles levels info new) := by
  intro i j hi hij f hf g hg
  rcases (p.mem_level h).mp hf with ⟨rfl, hfn⟩ | ⟨hfi, hfstay, -⟩
  · rcases (p.mem_level h).mp hg with ⟨hj, -⟩ | ⟨hgj, -, -⟩
    · omega
    · -- Both inputs were above level `j`.
      refine h.new_newer p.old_ne hfn fun k hk => ?_
      rcases List.mem_append.mp hk with hk | hk
      · rcases Nat.eq_zero_or_pos info.level with hzero | hpos
        · exact top hzero k hk j (by omega) g hgj
        · exact before info.level j hpos (by omega) k (p.mem_old hk) g hgj
      · exact before _ j (Nat.succ_pos _) hij k (p.mem_overlap.mp hk).1 g hgj
  · rcases (p.mem_level h).mp hg with ⟨rfl, hgn⟩ | ⟨hgj, -, -⟩
    · refine h.newer_new p.old_ne hgn fun k hk => ?_
      rcases List.mem_append.mp hk with hk | hk
      · rcases Nat.lt_succ_iff_lt_or_eq.mp hij with hlt | rfl
        · exact before i info.level hi hlt f hfi k (p.mem_old hk)
        · exact (level (by omega) k hk f hfi (hfstay rfl)).symm.newer
      · exact before i _ hi hij f hfi k (p.mem_overlap.mp hk).1
    · exact before i j hi hij f hfi g hgj

end Order

/-! ## Picking the overlapping tables -/

/-- **Every table of the next level that shares a user key with a selected table is
picked.** -/
def CompactInfo.Complete (levels : List (Level β)) (info : CompactInfo β) : Prop :=
  ∀ g ∈ levelAt levels (info.level + 1), (∃ f ∈ info.oldFiles, ¬ f.Apart g) → g ∈ info.overlapFiles

/-- **No table left behind in a level shares a user key with a new one.** -/
def LeftBehindApart (before after : Level β) : Prop :=
  ∀ g ∈ before, g ∈ after → ∀ n ∈ after, n ∉ before → n.Apart g

/-- A table beyond the selected range does not share the user key at which the range
ends.  Ranges are compared as internal keys: a table that begins with an older version of
that user key is beyond the range. -/
def CompactInfo.BoundaryApart (info : CompactInfo β) (g : SSTFile β) : Prop :=
  (info.largestKey < g.smallest → ∀ f ∈ info.oldFiles, ∀ d ∈ f.entries, ∀ e ∈ g.entries,
    d.key.userKey = info.largestKey.userKey → e.key.userKey ≠ info.largestKey.userKey) ∧
  (g.largest < info.smallestKey → ∀ f ∈ info.oldFiles, ∀ d ∈ f.entries, ∀ e ∈ g.entries,
    d.key.userKey = info.smallestKey.userKey → e.key.userKey ≠ info.smallestKey.userKey)

/-- A table of the next level that stays shares no user key with a living entry of an
overlapping table. -/
def CompactInfo.OverlapApart (live : ℕ) (levels : List (Level β)) (info : CompactInfo β) : Prop :=
  ∀ f ∈ info.overlapFiles, ∀ g ∈ levelAt levels (info.level + 1), g ∉ info.overlapFiles →
    ∀ d ∈ f.entries, live ≤ d.key.seq → ∀ e ∈ g.entries, d.key.userKey ≠ e.key.userKey

section Overlap

variable {crc32c : Bytes → ℕ} {live fileno : ℕ} {levels : List (Level VLogEntryInfo)}
  {w : VLogWork} {info : CompactInfo VLogEntryInfo} {r : CompactionResult}
  {new : List (SSTFile VLogEntryInfo)}

/-- A table that holds an entry and is not picked is beyond one end of the range. -/
theorem Picked.beyond (p : Picked levels fileno info) {g : SSTFile VLogEntryInfo}
    (hg : g ∈ levelAt levels (info.level + 1)) (out : g ∉ info.overlapFiles)
    (range : g.smallest ≤ g.largest) (selected : info.smallestKey ≤ info.largestKey) :
    info.largestKey < g.smallest ∨ g.largest < info.smallestKey := by
  by_contra hno
  obtain ⟨hlarge, hsmall⟩ := not_or.mp hno
  refine out (p.mem_overlap.mpr ⟨hg, ?_⟩)
  simp [SSTFile.inRange, range, selected, not_lt.mp hlarge, not_lt.mp hsmall]

theorem Picked.complete_iff (p : Picked levels fileno info)
    (covers : ∀ i, ∀ f ∈ levelAt levels i, f.Covers) :
    info.Complete levels ↔ ∀ g ∈ levelAt levels (info.level + 1), info.BoundaryApart g := by
  have hrange := (pickCompaction_cases p.picked).2.2.2.1
  constructor
  · intro h g hg
    have hpicked : ∀ f ∈ info.oldFiles, ∀ d ∈ f.entries, ∀ e ∈ g.entries,
        d.key.userKey = e.key.userKey → g.inRange info.smallestKey info.largestKey = true := by
      intro f hf d hd e he heq
      exact (p.mem_overlap.mp (h g hg ⟨f, hf, fun hapart => hapart d hd e he heq⟩)).2
    refine ⟨fun hlt f hf d hd e he hd' he' => ?_, fun hlt f hf d hd e he hd' he' => ?_⟩
    · have hin := hpicked f hf d hd e he (hd'.trans he'.symm)
      simp only [SSTFile.inRange, decide_eq_true_eq] at hin
      exact absurd (le_trans (le_max_left _ _) (hin.trans (min_le_right _ _))) (not_le.mpr hlt)
    · have hin := hpicked f hf d hd e he (hd'.trans he'.symm)
      simp only [SSTFile.inRange, decide_eq_true_eq] at hin
      exact absurd (le_trans (le_max_right _ _) (hin.trans (min_le_left _ _))) (not_le.mpr hlt)
  · rintro h g hg ⟨f, hf, hshare⟩
    by_contra hout
    refine hshare fun d hd e he heq => ?_
    obtain ⟨hsmall, hlarge⟩ := hrange f hf
    obtain ⟨hd₁, hd₂⟩ := covers _ f (p.mem_old hf) d hd
    obtain ⟨he₁, he₂⟩ := covers _ g hg e he
    have hd_large := hd₂.trans hlarge
    have hd_small := hsmall.trans hd₁
    -- The user key is shared across the end of the range, so the range ends in it.
    rcases p.beyond hg hout (he₁.trans he₂) (hd_small.trans hd_large) with hlt | hlt
    · have hkey := InternalKey.userKey_eq_of_between hd_large (hlt.le.trans he₁) heq
      exact (h g hg).1 hlt f hf d hd e he hkey.symm (heq.symm.trans hkey.symm)
    · have hkey := InternalKey.userKey_eq_of_between (he₂.trans hlt.le) hd_small heq.symm
      exact (h g hg).2 hlt f hf d hd e he (heq.trans hkey.symm) hkey.symm

/-- The tables left behind, in terms of what was picked. -/
theorem Picked.leftBehindApart_iff (p : Picked levels fileno info)
    (h : Compaction crc32c live fileno w info r new) :
    LeftBehindApart (levelAt levels (info.level + 1))
        (levelAt (replaceFiles levels info new) (info.level + 1)) ↔
      ∀ g ∈ levelAt levels (info.level + 1), g ∉ info.overlapFiles → ∀ n ∈ new, n.Apart g := by
  constructor
  · intro happart g hg hout n hn
    refine happart g hg ((p.mem_level h).mpr (.inr ⟨hg, by simp, fun _ => hout⟩)) n
      ((p.mem_level h).mpr (.inl ⟨rfl, hn⟩)) fun hmem => p.fresh h hn hmem rfl
  · intro happart g hg hstay n hn hnew
    have hout : g ∉ info.overlapFiles := by
      rcases (p.mem_level h).mp hstay with ⟨-, hmem⟩ | ⟨-, -, hout⟩
      · exact absurd rfl (p.fresh h hmem hg)
      · exact hout rfl
    rcases (p.mem_level h).mp hn with ⟨-, hmem⟩ | ⟨hmem, -⟩
    · exact happart g hg hout n hmem
    · exact absurd hmem hnew

theorem Picked.leftBehind_iff (p : Picked levels fileno info)
    (h : Compaction crc32c live fileno w info r new) (complete : info.Complete levels) :
    LeftBehindApart (levelAt levels (info.level + 1))
        (levelAt (replaceFiles levels info new) (info.level + 1)) ↔
      info.OverlapApart live levels := by
  rw [p.leftBehindApart_iff h]
  constructor
  · intro happart f hf g hg hout d hd hlive e he heq
    obtain ⟨n, hn, c, hc, hkey⟩ := h.key_kept p.old_ne (List.mem_append_right _ hf) hd hlive
    exact happart g hg hout n hn c hc e he (hkey ▸ heq)
  · intro happart g hg hout n hn c hc e he heq
    obtain ⟨f, hf, d, hd, hkey, hlive⟩ := h.key_from p.old_ne hn hc
    rw [← hkey] at heq
    rcases List.mem_append.mp hf with hold | hover
    · exact hout (complete g hg ⟨f, hold, fun hapart => hapart d hd e he heq⟩)
    · exact happart f hover g hg hout d hd (hlive hover) e he heq

/-- With nothing shared across the cut, the next level stays ordered. -/
theorem Picked.levelOrdered_of_leftBehind (p : Picked levels fileno info)
    (h : Compaction crc32c live fileno w info r new)
    (before : LevelOrdered (levelAt levels (info.level + 1))) (new_ordered : LevelOrdered new)
    (apart : LeftBehindApart (levelAt levels (info.level + 1))
      (levelAt (replaceFiles levels info new) (info.level + 1))) :
    LevelOrdered (levelAt (replaceFiles levels info new) (info.level + 1)) := by
  rw [p.leftBehindApart_iff h] at apart
  intro f hf g hg hlt
  rcases (p.mem_level h).mp hf with ⟨-, hfn⟩ | ⟨hfj, -, hfstay⟩
  · rcases (p.mem_level h).mp hg with ⟨-, hgn⟩ | ⟨hgj, -, hgstay⟩
    · exact new_ordered f hfn g hgn hlt
    · exact (apart g hgj (hgstay rfl) f hfn).newer
  · rcases (p.mem_level h).mp hg with ⟨-, hgn⟩ | ⟨hgj, -, -⟩
    · exact (apart f hfj (hfstay rfl) g hgn).symm.newer
    · exact before f hfj g hgj hlt

end Overlap

/-- **When `PickOverlappingFiles` finds every table that shares a user key.**  It does
exactly when no table beyond the selected range shares the user key at which the range
ends.  After the compaction no table left behind shares a user key with a new one exactly
when, in addition, the tables it picked share no living user key with those it did not;
and then the next level stays ordered, provided the merge was in comparator order. -/
theorem overlapFiles_complete_iff (crc32c : Bytes → ℕ) (live : ℕ) {fileno level : ℕ}
    {levels : List (Level VLogEntryInfo)} {info : CompactInfo VLogEntryInfo}
    (numbered : Numbered levels fileno) (picked : pickCompaction levels level = some info)
    (covers : ∀ i, ∀ f ∈ levelAt levels i, f.Covers) :
    (info.Complete levels ↔ ∀ g ∈ levelAt levels (level + 1), info.BoundaryApart g) ∧
    ∀ w r, doCompactionWork crc32c live levels fileno w info = .ok r →
      (info.Complete levels ∧
          LeftBehindApart (levelAt levels (level + 1)) (levelAt r.levels (level + 1)) ↔
        (∀ g ∈ levelAt levels (level + 1), info.BoundaryApart g) ∧
          info.OverlapApart live levels) ∧
      ((∀ g ∈ levelAt levels (level + 1), info.BoundaryApart g) → info.OverlapApart live levels →
        (2 ≤ info.inputs.length → Mergeable info.inputs) →
        (¬ info.Moves → MergeOrdered live info.inputs) →
        (level ≠ 0 → LevelOrdered (levelAt levels level)) →
        LevelOrdered (levelAt levels (level + 1)) → LevelOrdered (levelAt r.levels (level + 1))) := by
  obtain rfl : info.level = level := (pickCompaction_cases picked).1
  have p : Picked levels fileno info := ⟨numbered, picked⟩
  refine ⟨p.complete_iff covers, fun w r hok => ?_⟩
  obtain ⟨new, hcomp, hlevels⟩ := doCompactionWork_cases hok
  rw [hlevels, ← p.complete_iff covers]
  refine ⟨and_congr_right fun hcomplete => p.leftBehind_iff hcomp hcomplete, ?_⟩
  intro hcomplete hoverlap hmergeable hordered hlevel hnext
  exact p.levelOrdered_of_leftBehind hcomp hnext
    (p.new_ordered hcomp hlevel hmergeable hordered)
    ((p.leftBehind_iff hcomp hcomplete).mpr hoverlap)

/-- Two level-0 tables over a table of level 1 whose range they meet: the table is
picked, and nothing is left behind. -/
theorem overlapFiles_complete_three_tables :
    let a := InternalKey.ofWrite [1] 4 .kTypeValue
    let k := InternalKey.ofWrite [3] 5 .kTypeValue
    let m := InternalKey.ofWrite [2] 2 .kTypeDeletion
    let levels : List (Level VLogEntryInfo) :=
      [[⟨1, a, a, 0, [⟨a, ⟨18, 0, 18⟩⟩]⟩, ⟨2, k, k, 0, [⟨k, ⟨40, 0, 18⟩⟩]⟩],
        [⟨0, m, m, 0, [⟨m, .zero⟩]⟩]]
    ∃ info, pickCompaction levels 0 = some info ∧ info.Complete levels ∧
      ∃ r, doCompactionWork crc32cCastagnoli 0 levels 3 ⟨1, Dir.empty, .new⟩ info = .ok r ∧
        LeftBehindApart (levelAt levels 1) (levelAt r.levels 1) := by
  intro a k m levels
  have hnumbered : Numbered levels 3 :=
    numbered_of_forall (by simp [levels]) (by simp [levels]) (by simp [levels])
  have hcovers : ∀ i, ∀ f ∈ levelAt levels i, f.Covers :=
    forall_mem_levelAt (by simp [levels, SSTFile.Covers])
  have hpick : pickCompaction levels 0
      = some ⟨0, levelAt levels 0, levelAt levels 1, a, k⟩ := rfl
  obtain ⟨hcomplete, hwork⟩ :=
    overlapFiles_complete_iff crc32cCastagnoli 0 hnumbered hpick hcovers
  obtain ⟨r, hr⟩ := doCompactionWork_isOk crc32cCastagnoli 0 3 levels ⟨1, Dir.empty, .new⟩
    ⟨0, levelAt levels 0, levelAt levels 1, a, k⟩ (by decide) (by decide)
  have hboundary : ∀ g ∈ levelAt levels 1,
      CompactInfo.BoundaryApart ⟨0, levelAt levels 0, levelAt levels 1, a, k⟩ g := by
    intro g hg
    obtain rfl : g = ⟨0, m, m, 0, [⟨m, .zero⟩]⟩ := by simpa [levels, levelAt] using hg
    exact ⟨fun h => absurd h (by decide), fun h => absurd h (by decide)⟩
  refine ⟨_, hpick, hcomplete.mpr hboundary, r, hr, ?_⟩
  exact (((hwork _ r hr).1).mpr ⟨hboundary, fun f _ g hg hout => absurd hg hout⟩).2

/-- The selected range ends in the newest version of a user key, and the table of the next
level begins with an older version of it: the table is not picked, and is read first
afterwards. -/
theorem overlapFiles_misses_boundary :
    let a := InternalKey.ofWrite [1] 4 .kTypeValue
    let k₅ := InternalKey.ofWrite [2] 5 .kTypeValue
    let k₃ := InternalKey.ofWrite [2] 3 .kTypeValue
    let m := InternalKey.ofWrite [3] 2 .kTypeValue
    let levels : List (Level VLogEntryInfo) :=
      [[⟨1, a, a, 0, [⟨a, ⟨66, 0, 18⟩⟩]⟩, ⟨2, k₅, k₅, 0, [⟨k₅, ⟨88, 0, 18⟩⟩]⟩],
        [⟨0, k₃, m, 0, [⟨k₃, ⟨44, 0, 18⟩⟩, ⟨m, ⟨22, 0, 18⟩⟩]⟩]]
    (∀ i, ∀ f ∈ levelAt levels i, StrictlySorted f.entries ∧ f.Covers) ∧
    ∃ info, pickCompaction levels 0 = some info ∧ ¬ info.Complete levels ∧
      ∃ r, doCompactionWork crc32cCastagnoli 0 levels 3 ⟨1, Dir.empty, .new⟩ info = .ok r ∧
        ¬ LeftBehindApart (levelAt levels 1) (levelAt r.levels 1) ∧
        ¬ LevelOrdered (levelAt r.levels 1) := by
  intro a k₅ k₃ m levels
  have htables : ∀ i, ∀ f ∈ levelAt levels i, StrictlySorted f.entries ∧ f.Covers := by
    have hkm : k₃ < m := by decide
    exact forall_mem_levelAt (by simp [levels, StrictlySorted, SSTFile.Covers, hkm, hkm.le])
  have hnumbered : Numbered levels 3 :=
    numbered_of_forall (by simp [levels]) (by simp [levels]) (by simp [levels])
  let info : CompactInfo VLogEntryInfo := ⟨0, levelAt levels 0, [], a, k₅⟩
  have hpick : pickCompaction levels 0 = some info := rfl
  have p : Picked levels 3 info := ⟨hnumbered, hpick⟩
  obtain ⟨r, hr⟩ := doCompactionWork_isOk crc32cCastagnoli 0 3 levels ⟨1, Dir.empty, .new⟩ info
    (by decide) (by decide)
  obtain ⟨new, hcomp, hlevels⟩ := doCompactionWork_cases hr
  -- The old table is still there, next to a new one with the newer version.
  let stale : SSTFile VLogEntryInfo := ⟨0, k₃, m, 0, [⟨k₃, ⟨44, 0, 18⟩⟩, ⟨m, ⟨22, 0, 18⟩⟩]⟩
  have hstale : stale ∈ levelAt levels 1 := List.mem_singleton_self _
  obtain ⟨n, hn, e, he, hkey⟩ := hcomp.key_kept p.old_ne
    (g := ⟨2, k₅, k₅, 0, [⟨k₅, ⟨88, 0, 18⟩⟩]⟩) (by simp [info, levels, levelAt])
    (List.mem_singleton_self _) (Nat.zero_le _)
  have hnew : n ∈ levelAt r.levels 1 := hlevels ▸ (p.mem_level hcomp).mpr (.inl ⟨rfl, hn⟩)
  have hleft : stale ∈ levelAt r.levels 1 :=
    hlevels ▸ (p.mem_level hcomp).mpr (.inr ⟨hstale, by simp [info], by simp [info]⟩)
  have hfresh : n ∉ levelAt levels 1 := fun hmem => p.fresh hcomp hn hmem rfl
  have hshared : e.key.userKey = k₃.userKey := by rw [hkey]; rfl
  refine ⟨htables, info, hpick, fun hcomplete => ?_, r, hr, fun hapart => ?_, fun hordered => ?_⟩
  · have := hcomplete stale hstale ⟨⟨2, k₅, k₅, 0, [⟨k₅, ⟨88, 0, 18⟩⟩]⟩,
      by simp [info, levels, levelAt], fun hapart => hapart _ (List.mem_singleton_self _) _
        List.mem_cons_self rfl⟩
    simp [info] at this
  · exact hapart stale hstale hleft n hnew hfresh e he _ List.mem_cons_self hshared
  · have hnum : stale.fileNumber < n.fileNumber := by
      have hne := p.fresh hcomp hn hstale
      exact Nat.pos_of_ne_zero hne
    have hlt := hordered stale hleft n hnew hnum _ List.mem_cons_self e he hshared.symm
    rw [hkey] at hlt
    exact absurd hlt (by decide)

/-! ## Picking the tables of a level -/

/-- **No table stays in the level with an older version of a user key than a selected
table.** -/
def CompactInfo.LeavesNoOlder (levels : List (Level β)) (info : CompactInfo β) : Prop :=
  ∀ f ∈ info.oldFiles, ∀ g ∈ levelAt levels info.level, g ∉ info.oldFiles →
    ∀ d ∈ f.entries, ∀ e ∈ g.entries, d.key.userKey = e.key.userKey → ¬ e.key.tag < d.key.tag

/-- No user key has versions both in the first `n` tables of a level and in a later one. -/
def ApartFrom (n : ℕ) (l : Level β) : Prop := ∀ f ∈ l.take n, ∀ g ∈ l.drop n, f.Apart g

/-- No user key has versions on both sides of the place where a level is cut: behind two tables,
if the level has its limit of `10 ^ level` tables, and behind one, if it has one table more.  With
two more nothing is picked, and with three or more all tables are, until the 32-bit count of
`PickSSTFileNum` is shorter than the level again. -/
def CutApart (levels : List (Level β)) (level : ℕ) : Prop :=
  let l := levelAt levels level
  (l.length = 10 ^ level → ApartFrom 2 l) ∧ (l.length = 10 ^ level + 1 → ApartFrom 1 l) ∧
    (2 ^ 32 + 2 + 10 ^ level < 2 * l.length →
      ApartFrom ((2 ^ 64 + 2 + 10 ^ level - l.length) % 2 ^ 32) l)

/-- The condition is about the tables that are picked. -/
theorem cutApart_iff {levels : List (Level β)} {level : ℕ} (inner : 1 ≤ level)
    (picks : pickSSTFileNum levels level ≠ 0) :
    CutApart levels level ↔ ApartFrom (pickSSTFileNum levels level) (levelAt levels level) := by
  have hall : ∀ n, (levelAt levels level).length ≤ n → ApartFrom n (levelAt levels level) := by
    intro n hn f _ g hg
    rw [List.drop_eq_nil_of_le hn] at hg
    exact absurd hg List.not_mem_nil
  obtain ⟨num, hnum⟩ : ∃ num, 10 ^ level = num := ⟨_, rfl⟩
  rw [pickSSTFileNum, if_neg (Nat.one_le_iff_ne_zero.mp inner)] at picks ⊢
  simp only [CutApart, hnum] at picks ⊢
  generalize hsize : (levelAt levels level).length = size at picks hall ⊢
  have hle : ¬ size < num := fun hlt => picks (if_pos hlt)
  rw [if_neg hle] at picks ⊢
  rcases Nat.lt_or_ge (2 ^ 32 + 2 + num) (2 * size) with hwrap | hfits
  · have hcount : 2 ^ 64 + 2 + num - size = 2 ^ 64 + num + 2 - size := by omega
    rw [← hcount]
    refine ⟨fun h => h.2.2 hwrap, fun h => ⟨fun heq => ?_, fun heq => ?_, fun _ => h⟩⟩
    · rwa [show (2 ^ 64 + 2 + num - size) % 2 ^ 32 = 2 by omega] at h
    · rwa [show (2 ^ 64 + 2 + num - size) % 2 ^ 32 = 1 by omega] at h
  · rcases (by omega : size = num ∨ size = num + 1 ∨ size = num + 2 ∨ num + 3 ≤ size)
      with h | h | h | h
    · have hcount : (2 ^ 64 + num + 2 - size) % 2 ^ 32 = 2 := by omega
      rw [hcount]
      exact ⟨fun hcut => hcut.1 h, fun hcut => ⟨fun _ => hcut, by omega, by omega⟩⟩
    · have hcount : (2 ^ 64 + num + 2 - size) % 2 ^ 32 = 1 := by omega
      rw [hcount]
      exact ⟨fun hcut => hcut.2.1 h, fun hcut => ⟨by omega, fun _ => hcut, by omega⟩⟩
    · exact absurd (by omega : (2 ^ 64 + num + 2 - size) % 2 ^ 32 = 0) picks
    · -- The wrapped difference is at least the size of the level.
      have hcount : size ≤ (2 ^ 64 + num + 2 - size) % 2 ^ 32 := by omega
      exact ⟨fun _ => hall _ hcount, fun _ => ⟨by omega, by omega, by omega⟩⟩

/-- A level from which a table is picked gives a number of tables. -/
theorem pickSSTFileNum_ne_zero {levels : List (Level β)} {level : ℕ} {info : CompactInfo β}
    (picked : pickCompaction levels level = some info) : pickSSTFileNum levels level ≠ 0 := by
  intro hzero
  rw [pickCompaction, hzero, List.take_zero] at picked
  simp at picked

/-- The tables that stay are the ones behind the cut. -/
theorem mem_drop_iff {l : Level β} (ascending : l.Pairwise fun f g => f.fileNumber < g.fileNumber)
    {n : ℕ} {g : SSTFile β} : g ∈ l.drop n ↔ g ∈ l ∧ g ∉ l.take n := by
  have hsplit := List.take_append_drop n l
  rw [← hsplit] at ascending
  have hcross := (List.pairwise_append.mp ascending).2.2
  constructor
  · intro hg
    exact ⟨List.mem_of_mem_drop hg, fun htake => lt_irrefl _ (hcross g htake g hg)⟩
  · rintro ⟨hg, hout⟩
    rw [← hsplit] at hg
    exact (List.mem_append.mp hg).resolve_left hout

theorem Picked.leavesNoOlder_iff {fileno : ℕ} {levels : List (Level VLogEntryInfo)}
    {info : CompactInfo VLogEntryInfo} (p : Picked levels fileno info)
    (ordered : LevelOrdered (levelAt levels info.level)) (inner : 1 ≤ info.level) :
    info.LeavesNoOlder levels ↔ CutApart levels info.level := by
  have hasc := p.numbered.ascending info.level
  rw [cutApart_iff inner (pickSSTFileNum_ne_zero p.picked)]
  simp only [CompactInfo.LeavesNoOlder, ApartFrom, p.old_eq]
  constructor
  · intro h f hf g hg d hd e he heq
    obtain ⟨hgl, hout⟩ := (mem_drop_iff hasc).mp hg
    exact h f hf g hgl hout d hd e he heq
      (ordered f (List.mem_of_mem_take hf) g hgl (take_lt_rest hasc hf hgl hout) d hd e he heq)
  · intro h f hf g hg hout d hd e he heq
    exact absurd heq (h f hf g ((mem_drop_iff hasc).mpr ⟨hg, hout⟩) d hd e he)

/-- **When `PickCompaction` does not separate the versions of a user key.**  In an ordered
level it leaves no older version behind exactly when no user key has versions on both
sides of the cut that the size of the level gives, and then the levels stay ordered among each
other. -/
theorem pickCompaction_cut_iff (crc32c : Bytes → ℕ) (live : ℕ) {fileno level : ℕ}
    {levels : List (Level VLogEntryInfo)} {info : CompactInfo VLogEntryInfo} (inner : 1 ≤ level)
    (numbered : Numbered levels fileno) (picked : pickCompaction levels level = some info)
    (ordered : LevelOrdered (levelAt levels level)) (cross : CrossOrdered levels) :
    (info.LeavesNoOlder levels ↔ CutApart levels level) ∧
    ∀ w r, doCompactionWork crc32c live levels fileno w info = .ok r →
      (info.LeavesNoOlder levels ∧ CrossOrdered r.levels ↔ CutApart levels level) := by
  obtain rfl : info.level = level := (pickCompaction_cases picked).1
  have p : Picked levels fileno info := ⟨numbered, picked⟩
  have hcut := p.leavesNoOlder_iff ordered inner
  have hapart := cutApart_iff inner (pickSSTFileNum_ne_zero picked)
  refine ⟨hcut, fun w r hok => ⟨fun h => hcut.mp h.1, fun h => ⟨hcut.mpr h, ?_⟩⟩⟩
  obtain ⟨new, hcomp, hlevels⟩ := doCompactionWork_cases hok
  rw [hlevels]
  refine p.crossOrdered hcomp cross (fun hzero => absurd hzero (Nat.one_le_iff_ne_zero.mp inner))
    fun _ f hf g hg hout => ?_
  rw [p.old_eq] at hf hout
  exact hapart.mp h f hf g ((mem_drop_iff (numbered.ascending _)).mpr ⟨hg, hout⟩)

/-- Ten tables of level 1 with ten user keys: the first two move down, and the levels stay
ordered. -/
theorem pickCompaction_cut_ten_keys :
    let table (i : ℕ) : SSTFile VLogEntryInfo :=
      let k := InternalKey.ofWrite [Fin.ofNat 256 i] (20 - i) .kTypeValue
      ⟨i, k, k, 0, [⟨k, ⟨0, 0, 18⟩⟩]⟩
    let levels : List (Level VLogEntryInfo) := [[], (List.range 10).map table]
    ∃ info, pickCompaction levels 1 = some info ∧ info.oldFiles = [table 0, table 1] ∧
      info.LeavesNoOlder levels ∧
      ∃ r, doCompactionWork crc32cCastagnoli 0 levels 10 ⟨1, Dir.empty, .new⟩ info = .ok r ∧
        CrossOrdered r.levels := by
  intro table levels
  have hnumbered : Numbered levels 10 :=
    numbered_of_forall (by simp [levels, List.range_succ, table]) (by simp [levels, table])
      (by simp [levels])
  let info : CompactInfo VLogEntryInfo :=
    ⟨1, [table 0, table 1], [], (table 0).smallest, (table 1).largest⟩
  have hnum : pickSSTFileNum levels 1 = 2 := by decide
  have hpick : pickCompaction levels 1 = some info := by
    simp only [pickCompaction, hnum]
    rfl
  have hkeys : ∀ i < 10, ∀ j < 10, (table i).smallest.userKey = (table j).smallest.userKey →
      i = j := by decide
  have hapart : ∀ i < 10, ∀ j < 10, i ≠ j → (table i).Apart (table j) := by
    intro i hi j hj hne d hd e he heq
    rw [List.mem_singleton.mp hd, List.mem_singleton.mp he] at heq
    exact hne (hkeys i hi j hj heq)
  have hordered : LevelOrdered (levelAt levels 1) := by
    intro f hf g hg hlt
    obtain ⟨i, hi, rfl⟩ := List.mem_map.mp hf
    obtain ⟨j, hj, rfl⟩ := List.mem_map.mp hg
    exact (hapart i (List.mem_range.mp hi) j (List.mem_range.mp hj) (Nat.ne_of_lt hlt)).newer
  have hcross : CrossOrdered levels := by
    intro i j hi hij f _ g hg
    obtain ⟨hj, -⟩ := mem_levelAt.mp hg
    simp only [levels, List.length_cons, List.length_nil] at hj
    omega
  obtain ⟨hleaves, hwork⟩ := pickCompaction_cut_iff crc32cCastagnoli 0 le_rfl hnumbered hpick
    hordered hcross
  obtain ⟨r, hr⟩ := doCompactionWork_isOk crc32cCastagnoli 0 10 levels ⟨1, Dir.empty, .new⟩ info
    (by decide) (by decide)
  have hcut : CutApart levels 1 := by
    rw [cutApart_iff le_rfl (by rw [hnum]; exact Nat.succ_ne_zero 1), hnum]
    intro f hf g hg
    have htake : f = table 0 ∨ f = table 1 := by simpa [levels, levelAt, List.range_succ] using hf
    obtain ⟨j, hj, hlt, rfl⟩ : ∃ j, 2 ≤ j ∧ j < 10 ∧ g = table j := by
      have hdrop : (levelAt levels 1).drop 2 = (List.range' 2 8).map table := rfl
      rw [hdrop] at hg
      obtain ⟨j, hj, rfl⟩ := List.mem_map.mp hg
      rw [List.mem_range'_1] at hj
      exact ⟨j, hj.1, by omega, rfl⟩
    rcases htake with rfl | rfl
    · exact hapart 0 (by omega) j hlt (by omega)
    · exact hapart 1 (by omega) j hlt (by omega)
  exact ⟨info, hpick, rfl, hleaves.mpr hcut, r, hr, ((hwork _ r hr).mpr hcut).2⟩

/-- Ten tables of level 1, of which the second and the third hold two versions of one user
key: the newer one moves down, and the older one stays above it. -/
theorem pickCompaction_cut_separates :
    let table (i : ℕ) : SSTFile VLogEntryInfo :=
      let k := InternalKey.ofWrite [Fin.ofNat 256 (if i = 2 then 1 else i)] (20 - i) .kTypeValue
      ⟨i, k, k, 0, [⟨k, ⟨0, 0, 18⟩⟩]⟩
    let levels : List (Level VLogEntryInfo) := [[], (List.range 10).map table]
    Numbered levels 10 ∧ (∀ i, ∀ f ∈ levelAt levels i, StrictlySorted f.entries ∧ f.Covers) ∧
    LevelOrdered (levelAt levels 1) ∧ CrossOrdered levels ∧
    ∃ info, pickCompaction levels 1 = some info ∧ ¬ info.LeavesNoOlder levels ∧
      ∃ r, doCompactionWork crc32cCastagnoli 0 levels 10 ⟨1, Dir.empty, .new⟩ info = .ok r ∧
        ¬ CrossOrdered r.levels := by
  intro table levels
  have hnumbered : Numbered levels 10 :=
    numbered_of_forall (by simp [levels, List.range_succ, table]) (by simp [levels, table])
      (by simp [levels])
  have htables : ∀ i, ∀ f ∈ levelAt levels i, StrictlySorted f.entries ∧ f.Covers :=
    forall_mem_levelAt (by simp [levels, table, StrictlySorted, SSTFile.Covers])
  let info : CompactInfo VLogEntryInfo :=
    ⟨1, [table 0, table 1], [], (table 0).smallest, (table 1).largest⟩
  have hnum : pickSSTFileNum levels 1 = 2 := by decide
  have hpick : pickCompaction levels 1 = some info := by
    simp only [pickCompaction, hnum]
    rfl
  have p : Picked levels 10 info := ⟨hnumbered, hpick⟩
  -- the third table holds the older version of the user key of the second
  have hversions : ∀ i < 10, ∀ j < 10, i < j →
      (table i).smallest.userKey = (table j).smallest.userKey →
      (table j).smallest.tag < (table i).smallest.tag := by decide
  have hordered : LevelOrdered (levelAt levels 1) := by
    intro f hf g hg hlt d hd e he heq
    obtain ⟨i, hi, rfl⟩ := List.mem_map.mp hf
    obtain ⟨j, hj, rfl⟩ := List.mem_map.mp hg
    rw [List.mem_singleton.mp hd, List.mem_singleton.mp he] at heq ⊢
    exact hversions i (List.mem_range.mp hi) j (List.mem_range.mp hj) hlt heq
  have hcross : CrossOrdered levels := by
    intro i j hi hij f _ g hg
    obtain ⟨hj, -⟩ := mem_levelAt.mp hg
    simp only [levels, List.length_cons, List.length_nil] at hj
    omega
  obtain ⟨r, hr⟩ := doCompactionWork_isOk crc32cCastagnoli 0 10 levels ⟨1, Dir.empty, .new⟩ info
    (by decide) (by decide)
  obtain ⟨new, hcomp, hlevels⟩ := doCompactionWork_cases hr
  have hthird : table 2 ∈ levelAt levels 1 := List.mem_map_of_mem (by decide)
  have hstays : table 2 ∉ info.oldFiles := by simp [info, table]
  refine ⟨hnumbered, htables, hordered, hcross, info, hpick, fun hleaves => ?_, r, hr,
    fun hafter => ?_⟩
  · exact hleaves (table 1) (by simp [info]) (table 2) hthird hstays _ (List.mem_singleton_self _) _
      (List.mem_singleton_self _) (by decide) (by decide)
  -- the newer version is now in level 2, below the older one
  · obtain ⟨n, hn, e, he, hkey⟩ := hcomp.key_kept p.old_ne (g := table 1) (by simp [info])
      (List.mem_singleton_self _) (Nat.zero_le _)
    have hupper : table 2 ∈ levelAt r.levels 1 :=
      hlevels ▸ (p.mem_level hcomp).mpr (.inr ⟨hthird, fun _ => hstays, by simp [info]⟩)
    have hlower : n ∈ levelAt r.levels 2 := hlevels ▸ (p.mem_level hcomp).mpr (.inl ⟨rfl, hn⟩)
    have hlt := hafter 1 2 le_rfl (by omega) (table 2) hupper n hlower _
      (List.mem_singleton_self _) e he (by rw [hkey]; decide)
    rw [hkey] at hlt
    exact absurd hlt (by decide)

end Lsmkv
