import Lsmkv.Lib.Sums
import Lsmkv.MergeInputs

/-!
# How deep a compaction goes

`CompactSSTFile(level)` (`src/kvstore.cc`) compacts a level and calls itself for the next, until
`PickCompaction` selects nothing.  Nothing in it bounds the level.  What does is that a compaction
makes no entries (`totalEntries_compactLevel_le`) and no empty tables, so with fewer than `10 ^ 9`
entries the level with that limit is never full.

The recursion stops at such a level unless it comes to a level that picks a single table to merge,
where the loser tree leaves its arrays (`turns_end_iff`); it does so from a store that a run reaches
(`not_turns_end`).
-/

namespace Lsmkv

open ByteCode Files

/-! ## The recursion -/

/-- **The turns of `CompactSSTFile(0)`**: the levels it comes to, each with the store as it is
then. -/
inductive Store.Turn (crc32c : Bytes → ℕ) (s : Store) : ℕ → Store → Prop
  | start : Turn crc32c s 0 s
  | next {level : ℕ} {s₁ s₂ : Store} {info : CompactInfo VLogEntryInfo} (before : Turn crc32c s level s₁)
      (picked : pickCompaction s₁.levels level = some info)
      (work : s₁.compactLevel crc32c level = .ok s₂) : Turn crc32c s (level + 1) s₂

/-- **No error occurs**: a turn that moves its tables, or whose loser tree visits all their entries,
returns `OK`. -/
def Store.NoError (crc32c : Bytes → ℕ) (s : Store) : Prop :=
  ∀ level s₁ info, s.Turn crc32c level s₁ → pickCompaction s₁.levels level = some info →
    (info.Moves ∨ ∃ out, LoserTree.visit (fun e => e.key.encode) info.inputs = some out) →
      ∃ s₂, s₁.compactLevel crc32c level = .ok s₂

/-- The entries of some tables. -/
def entryCount {β : Type} (l : Level β) : ℕ := (l.map fun f => f.entries.length).sum

/-- The entries of all tables. -/
def totalEntries {β : Type} (levels : List (Level β)) : ℕ := (levels.map entryCount).sum

/-- No table is empty. -/
def NonemptyTables {β : Type} (levels : List (Level β)) : Prop :=
  ∀ i, ∀ f ∈ levelAt levels i, f.entries ≠ []

/-! ## Counting entries -/

section Counting

variable {β : Type} {levels : List (Level β)}

theorem entryCount_append (l l' : Level β) : entryCount (l ++ l') = entryCount l + entryCount l' := by
  rw [entryCount, List.map_append, List.sum_append]
  rfl

theorem entryCount_perm {l l' : Level β} (h : l.Perm l') : entryCount l = entryCount l' :=
  (h.map _).sum_eq

theorem entryCount_le_of_sublist {l l' : Level β} (h : l.Sublist l') : entryCount l ≤ entryCount l' :=
  (h.map _).sum_le_sum fun _ _ => Nat.zero_le _

/-- Tables that are not empty are at most as many as their entries. -/
theorem length_le_entryCount {l : Level β} (ne : ∀ f ∈ l, f.entries ≠ []) : l.length ≤ entryCount l := by
  rw [entryCount, ← List.length_map fun f : SSTFile β => f.entries.length]
  refine List.length_le_sum_of_one_le _ fun n hn => ?_
  obtain ⟨f, hf, rfl⟩ := List.mem_map.mp hn
  exact List.length_pos_iff.mpr (ne f hf)

/-- Tables that are taken out take their entries along, with those of every other table under their
numbers. -/
theorem entryCount_removeFiles_le {files l : Level β} (sub : files.Sublist l) :
    entryCount (removeFiles files l) + entryCount files ≤ entryCount l := by
  let named (f : SSTFile β) : Bool := files.any fun g => g.fileNumber == f.fileNumber
  have hall : files.filter named = files := by
    refine List.filter_eq_self.mpr fun f hf => List.any_eq_true.mpr ⟨f, hf, ?_⟩
    exact beq_self_eq_true _
  have hnamed : entryCount files ≤ entryCount (l.filter named) := by
    have hsub := sub.filter named
    rw [hall] at hsub
    exact entryCount_le_of_sublist hsub
  have hsplit := entryCount_perm (List.filter_append_perm named l)
  rw [entryCount_append] at hsplit
  have hrest : removeFiles files l = l.filter fun f => !named f := rfl
  rw [hrest]
  omega

theorem entryCount_addFiles_le (files l : Level β) :
    entryCount (addFiles files l) ≤ entryCount files + entryCount l := by
  have hemplace : ∀ (f : SSTFile β) (l : Level β),
      entryCount (emplace f l) ≤ f.entries.length + entryCount l := by
    intro f l
    induction l with
    | nil => exact le_rfl
    | cons g l ih =>
        rw [emplace]
        split
        · exact le_rfl
        · split
          · exact Nat.le_add_left _ _
          · simp only [entryCount, List.map_cons, List.sum_cons] at ih ⊢
            omega
  induction files generalizing l with
  | nil => exact Nat.le_add_left _ _
  | cons f files ih =>
      have hrest := ih (emplace f l)
      have hfirst := hemplace f l
      simp only [addFiles, List.foldl_cons, entryCount, List.map_cons, List.sum_cons] at *
      omega

/-- A level is exchanged. -/
theorem totalEntries_setLevel (levels : List (Level β)) (i : ℕ) (l : Level β) :
    totalEntries (setLevel levels i l) + entryCount (levelAt levels i) = totalEntries levels + entryCount l := by
  have hlonger : totalEntries (levels ++ List.replicate (i + 1 - levels.length) []) = totalEntries levels := by
    simp [totalEntries, entryCount]
  have hsame : levelAt (levels ++ List.replicate (i + 1 - levels.length) []) i = levelAt levels i := by
    simp only [levelAt, List.getD_eq_getElem?_getD]
    by_cases hi : i < levels.length
    · rw [List.getElem?_append_left hi]
    · rw [List.getElem?_append_right (not_lt.mp hi), List.getElem?_replicate,
        List.getElem?_eq_none (not_lt.mp hi)]
      split <;> rfl
  have hlevel : (levels ++ List.replicate (i + 1 - levels.length) [])[i]? = some (levelAt levels i) := by
    have hi : i < (levels ++ List.replicate (i + 1 - levels.length) ([] : Level β)).length := by
      rw [List.length_append, List.length_replicate]
      omega
    rw [← hsame, levelAt, List.getD_eq_getElem?_getD, List.getElem?_eq_getElem hi, Option.getD_some]
  have hset := Sums.sum_map_set entryCount hlevel l
  rw [← hlonger]
  exact hset

theorem entryCount_levelAt_le (levels : List (Level β)) (i : ℕ) :
    entryCount (levelAt levels i) ≤ totalEntries levels := by
  have h := totalEntries_setLevel levels i []
  have hnil : entryCount ([] : Level β) = 0 := rfl
  omega

end Counting

/-! ## What a round does -/

section Round

variable {crc32c : Bytes → ℕ} {s s₁ s₂ : Store} {level : ℕ} {info : CompactInfo VLogEntryInfo}

/-- A compaction makes no entries. -/
theorem Compaction.entryCount_le {live fileno : ℕ} {w : VLogWork} {r : CompactionResult}
    {new : List (SSTFile VLogEntryInfo)} (h : Compaction crc32c live fileno w info r new)
    (ne : info.oldFiles ≠ []) : entryCount new ≤ entryCount info.oldFiles + entryCount info.overlapFiles := by
  cases h with
  | move => exact Nat.le_add_right _ _
  | merge _ b built =>
      obtain ⟨-, visited, hvisit, hperm⟩ := visit_of_built ne built
      have hkeys := congrArg List.length (buildWhenCompaction_keys hvisit built)
      rw [List.length_map, List.length_map, List.length_flatMap] at hkeys
      calc entryCount b.newFiles = (visited.filter fun e => decide (live ≤ e.key.seq)).length := hkeys
        _ ≤ visited.length := List.length_filter_le _ _
        _ = info.inputs.flatten.length := hperm.length_eq
        _ = entryCount (info.oldFiles ++ info.overlapFiles) := by
            rw [CompactInfo.inputs, List.length_flatten, List.map_map]
            rfl
        _ = entryCount info.oldFiles + entryCount info.overlapFiles := entryCount_append _ _

/-- New tables are not empty. -/
theorem Compaction.nonempty {live fileno : ℕ} {w : VLogWork} {r : CompactionResult}
    {new : List (SSTFile VLogEntryInfo)} (h : Compaction crc32c live fileno w info r new)
    (ne : info.oldFiles ≠ []) (old : ∀ f ∈ info.oldFiles, f.entries ≠ []) : ∀ f ∈ new, f.entries ≠ [] := by
  cases h with
  | move => exact old
  | merge _ b built =>
      obtain ⟨-, visited, hvisit, -⟩ := visit_of_built ne built
      exact (buildWhenCompaction_consecutive hvisit built).nonempty

/-- **A round makes no entries.** -/
theorem totalEntries_compactLevel_le (picked : pickCompaction s.levels level = some info)
    (work : s.compactLevel crc32c level = .ok s₁) : totalEntries s₁.levels ≤ totalEntries s.levels := by
  obtain ⟨hlevel, hold, hne, -, hover⟩ := pickCompaction_cases picked
  obtain ⟨r, new, hcomp, rfl, hlevels⟩ := compactLevel_of_picked picked work
  have hnew := hcomp.entryCount_le hne
  have hgone : entryCount (removeFiles info.oldFiles (levelAt s.levels info.level))
      + entryCount info.oldFiles ≤ entryCount (levelAt s.levels info.level) :=
    entryCount_removeFiles_le (by rw [hold, hlevel]; exact List.take_sublist _ _)
  have hbelow : entryCount (removeFiles info.overlapFiles (levelAt s.levels (info.level + 1)))
      + entryCount info.overlapFiles ≤ entryCount (levelAt s.levels (info.level + 1)) :=
    entryCount_removeFiles_le (by rw [hover, hlevel]; exact List.filter_sublist)
  have hadded := entryCount_addFiles_le new
    (removeFiles info.overlapFiles (levelAt s.levels (info.level + 1)))
  have hfirst := totalEntries_setLevel s.levels info.level
    (removeFiles info.oldFiles (levelAt s.levels info.level))
  have hsecond := totalEntries_setLevel
    (setLevel s.levels info.level (removeFiles info.oldFiles (levelAt s.levels info.level)))
    (info.level + 1) (addFiles new (removeFiles info.overlapFiles (levelAt s.levels (info.level + 1))))
  rw [levelAt_setLevel, if_neg (Nat.succ_ne_self _)] at hsecond
  show totalEntries r.levels ≤ _
  rw [hlevels]
  simp only [replaceFiles, levelAt_setLevel, if_neg (Nat.succ_ne_self _)]
  omega

/-- A round makes no empty tables. -/
theorem NonemptyTables.compactLevel (h : NonemptyTables s.levels)
    (picked : pickCompaction s.levels level = some info)
    (work : s.compactLevel crc32c level = .ok s₁) : NonemptyTables s₁.levels := by
  obtain ⟨hlevel, hold, hne, -, hover⟩ := pickCompaction_cases picked
  obtain ⟨r, new, hcomp, rfl, hlevels⟩ := compactLevel_of_picked picked work
  have hnew := hcomp.nonempty hne fun f hf => h level f (List.mem_of_mem_take (hold ▸ hf))
  intro i f hf
  have hat : levelAt (s.compacted r).levels i = levelAt (replaceFiles s.levels info new) i := by
    rw [← hlevels]
    rfl
  rw [hat, levelAt_replaceFiles] at hf
  split at hf
  · rcases of_mem_addFiles hf with hf | hf
    · exact hnew f hf
    · exact h _ f (mem_removeFiles.mp hf).1
  · split at hf
    · exact h _ f (mem_removeFiles.mp hf).1
    · exact h i f hf

/-- A round that returns `OK` has moved its tables or merged them with a whole loser tree. -/
theorem visit_of_compactLevel (picked : pickCompaction s.levels level = some info)
    (work : s.compactLevel crc32c level = .ok s₁) :
    info.Moves ∨ ∃ out, LoserTree.visit (fun e => e.key.encode) info.inputs = some out := by
  obtain ⟨r, new, hcomp, -, -⟩ := compactLevel_of_picked picked work
  cases hcomp with
  | move moves => exact .inl moves
  | merge _ b built =>
      obtain ⟨-, visited, hvisit, -⟩ := visit_of_built (pickCompaction_cases picked).2.2.1 built
      exact .inr ⟨visited, hvisit⟩

namespace Store.Turn

/-- What holds of every turn. -/
theorem few (h : s.Turn crc32c level s₁) (nonempty : NonemptyTables s.levels) :
    totalEntries s₁.levels ≤ totalEntries s.levels ∧ NonemptyTables s₁.levels := by
  induction h with
  | start => exact ⟨le_rfl, nonempty⟩
  | next _ picked work ih =>
      exact ⟨(totalEntries_compactLevel_le picked work).trans ih.1, ih.2.compactLevel picked work⟩

/-- Each level has one turn at most. -/
theorem unique (h : s.Turn crc32c level s₁) (h' : s.Turn crc32c level s₂) : s₁ = s₂ := by
  induction h generalizing s₂ with
  | start =>
      cases h'
      rfl
  | next _ _ work ih =>
      cases h' with
      | next before' _ work' =>
          rw [ih before'] at work
          exact Outcome.ok.inj (work.symm.trans work')

/-- The turns before a turn returned `OK`. -/
theorem work_of_lt (h : s.Turn crc32c level s₁) {i : ℕ} (before : i < level) :
    ∃ s₂ s₃ info, s.Turn crc32c i s₂ ∧ pickCompaction s₂.levels i = some info ∧
      s₂.compactLevel crc32c i = .ok s₃ := by
  induction h with
  | start => exact absurd before (Nat.not_lt_zero i)
  | next h picked work ih =>
      rcases Nat.lt_succ_iff_lt_or_eq.mp before with hlt | rfl
      · exact ih hlt
      · exact ⟨_, _, _, h, picked, work⟩

end Store.Turn

/-- A level that picks alone picks something. -/
theorem PicksAlone.picked (h : PicksAlone s.levels level) : ∃ info, pickCompaction s.levels level = some info := by
  obtain ⟨-, f, htake, -⟩ := h
  rw [pickCompaction, htake]
  exact ⟨_, rfl⟩

/-- A recursion that ends has come to no level that picks alone. -/
theorem Store.Turn.not_picksAlone {last : ℕ} {s' : Store} (ends : s.Turn crc32c last s')
    (none : pickCompaction s'.levels last = none) (h : s.Turn crc32c level s₁) :
    ¬ PicksAlone s₁.levels level := by
  intro halone
  obtain ⟨info, hpicked⟩ := halone.picked
  rcases lt_trichotomy level last with hlt | rfl | hgt
  · obtain ⟨s₂, s₃, info', h', hpicked', hwork⟩ := ends.work_of_lt hlt
    obtain rfl := h.unique h'
    exact not_picksAlone_of_inBounds hpicked' (visit_of_compactLevel hpicked' hwork) halone
  · obtain rfl := h.unique ends
    rw [none] at hpicked
    cases hpicked
  · obtain ⟨s₂, s₃, info', h', hpicked', -⟩ := h.work_of_lt hgt
    obtain rfl := ends.unique h'
    rw [none] at hpicked'
    cases hpicked'

/-- **The recursion of `CompactSSTFile(0)` comes to a level at which nothing is selected**, with
fewer than `10 ^ 9` entries in tables that are not empty and without an error, if and only if it
comes to no level that picks a single table to merge.  The level is then at most the ninth. -/
theorem turns_end_iff (few : totalEntries s.levels < 10 ^ 9) (nonempty : NonemptyTables s.levels)
    (noError : s.NoError crc32c) :
    (∃ level ≤ 9, ∃ s₁, s.Turn crc32c level s₁ ∧ pickCompaction s₁.levels level = none) ↔
      ∀ level s₁, s.Turn crc32c level s₁ → ¬ PicksAlone s₁.levels level := by
  constructor
  · rintro ⟨last, -, s', hlast, hnone⟩ level s₁ hturn
    exact hlast.not_picksAlone hnone hturn
  · intro hsafe
    by_contra hends
    have hgoes : ∀ level ≤ 9, ∀ s₁, s.Turn crc32c level s₁ → pickCompaction s₁.levels level ≠ none :=
      fun level hle s₁ hturn hnone => hends ⟨level, hle, s₁, hturn, hnone⟩
    -- Without a level that selects nothing, every level up to the ninth has its turn.
    have hturns : ∀ level ≤ 9, ∃ s₁, s.Turn crc32c level s₁ := by
      intro level hle
      induction level with
      | zero => exact ⟨s, .start⟩
      | succ level ih =>
          have hle' := Nat.le_of_succ_le hle
          obtain ⟨s₁, hturn⟩ := ih hle'
          obtain ⟨info, hpicked⟩ := Option.ne_none_iff_exists'.mp (hgoes level hle' s₁ hturn)
          obtain ⟨s₂, hwork⟩ := noError level s₁ info hturn hpicked
            (inBounds_of_not_picksAlone hpicked (hsafe level s₁ hturn))
          exact ⟨s₂, .next hturn hpicked hwork⟩
    obtain ⟨s₁, hturn⟩ := hturns 9 le_rfl
    obtain ⟨htotal, hne⟩ := hturn.few nonempty
    have hsize : (levelAt s₁.levels 9).length < 10 ^ 9 :=
      calc (levelAt s₁.levels 9).length ≤ entryCount (levelAt s₁.levels 9) :=
            length_le_entryCount (hne 9)
        _ ≤ totalEntries s₁.levels := entryCount_levelAt_le _ _
        _ ≤ totalEntries s.levels := htotal
        _ < 10 ^ 9 := few
    refine hgoes 9 le_rfl s₁ hturn ?_
    rw [pickCompaction, pickSSTFileNum_of_lt (by decide) hsize, List.take_zero]

end Round

/-! ## Stores that a run reaches -/

section Reached

variable {crc32c : Bytes → ℕ} {m : Machine} {s s₁ : Store} {level : ℕ} {info : CompactInfo VLogEntryInfo}

/-- Tables that are moved are moved without an error. -/
theorem compactLevel_of_moves (crc32c : Bytes → ℕ) (picked : pickCompaction s.levels level = some info)
    (moves : info.Moves) : ∃ s₁, s.compactLevel crc32c level = .ok s₁ := by
  obtain ⟨hzero, hshallow, hnone⟩ := moves
  simp only [Store.compactLevel, picked, doCompactionWork]
  rw [if_pos ⟨hzero, decide_eq_false (not_le.mpr hshallow), hnone⟩]
  exact ⟨_, rfl⟩

/-- The turns of a compaction are steps of a run. -/
theorem Store.Turn.reachable (h : m.store.Turn crc32c level s₁)
    (reached : Machine.Reachable crc32c Machine.Regular m) (idle : m.flushed = false)
    (full : kL0CompactionTrigger ≤ (levelAt m.store.levels 0).length)
    (short : ∀ w ∈ m.history, w.key.length ≤ keptKeyLength) :
    Machine.Reachable crc32c Machine.Regular { m with store := s₁ } := by
  induction h with
  | start => exact reached
  | @next level s₁ s₂ info before picked work ih =>
      refine ih.step (a := .compact level) ⟨fun hzero => ?_, ih.fitting_compact short level⟩
        (.compact (m := { m with store := s₁ }) idle work)
      subst hzero
      cases before
      exact full

/-- **In a store that a run with short keys reaches, no error occurs.** -/
theorem noError_of_reachable (reached : Machine.Reachable crc32c Machine.Regular m)
    (idle : m.flushed = false) (full : kL0CompactionTrigger ≤ (levelAt m.store.levels 0).length)
    (short : ∀ w ∈ m.history, w.key.length ≤ keptKeyLength) : m.store.NoError crc32c := by
  rintro level s₁ info hturn hpicked (hmoves | ⟨out, hvisit⟩)
  · exact compactLevel_of_moves crc32c hpicked hmoves
  · have hne : info.inputs ≠ [] := by
      have hold := (pickCompaction_cases hpicked).2.2.1
      simp [CompactInfo.inputs, hold]
    obtain ⟨r, new, -, -, -, hok⟩ := Machine.compactLevel_isOk (m := { m with store := s₁ })
      (fun _ _ hm => hm.2.sized) (hturn.reachable reached idle full short) hpicked (two_le_of_visit hne hvisit)
    exact ⟨_, hok⟩

namespace Machine.Tower

variable {allowed : ℕ → Bytes → Prop} {a b c d : ℕ}

theorem nonempty (h : Tower crc32c allowed (tiers a b c d) m) : NonemptyTables m.store.levels := by
  intro i f hf
  obtain ⟨e, he, -⟩ := h.points i f hf
  rw [he]
  exact List.cons_ne_nil _ _

/-- A tower has an entry in each of its tables. -/
theorem totalEntries_le (h : Tower crc32c allowed (tiers a b c d) m) :
    totalEntries m.store.levels ≤ a + b + c + d := by
  have hlevel : ∀ i, entryCount (levelAt m.store.levels i) = tiers a b c d i := by
    intro i
    have hsingle : (levelAt m.store.levels i).map (fun f => f.entries.length)
        = List.replicate (levelAt m.store.levels i).length 1 := by
      refine List.eq_replicate_iff.mpr ⟨List.length_map _, fun n hn => ?_⟩
      obtain ⟨f, hf, rfl⟩ := List.mem_map.mp hn
      obtain ⟨e, he, -⟩ := h.points i f hf
      rw [he, List.length_singleton]
    rw [entryCount, hsingle, List.sum_replicate, smul_eq_mul, Nat.mul_one]
    exact h.size i
  have hsum : ∀ n, ((List.range n).map (tiers a b c d)).sum ≤ a + b + c + d := by
    intro n
    match n with
    | 0 => exact Nat.zero_le _
    | 1 | 2 | 3 =>
        simp only [List.range_succ, List.range_zero, List.nil_append, List.map_append, List.map_cons,
          List.map_nil, List.sum_append, List.sum_cons, List.sum_nil, tiers]
        omega
    | n + 4 =>
        induction n with
        | zero =>
            simp only [List.range_succ, List.range_zero, List.nil_append, List.map_append,
              List.map_cons, List.map_nil, List.sum_append, List.sum_cons, List.sum_nil, tiers]
            omega
        | succ n ih =>
            rw [List.range_succ, List.map_append, List.sum_append]
            exact ih
  have hlevels : m.store.levels.map entryCount
      = (List.range m.store.levels.length).map (tiers a b c d) := by
    refine List.ext_getElem (by simp) fun i hi hi' => ?_
    rw [List.getElem_map, List.getElem_map, List.getElem_range, ← hlevel i]
    rw [List.length_map] at hi
    simp [levelAt, hi]
  rw [totalEntries, hlevels]
  exact hsum _

end Machine.Tower

/-- The recursion from a full level 0 above empty levels. -/
theorem turns_end_full : ∃ m, Machine.Reachable crc32cCastagnoli Machine.Regular m ∧
    (levelAt m.store.levels 0).length = kL0CompactionTrigger ∧
    ((∃ level ≤ 9, ∃ s₁, m.store.Turn crc32cCastagnoli level s₁ ∧
        pickCompaction s₁.levels level = none) ↔
      ∀ level s₁, m.store.Turn crc32cCastagnoli level s₁ → ¬ PicksAlone s₁.levels level) := by
  obtain ⟨m, h, -⟩ := (Machine.Tower.new crc32cCastagnoli fun _ u => u = longKey).fill
    (n := kL0CompactionTrigger) (Nat.zero_add _).le isLong_longKey rfl
  have hfull : (levelAt m.store.levels 0).length = kL0CompactionTrigger := h.size 0
  refine ⟨m, h.reached, hfull, turns_end_iff ?_ h.nonempty ?_⟩
  · exact lt_of_le_of_lt h.totalEntries_le (by decide)
  · exact noError_of_reachable h.reached h.resting.idle hfull.ge h.short

end Reached

/-! ## A recursion that does not end -/

section Bounds

variable {crc32c : Bytes → ℕ} {live live' : ℕ}

/-- Bounds that expire none of the entries are the same to a merge. -/
theorem buildWhenCompaction_congr (crc32c : Bytes → ℕ) (buildVlog : Bool) (fileno : ℕ) (w : VLogWork)
    {inputs : List (List (Entry VLogEntryInfo))} (ne : inputs ≠ [])
    (alive : ∀ e ∈ inputs.flatten, live ≤ e.key.seq ∧ live' ≤ e.key.seq) :
    buildWhenCompaction crc32c buildVlog live fileno w inputs
      = buildWhenCompaction crc32c buildVlog live' fileno w inputs := by
  have hloop : ∀ (es : List (Entry VLogEntryInfo)) (b : Build VLogEntryInfo) (w : VLogWork),
      (∀ e ∈ es, live ≤ e.key.seq ∧ live' ≤ e.key.seq) →
      buildLoop crc32c buildVlog live es b w = buildLoop crc32c buildVlog live' es b w := by
    intro es
    induction es with
    | nil => exact fun _ _ _ => rfl
    | cons e es ih =>
        intro b w halive
        obtain ⟨hlive, hlive'⟩ := halive e List.mem_cons_self
        have hstep : buildStep crc32c buildVlog live b w e = buildStep crc32c buildVlog live' b w e := by
          simp only [buildStep, if_neg (not_lt.mpr hlive), if_neg (not_lt.mpr hlive')]
        rw [buildLoop, buildLoop, hstep]
        exact congrArg _ (funext fun r => ih r.1 r.2 fun d hd => halive d (List.mem_cons_of_mem _ hd))
  cases hvisit : LoserTree.visit (fun e : Entry VLogEntryInfo => e.key.encode) inputs with
  | none => simp only [buildWhenCompaction, hvisit, Outcome.ofOption, Outcome.fault_bind]
  | some visited =>
      have hperm := visit_perm (two_le_of_visit ne hvisit) hvisit
      simp only [buildWhenCompaction, hvisit, Outcome.ofOption_some, Outcome.ok_bind]
      rw [hloop visited _ _ fun e he => alive e (hperm.mem_iff.mp he)]

/-- A round does not read a bound that expires none of its entries. -/
theorem Store.compactLevel_raised {s s₁ : Store} {level : ℕ} {info : CompactInfo VLogEntryInfo}
    (picked : pickCompaction s.levels level = some info)
    (alive : ∀ e ∈ info.inputs.flatten, s.lastLivingSequence ≤ e.key.seq ∧ live ≤ e.key.seq)
    (work : s.compactLevel crc32c level = .ok s₁) :
    Store.compactLevel crc32c { s with lastLivingSequence := live } level
      = .ok { s₁ with lastLivingSequence := live } := by
  have hne : info.inputs ≠ [] := by
    have hold := (pickCompaction_cases picked).2.2.1
    simp [CompactInfo.inputs, hold]
  have hsame : doCompactionWork crc32c live s.levels s.fileno ⟨s.lastVlogFileNo, s.vlogs, .new⟩ info
      = doCompactionWork crc32c s.lastLivingSequence s.levels s.fileno
          ⟨s.lastVlogFileNo, s.vlogs, .new⟩ info := by
    simp only [doCompactionWork,
      buildWhenCompaction_congr crc32c _ s.fileno _ hne fun e he => (alive e he).symm]
  simp only [Store.compactLevel, picked] at work ⊢
  rw [hsame]
  obtain ⟨r, hr, hok⟩ := Outcome.bind_eq_ok.mp work
  rw [hr, Outcome.ok_bind, ← Outcome.ok.inj hok]
  rfl

/-- Above level 2 are the last writes. -/
theorem Machine.Tower.le_seq {low key high : Bytes} {m : Machine} {a b c d n : ℕ} {rest : List Write}
    (h : Tower crc32c (Straddling low key high) (tiers a b c d) m)
    (history : m.history = List.replicate n (longWrite key) ++ rest) (neLow : low ≠ key)
    (neHigh : high ≠ key) {i : ℕ} (above : i < 2) {f : SSTFile VLogEntryInfo}
    (hf : f ∈ levelAt m.store.levels i) {e : Entry VLogEntryInfo} (he : e ∈ f.entries) :
    n ≤ e.key.seq := by
  obtain ⟨d, hd, -, -, -, -, hallowed⟩ := h.points i f hf
  rw [hd, List.mem_singleton] at he
  subst he
  have hother : e.key.userKey ≠ key := by
    rcases hallowed with ⟨-, hu | hu⟩ | ⟨htwo, -⟩
    · exact hu ▸ neLow
    · exact hu ▸ neHigh
    · omega
  obtain ⟨w, hw, hkey⟩ := (accounted_of_reachable h.reached).sound e
    (.inr (.inr ⟨i, f, hf, hd ▸ List.mem_singleton_self e⟩))
  refine not_lt.mp fun hlt => hother ?_
  rw [history, List.getElem?_append_left (by rwa [List.length_replicate]),
    List.getElem?_replicate, if_pos hlt] at hw
  rw [hkey, ← Option.some.inj hw]
  rfl

/-- **A recursion that comes to no level at which nothing is selected**, without an error and with a
hundred and twelve entries: the merge of level 1 leaves a hundred and one tables in level 2, and none
are below. -/
theorem not_turns_end : ¬ ∀ s : Store, totalEntries s.levels < 10 ^ 9 → NonemptyTables s.levels →
    s.NoError crc32cCastagnoli →
      ∃ level s₁, s.Turn crc32cCastagnoli level s₁ ∧ pickCompaction s₁.levels level = none := by
  intro claim
  have hbelow : (0 : Byte) :: longKey < 1 :: longKey := List.cons_lt_cons_iff.mpr (.inl (by decide))
  have habove : (1 : Byte) :: longKey < 2 :: longKey := List.cons_lt_cons_iff.mpr (.inl (by decide))
  obtain ⟨m, h, hhist⟩ :=
    Machine.Tower.straddled_full crc32cCastagnoli (isLong_cons_longKey 0) (isLong_cons_longKey 1) (isLong_cons_longKey 2)
  have hcount : m.history.length = 112 := by
    simp only [hhist, List.length_append, List.length_replicate]
  -- The first eleven writes expire.
  have hexpire : Machine.Step crc32cCastagnoli m (.expireAt 10)
      { m with store := { m.store with lastLivingSequence := 11 } } := by
    refine .expireAt ?_
    simp only [Store.expireAt, (accounted_of_reachable h.reached).length.trans hcount, h.live]
    rfl
  have hreached := h.reached.step (a := .expireAt 10) ⟨trivial, trivial⟩ hexpire
  obtain ⟨level, s', hends, hnone⟩ := claim { m.store with lastLivingSequence := 11 }
    (lt_of_le_of_lt h.totalEntries_le (by decide)) h.nonempty
    (noError_of_reachable hreached h.resting.idle (h.size 0).ge h.short)
  -- The turn of level 0.
  obtain ⟨info, hpicked, hlevel, hold⟩ := h.picked (i := 0) (.inl ⟨rfl, le_rfl⟩)
  obtain ⟨s, hstep, h', -⟩ := h.compact0 straddling_down
  have hwork : m.store.compactLevel crc32cCastagnoli 0 = .ok s := by
    cases hstep with
    | compact _ ok => exact ok
  have halive : ∀ e ∈ info.inputs.flatten,
      m.store.lastLivingSequence ≤ e.key.seq ∧ 11 ≤ e.key.seq := by
    intro e he
    have p : Picked m.store.levels m.store.fileno info := ⟨h.numbered, by rw [hlevel]; exact hpicked⟩
    obtain ⟨f, hf, he⟩ := mem_inputs.mp he
    have hseq : 96 ≤ e.key.seq := by
      rw [List.append_assoc, List.append_assoc] at hhist
      rcases p.mem_input hf with hf | hf
      · exact h.le_seq hhist hbelow.ne habove.ne' (by omega) hf he
      · exact h.le_seq hhist hbelow.ne habove.ne' (by omega) hf he
    exact ⟨h.live.le.trans (Nat.zero_le _), by omega⟩
  have hraised : Store.compactLevel crc32cCastagnoli { m.store with lastLivingSequence := 11 } 0
      = .ok { s with lastLivingSequence := 11 } := Store.compactLevel_raised hpicked halive hwork
  have hfirst : Store.Turn crc32cCastagnoli { m.store with lastLivingSequence := 11 } 1
      { s with lastLivingSequence := 11 } := .next .start hpicked hraised
  -- The turn of level 1.
  obtain ⟨info', s₂, -, hpicked', hwork', htwo, hthree⟩ := h'.hundred_one hcount
    (by simp [hhist]) (by simp [hhist]) hbelow habove
  have hsecond := hfirst.next hpicked' hwork'
  refine hends.not_picksAlone hnone hsecond ⟨.inr le_rfl, ?_⟩
  obtain ⟨f, fs, hcons⟩ := List.exists_cons_of_length_pos
    (show 0 < (levelAt s₂.levels 2).length by rw [htwo]; exact Nat.succ_pos 100)
  have hnum : pickSSTFileNum s₂.levels 2 = 1 := pickSSTFileNum_of_ge (d := 1) (by decide) htwo
  refine ⟨f, ?_, fun g hg => ?_⟩
  · show (levelAt s₂.levels 2).take (pickSSTFileNum s₂.levels 2) = [f]
    rw [hnum, hcons]
    rfl
  · rw [show (0 : ℕ) + 1 + 1 + 1 = 3 from rfl, hthree] at hg
    exact absurd hg List.not_mem_nil

end Bounds

end Lsmkv
