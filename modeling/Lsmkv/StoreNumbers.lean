import Lsmkv.FileNumbers
import Lsmkv.SeqOrder

/-!
# The table numbers of a store

`Lsmkv.FileNumbers` follows the counter and the numbers of the tables through every call of the
background thread.  The store of `Lsmkv.Run` flushes and compacts in one step each.  Whatever it
does, its counter and the numbers of its tables are those of a state at rest that
`FileNumbers` reaches (`FileNumbers.mirrors_of_reachable`).
-/

namespace Lsmkv

namespace FileNumbers

open ByteCode

/-! ## Several steps -/

/-- The background thread goes on from a state to another one. -/
def Steps : State → State → Prop := Relation.ReflTransGen fun s s' => ∃ e, Step s e s'

/-- A level has a table with the number. -/
def State.Has (s : State) (i n : ℕ) : Prop := ∃ slot ∈ s.levels i, slot.key = n

section Steps

variable {s s' s'' : State} {e : Event} {level : ℕ} {old overlap metas : List ℕ}
  {newFiles : List Output}

theorem Steps.first (taken : Step s e s') (rest : Steps s' s'') : Steps s s'' :=
  Relation.ReflTransGen.head ⟨e, taken⟩ rest

theorem Steps.last (first : Steps s s') (taken : Step s' e s'') : Steps s s'' :=
  Relation.ReflTransGen.tail first ⟨e, taken⟩

theorem Steps.trans (first : Steps s s') (rest : Steps s' s'') : Steps s s'' :=
  Relation.ReflTransGen.trans first rest

theorem Reachable.steps (reached : Reachable s) (steps : Steps s s') : Reachable s' := by
  induction steps with
  | refl => exact reached
  | tail _ taken ih =>
      obtain ⟨e, hstep⟩ := taken
      exact ih.step hstep

theorem not_free {l : List Slot} {n : ℕ} : ¬ Free l n ↔ ∃ slot ∈ l, slot.key = n := by
  simp [Free]

theorem has_erase (s : State) (level n i k : ℕ) (w : Work) :
    State.Has { s.setLevel level (erase (s.levels level) n) with work := w } i k ↔
      s.Has i k ∧ (i = level → k ≠ n) := by
  simp only [State.Has, setLevel_levels]
  by_cases hi : i = level
  · subst hi
    simp only [if_true, mem_erase, true_implies]
    exact ⟨fun ⟨slot, ⟨hmem, hne⟩, hkey⟩ => ⟨⟨slot, hmem, hkey⟩, hkey ▸ hne⟩,
      fun ⟨⟨slot, hmem, hkey⟩, hne⟩ => ⟨slot, ⟨hmem, hkey ▸ hne⟩, hkey⟩⟩
  · simp [hi]

theorem has_emplace (s : State) (level n v i k : ℕ) (w : Work) :
    State.Has { s.setLevel level (emplace (s.levels level) ⟨n, v⟩) with work := w } i k ↔
      s.Has i k ∨ (i = level ∧ k = n) := by
  simp only [State.Has, setLevel_levels]
  by_cases hi : i = level
  · subst hi
    simp only [if_true, emplace, true_and]
    split
    · simp [or_comm, eq_comm]
    · rename_i hfree
      refine ⟨.inl, ?_⟩
      rintro (h | rfl)
      · exact h
      · exact not_free.mp hfree
  · simp [hi]

/-- Tables are built, one after the other. -/
theorem steps_build (k : ℕ) : ∀ {s : State} {newFiles : List Output},
    s.work = .merge ⟨level, old, overlap, none, false, newFiles⟩ →
    Steps s { s with
      fileno := s.fileno + k
      work := .merge ⟨level, old, overlap, none, false,
        newFiles ++ (List.range' s.fileno k).map fun n => ⟨n, n⟩⟩ } := by
  induction k with
  | zero =>
      intro s newFiles here
      obtain ⟨fileno, levels, work⟩ := s
      obtain rfl : work = _ := here
      rw [List.range'_zero, List.map_nil, List.append_nil]
      exact .refl
  | succ k ih =>
      intro s newFiles here
      refine (Steps.first (.openFile here rfl)) (Steps.first (.finish rfl rfl) ?_)
      have hrest := ih (s := { s with
        fileno := s.fileno + 1
        work := .merge ⟨level, old, overlap, none, false, newFiles ++ [⟨s.fileno, s.fileno⟩]⟩ }) rfl
      rw [List.append_assoc] at hrest
      rw [List.range'_succ, List.map_cons, show s.fileno + (k + 1) = s.fileno + 1 + k by omega]
      exact hrest

/-- Tables are removed from a level, one after the other. -/
theorem steps_remove (level : ℕ) (work : List ℕ → Work)
    (step : ∀ {s : State} {n : ℕ} {rest : List ℕ}, s.work = work (n :: rest) → s.Has level n →
      Step s .silent { s.setLevel level (erase (s.levels level) n) with work := work rest })
    (numbers : List ℕ) : ∀ {s : State}, s.work = work numbers → numbers.Nodup →
    (∀ n ∈ numbers, s.Has level n) → ∃ s', Steps s s' ∧ s'.work = work [] ∧ s'.fileno = s.fileno ∧
      ∀ i n, s'.Has i n ↔ s.Has i n ∧ (i = level → n ∉ numbers) := by
  induction numbers with
  | nil => exact fun here _ _ => ⟨_, .refl, here, rfl, by simp⟩
  | cons n rest ih =>
      intro s here nodup all
      obtain ⟨hout, hnodup⟩ := List.nodup_cons.mp nodup
      have hhas := has_erase s level n
      obtain ⟨s', hsteps, hwork, hfileno, hnumbers⟩ := ih
        (s := { s.setLevel level (erase (s.levels level) n) with work := work rest }) rfl hnodup
        fun k hk => (hhas _ _ _).mpr
          ⟨all k (List.mem_cons_of_mem _ hk), fun _ => ne_of_mem_of_not_mem hk hout⟩
      refine ⟨s', Steps.first (step here (all n List.mem_cons_self)) hsteps, hwork, hfileno,
        fun i k => ?_⟩
      rw [hnumbers, hhas, List.mem_cons, not_or]
      tauto

/-- Tables are added to the next level, one after the other. -/
theorem steps_add (newFiles : List Output) : ∀ {s : State},
    s.work = .replace level [] [] newFiles → ∃ s', Steps s s' ∧ s'.work = .replace level [] [] [] ∧
      s'.fileno = s.fileno ∧
      ∀ i n, s'.Has i n ↔ s.Has i n ∨ (i = level + 1 ∧ n ∈ newFiles.map Output.number) := by
  induction newFiles with
  | nil => exact fun here => ⟨_, .refl, here, rfl, by simp⟩
  | cons f rest ih =>
      intro s here
      obtain ⟨s', hsteps, hwork, hfileno, hnumbers⟩ := ih (s := { s.setLevel (level + 1)
        (emplace (s.levels (level + 1)) ⟨f.number, f.number⟩) with
          work := .replace level [] [] rest }) rfl
      refine ⟨s', Steps.first (.addFile here) hsteps, hwork, hfileno, fun i n => ?_⟩
      rw [hnumbers, has_emplace, List.map_cons, List.mem_cons]
      tauto

/-- Tables are moved to the next level, one after the other. -/
theorem steps_move (metas : List ℕ) : ∀ {s : State}, s.work = .move level metas → metas.Nodup →
    (∀ n ∈ metas, s.Has level n) → ∃ s', Steps s s' ∧ s'.work = .move level [] ∧
      s'.fileno = s.fileno ∧ ∀ i n, s'.Has i n ↔
        (s.Has i n ∧ (i = level → n ∉ metas)) ∨ (i = level + 1 ∧ n ∈ metas) := by
  induction metas with
  | nil => exact fun here _ _ => ⟨_, .refl, here, rfl, by simp⟩
  | cons n rest ih =>
      intro s here nodup all
      obtain ⟨hout, hnodup⟩ := List.nodup_cons.mp nodup
      obtain ⟨slot, hslot, rfl⟩ := all n List.mem_cons_self
      -- `MoveFiles` first emplaces in the next level, which leaves this one alone.
      set s₁ : State :=
        s.setLevel (level + 1) (emplace (s.levels (level + 1)) ⟨slot.key, slot.number⟩)
      have hlevel : s₁.levels level = s.levels level := by
        rw [setLevel_levels, if_neg (Nat.succ_ne_self level).symm]
      have hhas : ∀ i k, State.Has { s₁.setLevel level (erase (s.levels level) slot.key) with
          work := .move level rest } i k ↔
            (s.Has i k ∨ (i = level + 1 ∧ k = slot.key)) ∧ (i = level → k ≠ slot.key) := by
        intro i k
        rw [← hlevel, has_erase]
        exact and_congr_left' (has_emplace s (level + 1) slot.key slot.number i k s.work)
      obtain ⟨s', hsteps, hwork, hfileno, hnumbers⟩ := ih
        (s := { s₁.setLevel level (erase (s.levels level) slot.key) with work := .move level rest })
        rfl hnodup fun k hk => (hhas _ _).mpr
          ⟨.inl (all k (List.mem_cons_of_mem _ hk)), fun _ => ne_of_mem_of_not_mem hk hout⟩
      refine ⟨s', Steps.first (.moveFile here hslot) hsteps, hwork, hfileno, fun i k => ?_⟩
      rw [hnumbers, hhas, List.mem_cons, not_or]
      by_cases hi : i = level
      · subst hi
        simp only [Nat.left_eq_add, one_ne_zero, false_and, or_false, ne_eq, forall_const]
        tauto
      · simp only [hi, false_implies, and_true]
        tauto

end Steps

/-! ## The store -/

/-- **A state at rest for a store**: it has the counter, and in each level the numbers of the
tables. -/
structure Mirrors (s : State) (levels : List (Level VLogEntryInfo)) (fileno : ℕ) : Prop where
  idle : s.work = .idle
  fileno : s.fileno = fileno
  numbers : ∀ i n, s.Has i n ↔ ∃ f ∈ levelAt levels i, f.fileNumber = n

section Store

variable {s : State} {levels : List (Level VLogEntryInfo)} {fileno fileno' live : ℕ}
  {crc32c : Bytes → ℕ} {w : VLogWork} {info : CompactInfo VLogEntryInfo} {r : CompactionResult}
  {new : List (SSTFile VLogEntryInfo)}

/-- Tables of a level can be picked. -/
theorem Mirrors.metas (h : Mirrors s levels fileno)
    (keys : ∀ i, ∀ slot ∈ s.levels i, slot.key = slot.number) {i : ℕ}
    {files : List (SSTFile VLogEntryInfo)} (sub : ∀ f ∈ files, f ∈ levelAt levels i) :
    (∀ n ∈ files.map (·.fileNumber), s.Has i n) ∧ s.Metas i (files.map (·.fileNumber)) := by
  have hall : ∀ n ∈ files.map (·.fileNumber), s.Has i n := by
    intro n hn
    obtain ⟨f, hf, rfl⟩ := List.mem_map.mp hn
    exact (h.numbers i _).mpr ⟨f, sub f hf, rfl⟩
  refine ⟨hall, fun n hn => ?_⟩
  obtain ⟨slot, hslot, rfl⟩ := hall n hn
  exact ⟨slot, hslot, (keys i slot hslot).symm⟩

/-- Numbers are taken and not used. -/
theorem Mirrors.skip (h : Mirrors s levels fileno) (le : fileno ≤ fileno') :
    ∃ s', Steps s s' ∧ Mirrors s' levels fileno' := by
  -- A compaction that finishes so many tables, and fails.
  have hbuild := steps_build (fileno' - fileno) (s := { s with
    work := .merge ⟨0, [], [], none, false, []⟩ }) rfl
  refine ⟨_, (Steps.first (.pickMerge h.idle (by simp [State.Metas]) (by simp [State.Metas])
    (by simp [Moves])) hbuild).last (.mergeFails rfl), rfl, ?_, h.numbers⟩
  show s.fileno + (fileno' - fileno) = fileno'
  rw [h.fileno, Nat.add_sub_cancel' le]

/-- A table is flushed. -/
theorem Mirrors.flush (h : Mirrors s levels fileno) (numbered : Lsmkv.Numbered levels fileno)
    {t : SSTFile VLogEntryInfo} (number : t.fileNumber = fileno) :
    ∃ s', Steps s s' ∧
      Mirrors s' (setLevel levels 0 (Lsmkv.emplace t (levelAt levels 0))) (fileno + 1) := by
  refine ⟨_, Steps.first (.create h.idle) (Steps.first (.tableBuilt rfl)
    (Steps.first (.setNumber rfl) (Steps.first (.addTable rfl) .refl))), rfl,
    congrArg (· + 1) h.fileno, fun i n => ?_⟩
  rw [has_emplace]
  show s.Has i n ∨ _ ↔ _
  rw [h.numbers, h.fileno]
  simp only [mem_levelAt_flush numbered number]
  constructor
  · rintro (⟨f, hf, hn⟩ | ⟨hi, hn⟩)
    · exact ⟨f, .inr hf, hn⟩
    · exact ⟨t, .inl ⟨hi, rfl⟩, number.trans hn.symm⟩
  · rintro ⟨f, ⟨hi, rfl⟩ | hf, hn⟩
    · exact .inr ⟨hi, hn.symm.trans number⟩
    · exact .inl ⟨f, hf, hn⟩

/-- The numbers behind a compaction. -/
theorem numbers_replaced (p : Picked levels fileno info)
    (h : Compaction crc32c live fileno w info r new) (j n : ℕ) :
    (∃ f ∈ levelAt (replaceFiles levels info new) j, f.fileNumber = n) ↔
      ((∃ f ∈ levelAt levels j, f.fileNumber = n) ∧
        (j = info.level → n ∉ info.oldFiles.map (·.fileNumber)) ∧
        (j = info.level + 1 → n ∉ info.overlapFiles.map (·.fileNumber))) ∨
      (j = info.level + 1 ∧ n ∈ new.map (·.fileNumber)) := by
  -- In its level, a table is told by its number.
  have hout : ∀ {files : List (SSTFile VLogEntryInfo)} {f : SSTFile VLogEntryInfo},
      (∀ g ∈ files, g ∈ levelAt levels j) → f ∈ levelAt levels j →
      (f ∉ files ↔ f.fileNumber ∉ files.map (·.fileNumber)) := by
    intro files f hfiles hf
    refine not_congr ⟨fun hmem => List.mem_map_of_mem hmem, fun hmem => ?_⟩
    obtain ⟨g, hg, heq⟩ := List.mem_map.mp hmem
    exact eq_of_number_eq (p.numbered.ascending j) (hfiles g hg) hf heq ▸ hg
  have hold : ∀ {f}, f ∈ levelAt levels j → j = info.level →
      (f ∉ info.oldFiles ↔ f.fileNumber ∉ info.oldFiles.map (·.fileNumber)) :=
    fun hf hj => hout (fun g hg => hj ▸ p.mem_old hg) hf
  have hoverlap : ∀ {f}, f ∈ levelAt levels j → j = info.level + 1 →
      (f ∉ info.overlapFiles ↔ f.fileNumber ∉ info.overlapFiles.map (·.fileNumber)) :=
    fun hf hj => hout (fun g hg => hj ▸ (p.mem_overlap.mp hg).1) hf
  constructor
  · rintro ⟨f, hf, rfl⟩
    rcases (p.mem_level h).mp hf with ⟨hj, hf⟩ | ⟨hf, hstay, hstay'⟩
    · exact .inr ⟨hj, List.mem_map_of_mem hf⟩
    · exact .inl ⟨⟨f, hf, rfl⟩, fun hj => (hold hf hj).mp (hstay hj),
        fun hj => (hoverlap hf hj).mp (hstay' hj)⟩
  · rintro (⟨⟨f, hf, rfl⟩, hstay, hstay'⟩ | ⟨hj, hn⟩)
    · exact ⟨f, (p.mem_level h).mpr (.inr ⟨hf, fun hj => (hold hf hj).mpr (hstay hj),
        fun hj => (hoverlap hf hj).mpr (hstay' hj)⟩), rfl⟩
    · obtain ⟨f, hf, rfl⟩ := List.mem_map.mp hn
      exact ⟨f, (p.mem_level h).mpr (.inl ⟨hj, hf⟩), rfl⟩

/-- The tables of a level have different numbers. -/
theorem nodup_numbers {i : ℕ} {files : List (SSTFile VLogEntryInfo)}
    (numbered : Lsmkv.Numbered levels fileno) (sub : files.Sublist (levelAt levels i)) :
    (files.map (·.fileNumber)).Nodup :=
  List.pairwise_map.mpr (((numbered.ascending i).sublist sub).imp fun hlt => hlt.ne)

/-- **A compaction** is a way of the background thread, from one state at rest to another. -/
theorem Mirrors.compact (h : Mirrors s levels fileno)
    (keys : ∀ i, ∀ slot ∈ s.levels i, slot.key = slot.number) (p : Picked levels fileno info)
    (comp : Compaction crc32c live fileno w info r new) :
    ∃ s', Steps s s' ∧ Mirrors s' (replaceFiles levels info new) r.fileno := by
  have hnumbers := numbers_replaced p comp
  obtain ⟨hold, holdMetas⟩ := h.metas keys fun f hf => p.mem_old hf
  obtain ⟨hoverlap, hoverlapMetas⟩ := h.metas keys fun f hf => (p.mem_overlap.mp hf).1
  have holdNodup : (info.oldFiles.map (·.fileNumber)).Nodup :=
    nodup_numbers p.numbered (by rw [p.old_eq]; exact List.take_sublist _ _)
  have hoverlapNodup : (info.overlapFiles.map (·.fileNumber)).Nodup :=
    nodup_numbers p.numbered
      (by rw [(pickCompaction_cases p.picked).2.2.2.2]; exact List.filter_sublist)
  cases comp with
  | move moves same_fileno =>
      obtain ⟨hlevel, hshallow, hnone⟩ := moves
      obtain ⟨s', hsteps, hwork, hfileno, hhas⟩ := steps_move (info.oldFiles.map (·.fileNumber))
        (s := { s with work := .move info.level (info.oldFiles.map (·.fileNumber)) }) rfl holdNodup
        hold
      refine ⟨_, (Steps.first (.pickMove h.idle holdMetas ⟨hlevel, not_le.mpr hshallow, rfl⟩)
        hsteps).last (.moved hwork), rfl, ?_, fun i n => ?_⟩
      · rw [same_fileno, ← h.fileno]
        exact hfileno
      · rw [hnumbers, ← h.numbers]
        refine (hhas i n).trans ?_
        simp [hnone, State.Has]
  | merge merges b built next_fileno =>
      obtain ⟨-, visited, hvisit, -⟩ := visit_of_built p.old_ne built
      have hcons := buildWhenCompaction_consecutive hvisit built
      have hmerges : ¬ Moves info.level (info.overlapFiles.map (·.fileNumber)) := fun hmoves =>
        merges ⟨hmoves.1, not_le.mp hmoves.2.1, List.map_eq_nil_iff.mp hmoves.2.2⟩
      -- The tables are picked and merged, ...
      have hpick := Step.pickMerge h.idle holdMetas hoverlapMetas hmerges
      have hbuild := steps_build b.newFiles.length (s := { s with
        work := .merge ⟨info.level, info.oldFiles.map (·.fileNumber),
          info.overlapFiles.map (·.fileNumber), none, false, []⟩ }) rfl
      have hbuilt := (Steps.first hpick hbuild).last (.merged rfl rfl)
      set newFiles : List Output :=
        [] ++ (List.range' s.fileno b.newFiles.length).map fun n => ⟨n, n⟩
      -- ... the old ones are removed, and the new ones are added.
      obtain ⟨s₁, hsteps₁, hwork₁, hfileno₁, hhas₁⟩ := steps_remove info.level
        (fun l => .replace info.level l (info.overlapFiles.map SSTFile.fileNumber) newFiles)
        (fun hwork hhas => .removeOld hwork (not_free.mpr hhas)) _
        (s := { s with fileno := s.fileno + b.newFiles.length
                       work := .replace info.level (info.oldFiles.map (·.fileNumber))
                         (info.overlapFiles.map (·.fileNumber)) newFiles }) rfl holdNodup hold
      obtain ⟨s₂, hsteps₂, hwork₂, hfileno₂, hhas₂⟩ := steps_remove (info.level + 1)
        (fun l => .replace info.level [] l newFiles)
        (fun hwork hhas => .removeOverlap hwork (not_free.mpr hhas)) _ hwork₁ hoverlapNodup
        fun n hn => (hhas₁ _ _).mpr ⟨hoverlap n hn, fun hj => absurd hj (Nat.succ_ne_self _)⟩
      obtain ⟨s₃, hsteps₃, hwork₃, hfileno₃, hhas₃⟩ := steps_add newFiles hwork₂
      have hnew : newFiles.map Output.number = b.newFiles.map (·.fileNumber) := by
        rw [hcons.numbers, ← h.fileno]
        simp [newFiles, Function.comp_def]
      refine ⟨_, ((hbuilt.trans hsteps₁).trans (hsteps₂.trans hsteps₃)).last (.replaced hwork₃),
        rfl, ?_, fun i n => ?_⟩
      · rw [next_fileno, hcons.next, ← h.fileno]
        exact hfileno₃.trans (hfileno₂.trans hfileno₁)
      · rw [hnumbers, ← h.numbers, ← hnew]
        refine (hhas₃ i n).trans ?_
        rw [hhas₂, hhas₁, and_assoc]
        exact Iff.rfl

/-- **The store goes the way of its numbers.**  In every run of a store, whatever fails, there is a
state at rest that the background thread reaches, with the counter of the store and, in each level,
the numbers of its tables. -/
theorem mirrors_of_reachable {cond : Machine → Action → Prop} {m : Machine}
    (reached : Machine.Reachable crc32c cond m) :
    ∃ s, Reachable s ∧ Mirrors s m.store.levels m.store.fileno := by
  induction reached with
  | new => exact ⟨_, .new, rfl, rfl, by simp [State.Has, FileNumbers.new, Machine.new]⟩
  | @step m m' a reached _ taken ih =>
      obtain ⟨s, hs, h⟩ := ih
      have hkeys := (invariant_of_reachable hs).keys
      have hnumbered : Lsmkv.Numbered m.store.levels m.store.fileno :=
        (reached.invariant SeqOrdered.init fun h _ taken => h.step taken).numbered
      have hquiet : a.Quiet → ∃ s', Steps s s' ∧ Mirrors s' m'.store.levels m'.store.fileno := by
        intro hq
        have hsame := (taken.quiet hq).1
        rw [hsame.levels]
        exact h.skip hsame.fileno_le
      suffices hsteps : ∃ s', Steps s s' ∧ Mirrors s' m'.store.levels m'.store.fileno by
        obtain ⟨s', hsteps, h'⟩ := hsteps
        exact ⟨s', hs.steps hsteps, h'⟩
      cases taken with
      | write ok =>
          obtain ⟨-, -, hlevels, hfileno, -⟩ := Store.writeImpl_fields ok
          exact ⟨s, .refl, by rwa [hlevels, hfileno]⟩
      | handOver ok =>
          obtain ⟨-, rfl⟩ := Store.handOver_cases ok
          exact ⟨s, .refl, h⟩
      | flush idle full ok =>
          obtain ⟨e₀, es, -, rfl⟩ := Store.writeLevel0Table_cases ok
          exact h.flush hnumbered rfl
      | clearImm done => exact ⟨s, .refl, h⟩
      | compact idle ok =>
          rcases Store.compactLevel_cases ok hnumbered with
            rfl | ⟨info, r, new, -, p, hcomp, hlevels, rfl⟩
          · exact ⟨s, .refl, h⟩
          · rw [hlevels]
            exact h.compact hkeys p hcomp
      | _ => exact hquiet trivial

end Store

end FileNumbers

end Lsmkv
