import Lsmkv.KeptTables
import Lsmkv.SeqOrder

/-!
# No acknowledged write is lost

A write is held, under its key, by the memtable, the immutable memtable or a table of a
level, until it expires, and what is held under it resolves to its value.

Two things can lose a value: an entry can be dropped when it changes places, and the value
log it points into can be deleted.  The first is a matter of keys (`Accounted`).  For the
second, value logs have owners: a table in the levels from `kCompactionVLogLevel` on owns
the log it names and points nowhere else, and all other entries point into logs that the
writer opened and that nobody deletes (`VLogsOwned`).
-/

namespace Lsmkv

open ByteCode Files

variable {crc32c : Bytes → ℕ}

/-! ## The values of a compaction -/

section Compaction

variable {live fileno : ℕ} {w : VLogWork} {info : CompactInfo VLogEntryInfo} {r : CompactionResult}
  {new : List (SSTFile VLogEntryInfo)}

/-- **What a compaction does to the owners of value logs**, whatever it read.  Above the
levels that own value logs it keeps the locations, and a new table owns no log; below, each
new table owns a new log. -/
theorem Compaction.owners (h : Compaction crc32c live fileno w info r new)
    (ne : info.oldFiles ≠ []) (base : w.Base w.vlogs w.lastVlogFileNo) :
    r.work.Base w.vlogs w.lastVlogFileNo ∧
    (info.level + 1 < kCompactionVLogLevel → ∀ n ∈ new, (n.vlogFileNo = 0 ∨ n ∈ info.oldFiles) ∧
      ∀ e' ∈ n.entries, e'.key.type = .kTypeValue →
        ∃ f ∈ info.oldFiles ++ info.overlapFiles, ∃ e ∈ f.entries, e'.key = e.key ∧ e'.value = e.value) ∧
    (kCompactionVLogLevel ≤ info.level + 1 →
      (∀ n ∈ new, w.lastVlogFileNo ≤ n.vlogFileNo ∧ n.vlogFileNo < r.work.lastVlogFileNo ∧
        ∀ e ∈ n.entries, e.key.type = .kTypeValue → e.value.fileNo = n.vlogFileNo) ∧
      new.Pairwise fun f g => f.vlogFileNo < g.vlogFileNo) := by
  cases h with
  | move moves same_fileno same_work =>
      rw [same_work]
      refine ⟨base, fun _ n hn => ⟨.inr hn, fun e he _ => ?_⟩,
        fun hdeep => absurd moves.2.1 (not_lt.mpr hdeep)⟩
      exact ⟨n, List.mem_append_left _ hn, e, he, rfl, rfl⟩
  | merge merges b built =>
      obtain ⟨htwo, visited', hvisit', hperm⟩ := visit_of_built ne built
      by_cases hdeep : kCompactionVLogLevel ≤ info.level + 1
      · rw [decide_eq_true hdeep] at built
        obtain ⟨-, hown⟩ := buildWhenCompaction_owning base built
        exact ⟨hown.base, fun hshallow => absurd hdeep (not_le.mpr hshallow),
          fun _ => ⟨hown.owned, hown.ascending⟩⟩
      · rw [decide_eq_false hdeep] at built
        obtain ⟨b', visited, hvisit, hok, hout, hcarried⟩ :=
          buildWhenCompaction_carried crc32c w live fileno htwo
        obtain rfl : visited = visited' := Option.some.inj (hvisit.symm.trans hvisit')
        obtain ⟨rfl, hw⟩ : b' = b ∧ w = r.work := by
          simpa using Outcome.ok.inj (hok.symm.trans built)
        rw [← hw]
        refine ⟨base, fun _ n hn => ⟨.inl (hcarried.noVlog n hn), fun e' he' htype => ?_⟩,
          fun hdeep' => absurd hdeep' hdeep⟩
        have hmem : e' ∈ b'.written :=
          List.mem_append_left _ (List.mem_flatMap.mpr ⟨n, hn, he'⟩)
        obtain ⟨e, he, hrew⟩ := exists_of_forall₂ hcarried.written hmem
        obtain ⟨f, hf, hef⟩ := mem_inputs.mp (hperm.mem_iff.mp (List.mem_filter.mp he).1)
        exact ⟨f, hf, e, hef, hrew.key, hrew.kept rfl (hrew.key ▸ htype)⟩

/-- **What a compaction writes resolves to what it read**, if everything it reads can be
read. -/
theorem Compaction.values (h : Compaction crc32c live fileno w info r new)
    (ne : info.oldFiles ≠ []) (base : w.Base w.vlogs w.lastVlogFileNo)
    (readable : ∀ f ∈ info.oldFiles ++ info.overlapFiles, ∀ e ∈ f.entries, live ≤ e.key.seq →
      Readable crc32c w.vlogs e) :
    ∀ n ∈ new, ∀ e' ∈ n.entries, ∃ f ∈ info.oldFiles ++ info.overlapFiles, ∃ e ∈ f.entries,
      e'.key = e.key ∧
      (e.key.type = .kTypeValue → ∀ v, Resolves crc32c w.vlogs e.value e.key v →
        Resolves crc32c r.work.vlogs e'.value e.key v) := by
  cases h with
  | move moves same_fileno same_work =>
      intro n hn e he
      rw [same_work]
      exact ⟨n, List.mem_append_left _ hn, e, he, rfl, fun _ v hv => hv⟩
  | merge merges b built =>
      obtain ⟨htwo, visited', hvisit', hperm⟩ := visit_of_built ne built
      obtain ⟨buildVlog, hwritten⟩ : ∃ buildVlog, List.Forall₂
          (RewrittenTo crc32c buildVlog w.vlogs r.work.vlogs) b.written
          (visited'.filter fun e => decide (live ≤ e.key.seq)) := by
        by_cases hdeep : kCompactionVLogLevel ≤ info.level + 1
        · rw [decide_eq_true hdeep] at built
          have hread : ∀ e ∈ info.inputs.flatten, live ≤ e.key.seq →
              Readable crc32c w.vlogs e := by
            intro e he hlive
            obtain ⟨f, hf, he⟩ := mem_inputs.mp he
            exact readable f hf e he hlive
          obtain ⟨b', w', visited, hvisit, hok, hout, hcomp⟩ :=
            buildWhenCompaction_compacted crc32c fileno htwo base hread
          obtain rfl : visited = visited' := Option.some.inj (hvisit.symm.trans hvisit')
          obtain ⟨rfl, hw⟩ : b' = b ∧ w' = r.work := by
            simpa using Outcome.ok.inj (hok.symm.trans built)
          exact ⟨true, hw ▸ hcomp.written⟩
        · rw [decide_eq_false hdeep] at built
          obtain ⟨b', visited, hvisit, hok, hout, hcarried⟩ :=
            buildWhenCompaction_carried crc32c w live fileno htwo
          obtain rfl : visited = visited' := Option.some.inj (hvisit.symm.trans hvisit')
          obtain ⟨rfl, hw⟩ : b' = b ∧ w = r.work := by
            simpa using Outcome.ok.inj (hok.symm.trans built)
          exact ⟨false, hw ▸ hcarried.written⟩
      intro n hn e' he'
      have hmem : e' ∈ b.written :=
        List.mem_append_left _ (List.mem_flatMap.mpr ⟨n, hn, he'⟩)
      obtain ⟨e, he, hrew⟩ := exists_of_forall₂ hwritten hmem
      obtain ⟨f, hf, hef⟩ := mem_inputs.mp (hperm.mem_iff.mp (List.mem_filter.mp he).1)
      exact ⟨f, hf, e, hef, hrew.key, hrew.value⟩

/-- The value logs that a compaction deletes belong to its inputs. -/
theorem CompactInfo.mem_rmVlogFiles {n : ℕ} (h : n ∈ info.rmVlogFiles) :
    (kCompactionVLogLevel ≤ info.level ∧ ∃ f ∈ info.oldFiles, f.vlogFileNo = n) ∨
      (kCompactionVLogLevel ≤ info.level + 1 ∧ ∃ f ∈ info.overlapFiles, f.vlogFileNo = n) := by
  rcases List.mem_append.mp h with h | h
  · split at h
    · rename_i hdeep
      exact .inl ⟨hdeep, List.mem_map.mp h⟩
    · simp at h
  · split at h
    · rename_i hdeep
      exact .inr ⟨hdeep, List.mem_map.mp h⟩
    · simp at h

/-- The only new task deletes the inputs of a merge. -/
theorem Compaction.mem_tasks (h : Compaction crc32c live fileno w info r new)
    {tasks : List (List ℕ × List ℕ)} {task : List ℕ × List ℕ}
    (hmem : task ∈ if r.rmSstFiles.isEmpty then tasks
      else tasks ++ [(r.rmSstFiles, r.rmVlogFiles)]) :
    task ∈ tasks ∨ ¬ info.Moves ∧ task = (info.rmSstFiles, info.rmVlogFiles) := by
  cases h with
  | move moves same_fileno same_work keep_sst =>
      rw [keep_sst] at hmem
      exact .inl hmem
  | merge merges b built next_fileno rm_sst rm_vlog =>
      rw [rm_sst, rm_vlog] at hmem
      split at hmem
      · exact .inl hmem
      · simpa [merges] using hmem

end Compaction

/-! ## The owners of value logs -/

namespace Store

/-- No table owns the value log, and no task will delete it. -/
def Main (s : Store) (n : ℕ) : Prop :=
  (∀ i, kCompactionVLogLevel ≤ i → ∀ f ∈ levelAt s.levels i, f.vlogFileNo ≠ n) ∧
    ∀ task ∈ s.tasks, n ∉ task.2

/-- The entries outside the levels that own value logs. -/
def HoldsMain (s : Store) (e : Entry VLogEntryInfo) : Prop :=
  e ∈ s.mem.entries ∨ (∃ imm, s.imm = some imm ∧ e ∈ imm.entries) ∨
    ∃ i, i < kCompactionVLogLevel ∧ ∃ f ∈ levelAt s.levels i, e ∈ f.entries

/-- **The owners of value logs.** -/
structure VLogsOwned (s : Store) : Prop where
  wf : s.vlogs.WellFormed
  fresh : ∀ n, s.lastVlogFileNo ≤ n → s.vlogs.inode n = none
  isOpen : ∃ t, s.vlog.IsOpen s.vlogs t
  open_lt : s.vlog.fileNo < s.lastVlogFileNo
  open_main : s.Main s.vlog.fileNo
  owned_lt : ∀ i, kCompactionVLogLevel ≤ i → ∀ f ∈ levelAt s.levels i,
    f.vlogFileNo < s.lastVlogFileNo
  owned_entries : ∀ i, kCompactionVLogLevel ≤ i → ∀ f ∈ levelAt s.levels i, ∀ e ∈ f.entries,
    e.key.type = .kTypeValue → e.value.fileNo = f.vlogFileNo
  owned_once : ∀ i j, kCompactionVLogLevel ≤ i → kCompactionVLogLevel ≤ j →
    ∀ f ∈ levelAt s.levels i, ∀ g ∈ levelAt s.levels j, f.vlogFileNo = g.vlogFileNo → i = j ∧ f = g
  owned_safe : ∀ i, kCompactionVLogLevel ≤ i → ∀ f ∈ levelAt s.levels i, ∀ task ∈ s.tasks,
    f.vlogFileNo ∉ task.2
  doomed_lt : ∀ task ∈ s.tasks, ∀ n ∈ task.2, n < s.lastVlogFileNo
  main_entries : ∀ e, s.HoldsMain e → e.key.type = .kTypeValue →
    e.value.fileNo < s.lastVlogFileNo ∧ s.Main e.value.fileNo

theorem HoldsMain.holds {s : Store} {e : Entry VLogEntryInfo} (h : s.HoldsMain e) : s.Holds e := by
  rcases h with h | h | ⟨i, -, f, hf, he⟩
  · exact .inl h
  · exact .inr (.inl h)
  · exact .inr (.inr ⟨i, f, hf, he⟩)

/-- The value log of every value that is held has a number that is used. -/
theorem VLogsOwned.log_lt {s : Store} (h : s.VLogsOwned) {e : Entry VLogEntryInfo}
    (held : s.Holds e) (type : e.key.type = .kTypeValue) : e.value.fileNo < s.lastVlogFileNo := by
  rcases held with he | he | ⟨i, f, hf, he⟩
  · exact (h.main_entries e (.inl he) type).1
  · exact (h.main_entries e (.inr (.inl he)) type).1
  · by_cases hi : i < kCompactionVLogLevel
    · exact (h.main_entries e (.inr (.inr ⟨i, hi, f, hf, he⟩)) type).1
    · rw [h.owned_entries i (not_lt.mp hi) f hf e he type]
      exact h.owned_lt i (not_lt.mp hi) f hf

/-- No task deletes the value log of an entry that is held. -/
theorem VLogsOwned.not_doomed {s : Store} (h : s.VLogsOwned) {e : Entry VLogEntryInfo}
    (held : s.Holds e) (htype : e.key.type = .kTypeValue) :
    ∀ task ∈ s.tasks, e.value.fileNo ∉ task.2 := by
  rcases held with he | he | ⟨i, f, hf, he⟩
  · exact (h.main_entries e (.inl he) htype).2.2
  · exact (h.main_entries e (.inr (.inl he)) htype).2.2
  · by_cases hi : i < kCompactionVLogLevel
    · exact (h.main_entries e (.inr (.inr ⟨i, hi, f, hf, he⟩)) htype).2.2
    · rw [h.owned_entries i (not_lt.mp hi) f hf e he htype]
      exact h.owned_safe i (not_lt.mp hi) f hf

/-- A store that holds nothing, with a value log that no task deletes. -/
theorem VLogsOwned.of_empty {s : Store} (mem : s.mem = .new) (imm : s.imm = none)
    (levels : ∀ i, levelAt s.levels i = []) (wf : s.vlogs.WellFormed)
    (fresh : ∀ n, s.lastVlogFileNo ≤ n → s.vlogs.inode n = none)
    (isOpen : ∃ t, s.vlog.IsOpen s.vlogs t) (open_lt : s.vlog.fileNo < s.lastVlogFileNo)
    (drained : ∀ task ∈ s.tasks, task.2 = []) : s.VLogsOwned := by
  have hdrained : ∀ task ∈ s.tasks, ∀ n, n ∉ task.2 := fun task htask n => by
    simp [drained task htask]
  refine ⟨wf, fresh, isOpen, open_lt, ⟨?_, fun task htask => hdrained task htask _⟩, ?_, ?_, ?_, ?_,
    fun task htask n hn => absurd hn (hdrained task htask n), fun e he => ?_⟩
  · intro i _ f hf
    simp [levels] at hf
  · intro i _ f hf
    simp [levels] at hf
  · intro i _ f hf
    simp [levels] at hf
  · intro i j _ _ f hf
    simp [levels] at hf
  · intro i _ f hf
    simp [levels] at hf
  · exact absurd he.holds (Store.not_holds_of_empty mem imm levels e)

theorem VLogsOwned.init : Store.new.VLogsOwned := by
  have hfresh : (Dir.empty : VLogDir).inode 0 = none := rfl
  refine .of_empty rfl rfl Store.levelAt_new (Dir.wellFormed_empty.create hfresh) (fun n hn => ?_)
    ⟨.new, VLogBuilder.isOpen_openFile hfresh⟩ Nat.zero_lt_one (by simp [Store.new])
  have hne : n ≠ 0 := Nat.one_le_iff_ne_zero.mp hn
  simp [Store.new, VLogBuilder.openFile, Dir.create, Dir.empty, hne]

/-- Steps that bring no entry from elsewhere and leave the value logs and their owners
alone. -/
theorem VLogsOwned.congr {s s' : Store} (h : s.VLogsOwned) (vlogs : s'.vlogs = s.vlogs)
    (vlog : s'.vlog = s.vlog) (last : s'.lastVlogFileNo = s.lastVlogFileNo)
    (tasks : s'.tasks = s.tasks)
    (deep : ∀ i, kCompactionVLogLevel ≤ i → levelAt s'.levels i = levelAt s.levels i)
    (held : ∀ e, s'.HoldsMain e → s.HoldsMain e) : s'.VLogsOwned := by
  have hmain : ∀ n, s.Main n → s'.Main n := by
    intro n hn
    refine ⟨fun i hi f hf => ?_, ?_⟩
    · rw [deep i hi] at hf
      exact hn.1 i hi f hf
    · rw [tasks]
      exact hn.2
  refine ⟨by rw [vlogs]; exact h.wf, by rw [vlogs, last]; exact h.fresh, ?_,
    by rw [vlog, last]; exact h.open_lt, ?_, fun i hi => ?_, fun i hi => ?_, fun i j hi hj => ?_,
    fun i hi => ?_, by rw [tasks, last]; exact h.doomed_lt, fun e he htype => ?_⟩
  · rw [vlog, vlogs]
    exact h.isOpen
  · rw [vlog]
    exact hmain _ h.open_main
  · rw [deep i hi, last]
    exact h.owned_lt i hi
  · rw [deep i hi]
    exact h.owned_entries i hi
  · rw [deep i hi, deep j hj]
    exact h.owned_once i j hi hj
  · rw [deep i hi, tasks]
    exact h.owned_safe i hi
  · obtain ⟨hlt, hn⟩ := h.main_entries e (held e he) htype
    exact ⟨last ▸ hlt, hmain _ hn⟩

/-- The new value log has a number that nobody owned and no task deletes. -/
theorem VLogsOwned.rotate {s : Store} (h : s.VLogsOwned) (crc32c : Bytes → ℕ) :
    (s.rotateVlog crc32c).VLogsOwned ∧ ∀ n, s.vlogs.Grows (s.rotateVlog crc32c).vlogs n := by
  obtain ⟨t, ht⟩ := h.isOpen
  let d := (s.vlog.close crc32c s.vlogs).2
  have hd : d = s.vlogs.write s.vlog.inode (t.finish crc32c) := by
    simp [d, VLogBuilder.close, ht.builder]
  have hwf : d.WellFormed := hd ▸ h.wf.write _ _
  have hfresh : ∀ n, s.lastVlogFileNo ≤ n → d.inode n = none := by
    intro n hn
    rw [hd]
    exact h.fresh n hn
  have hnext := hfresh _ le_rfl
  have hvlogs : (s.rotateVlog crc32c).vlogs = (d.create s.lastVlogFileNo).2 := rfl
  have hlast : (s.rotateVlog crc32c).lastVlogFileNo = s.lastVlogFileNo + 1 := rfl
  refine ⟨⟨?_, fun n hn => ?_, ⟨.new, VLogBuilder.isOpen_openFile hnext⟩, Nat.lt_succ_self _, ?_,
    fun i hi f hf => ?_, h.owned_entries, h.owned_once, h.owned_safe, fun task ht n hn => ?_,
    fun e he htype => ?_⟩, fun n => ?_⟩
  · rw [hvlogs]
    exact hwf.create hnext
  · rw [hlast] at hn
    have hne : n ≠ s.lastVlogFileNo := by omega
    rw [hvlogs, Dir.create_snd hnext]
    simpa only [Function.update_of_ne hne] using hfresh n (by omega)
  · refine ⟨fun i hi f hf => (h.owned_lt i hi f hf).ne, fun task htask hmem => ?_⟩
    exact lt_irrefl _ (h.doomed_lt task htask _ hmem)
  · exact (h.owned_lt i hi f hf).trans (Nat.lt_succ_self _)
  · exact (h.doomed_lt task ht n hn).trans (Nat.lt_succ_self _)
  · obtain ⟨hlt, hn⟩ := h.main_entries e he htype
    exact ⟨hlt.trans (Nat.lt_succ_self _), hn⟩
  · rw [hvlogs]
    exact (ht.grows_close n).trans (hwf.grows_create hnext n)

/-- A write makes an entry whose location resolves to its value, if one read is enough for
its record, and lets the value logs grow. -/
theorem VLogsOwned.write {s s' : Store} (h : s.VLogsOwned) {w : Write} {garbage : VLogEntryInfo}
    {height : ℕ} (ok : s.writeImpl crc32c w garbage height = .ok s') :
    s'.VLogsOwned ∧ (∀ n, s.vlogs.Grows s'.vlogs n) ∧
      ∃ value, s'.mem = s.mem.put (.ofWrite w.key s.lastSequence w.type) value height ∧
        (w.type = .kTypeValue →
          value.length = recordLength (.ofWrite w.key s.lastSequence w.type) w.value % 2 ^ 32 ∧
          (recordLength (.ofWrite w.key s.lastSequence w.type) w.value + kBlockTrailerSize
              ≤ maxReadBytes →
            Resolves crc32c s'.vlogs value (.ofWrite w.key s.lastSequence w.type) w.value)) := by
  obtain ⟨s₁, info, vlog, vlogs, hs₁, happend, rfl⟩ := writeImpl_cases ok
  have hsame : s₁.levels = s.levels ∧ s₁.tasks = s.tasks ∧ s₁.mem = s.mem ∧ s₁.imm = s.imm := by
    rcases hs₁ with rfl | rfl
    · exact ⟨rfl, rfl, rfl, rfl⟩
    · exact ⟨rfl, rfl, rfl, rfl⟩
  obtain ⟨hlevels, htasks, hmem, himm⟩ := hsame
  obtain ⟨h₁, hgrows₁⟩ : s₁.VLogsOwned ∧ ∀ n, s.vlogs.Grows s₁.vlogs n := by
    rcases hs₁ with rfl | rfl
    · exact ⟨h, fun n => Dir.Grows.refl _ n⟩
    · exact h.rotate crc32c
  obtain ⟨t, ht⟩ := h₁.isOpen
  obtain ⟨info', b', d', t', happend', hopen, ⟨hfile, hbinode⟩, ⟨hinode, hnext, -⟩, hgrows, hinfo,
    hlength, hrecorded⟩ := ht.append crc32c (.ofWrite w.key s.lastSequence w.type) w.value
  obtain ⟨rfl, rfl, rfl⟩ : info' = info ∧ b' = vlog ∧ d' = vlogs := by
    simpa using Outcome.ok.inj (happend'.symm.trans happend)
  refine ⟨⟨⟨?_, ?_⟩, ?_, ⟨t', hopen⟩, ?_, ?_, h₁.owned_lt, h₁.owned_entries, h₁.owned_once,
    h₁.owned_safe, h₁.doomed_lt, fun e he htype => ?_⟩, fun n => (hgrows₁ n).trans (hgrows n), _, rfl,
    fun htype => ?_⟩
  · intro n i hi
    simp only [hinode] at hi
    simp only [hnext]
    exact h₁.wf.lt_next hi
  · intro m n i hm hn
    simp only [hinode] at hm hn
    exact h₁.wf.injective hm hn
  · intro n hn
    simp only [hinode]
    exact h₁.fresh n hn
  · simp only [hfile]
    exact h₁.open_lt
  · simp only [hfile]
    exact h₁.open_main
  · rcases he with he | he
    · rcases mem_insertEntry.mp he with rfl | he
      · -- The entry of this write points into the log that is open.
        have hvalue : w.type = .kTypeValue := by simpa using htype
        simp only [hvalue, reduceCtorEq, if_false, hinfo]
        exact ⟨h₁.open_lt, h₁.open_main⟩
      · exact h₁.main_entries e (.inl (by rwa [hmem])) htype
    · exact h₁.main_entries e (.inr he) htype
  · simp only [htype, reduceCtorEq, if_false] at hlength hrecorded ⊢
    exact ⟨hlength, fun hle => (hrecorded (hle.trans_lt (by decide))).resolves hle⟩

/-- A write succeeds. -/
theorem VLogsOwned.writeImpl_isOk {s : Store} (h : s.VLogsOwned) (crc32c : Bytes → ℕ) (w : Write)
    (garbage : VLogEntryInfo) (height : ℕ) :
    ∃ s', s.writeImpl crc32c w garbage height = .ok s' := by
  have happend : ∀ {s : Store}, s.VLogsOwned → ∀ key,
      ∃ r, s.vlog.append crc32c s.vlogs key w.value = .ok r := by
    intro s hs key
    obtain ⟨t, ht⟩ := hs.isOpen
    obtain ⟨info, b', d', t', hok, -⟩ := ht.append crc32c key w.value
    exact ⟨_, hok⟩
  obtain ⟨t, ht⟩ := h.isOpen
  obtain ⟨full, hfull⟩ : ∃ full, s.vlog.full w.value.length = .ok full := by
    simp [VLogBuilder.full, ht.builder]
  simp only [writeImpl, hfull, Outcome.ok_bind]
  cases full with
  | false =>
      obtain ⟨r, hr⟩ := happend h (.ofWrite w.key s.lastSequence w.type)
      simp [hr]
  | true =>
      obtain ⟨r, hr⟩ := happend (h.rotate crc32c).1 (.ofWrite w.key s.lastSequence w.type)
      simp [hr]

/-- A compaction that fails wrote only into new value logs. -/
theorem VLogsOwned.interrupted {s s' : Store} (h : s.VLogsOwned) (left : s.Interrupted s') :
    s'.VLogsOwned ∧ ∀ n, s.vlogs.Grows s'.vlogs n := by
  obtain ⟨t, ht⟩ := h.isOpen
  have hlevels : s'.levels = s.levels := by rw [left.same]
  have htasks : s'.tasks = s.tasks := by rw [left.same]
  have hvlog : s'.vlog = s.vlog := by rw [left.same]
  have hmain : ∀ n, s.Main n → s'.Main n := by
    simp only [Main, hlevels, htasks]
    exact fun n hn => hn
  have hheld : ∀ e, s'.HoldsMain e → s.HoldsMain e := by
    rw [left.same]
    exact fun e he => he
  refine ⟨⟨left.wellFormed h.wf, left.inode_none, ⟨t, ?_⟩, ?_, ?_, ?_, ?_, ?_, ?_, ?_, ?_⟩, ?_⟩
  · rw [hvlog]
    exact ht.congr (left.inode_eq _ h.open_lt) (left.data_eq _ (h.wf.lt_next ht.inode))
  · rw [hvlog]
    exact lt_of_lt_of_le h.open_lt left.vlog_le
  · rw [hvlog]
    exact hmain _ h.open_main
  · rw [hlevels]
    exact fun i hi f hf => lt_of_lt_of_le (h.owned_lt i hi f hf) left.vlog_le
  · rw [hlevels]
    exact h.owned_entries
  · rw [hlevels]
    exact h.owned_once
  · rw [hlevels, htasks]
    exact h.owned_safe
  · rw [htasks]
    exact fun task htask n hn => lt_of_lt_of_le (h.doomed_lt task htask n hn) left.vlog_le
  · intro e he htype
    obtain ⟨hlt, hn⟩ := h.main_entries e (hheld e he) htype
    exact ⟨lt_of_lt_of_le hlt left.vlog_le, hmain _ hn⟩
  · intro n i hi
    have hlt : n < s.lastVlogFileNo := by
      by_contra hge
      rw [h.fresh n (not_lt.mp hge)] at hi
      exact absurd hi (by simp)
    rw [left.inode_eq n hlt, left.data_eq i (h.wf.lt_next hi)]
    exact ⟨hi, List.prefix_refl _⟩

/-- Deleting value logs leaves the others alone. -/
theorem unlinkList_spec {d : VLogDir} (wf : d.WellFormed) (files : List ℕ) :
    (files.foldl Dir.unlink d).WellFormed ∧ (files.foldl Dir.unlink d).data = d.data ∧
      ∀ n, (files.foldl Dir.unlink d).inode n = if n ∈ files then none else d.inode n := by
  induction files generalizing d with
  | nil => exact ⟨wf, rfl, fun n => by simp⟩
  | cons m files ih =>
      obtain ⟨hwf, hdata, hinode⟩ := ih (wf.unlink m)
      refine ⟨hwf, hdata, fun n => ?_⟩
      rw [List.foldl_cons, hinode]
      by_cases hn : n ∈ files
      · simp [hn]
      · by_cases hm : n = m
        · simp [hm, Dir.unlink]
        · simp [hn, hm, Dir.unlink]

/-- A deletion task removes value logs that no entry points into. -/
theorem VLogsOwned.runTask {s : Store} (h : s.VLogsOwned) (i : ℕ) :
    (s.runTask i).VLogsOwned ∧
      ∀ n, (∀ task ∈ s.tasks, n ∉ task.2) → s.vlogs.Grows (s.runTask i).vlogs n := by
  simp only [Store.runTask]
  split
  · exact ⟨h, fun n _ => Dir.Grows.refl _ n⟩
  · rename_i task hi
    have htask : task ∈ s.tasks := List.mem_of_getElem? hi
    have hsub : ∀ t ∈ s.tasks.eraseIdx i, t ∈ s.tasks := fun t ht => List.mem_of_mem_eraseIdx ht
    obtain ⟨hwf, hdata, hinode⟩ := unlinkList_spec h.wf task.2
    obtain ⟨t, ht⟩ := h.isOpen
    have hmain : ∀ n, s.Main n → Main { s.deleteFiles task with tasks := s.tasks.eraseIdx i } n :=
      fun n hn => ⟨hn.1, fun t ht => hn.2 t (hsub t ht)⟩
    refine ⟨⟨hwf, fun n hn => ?_, ⟨t, ht.congr ?_ (by simp only [deleteFiles, hdata])⟩, h.open_lt,
      hmain _ h.open_main, h.owned_lt, h.owned_entries, h.owned_once,
      fun j hj f hf t ht => h.owned_safe j hj f hf t (hsub t ht),
      fun t ht => h.doomed_lt t (hsub t ht), fun e he htype => ?_⟩, fun n hn j hj => ?_⟩
    · simp only [deleteFiles, hinode, h.fresh n hn, ite_self]
    · simp only [deleteFiles, hinode, if_neg (h.open_main.2 task htask)]
    · obtain ⟨hlt, hn⟩ := h.main_entries e he htype
      exact ⟨hlt, hmain _ hn⟩
    · simp only [deleteFiles, hinode, hdata, if_neg (hn task htask)]
      exact ⟨hj, List.prefix_refl _⟩

section Compact

variable {s : Store} {live : ℕ} {info : CompactInfo VLogEntryInfo} {r : CompactionResult}
  {new : List (SSTFile VLogEntryInfo)}

/-- A value log that nobody owns and nobody deletes is left so: what a compaction deletes
belonged to its inputs, and what it creates is new. -/
theorem Main.compacted (p : Picked s.levels s.fileno info)
    (comp : Compaction crc32c live s.fileno ⟨s.lastVlogFileNo, s.vlogs, .new⟩ info r new)
    (levels : (s.compacted r).levels = replaceFiles s.levels info new)
    (owned : kCompactionVLogLevel ≤ info.level + 1 → ∀ n ∈ new, s.lastVlogFileNo ≤ n.vlogFileNo)
    {n : ℕ} (hn : s.Main n) (hlt : n < s.lastVlogFileNo) : (s.compacted r).Main n := by
  refine ⟨fun i hi f hf => ?_, fun task htask hmem => ?_⟩
  · rw [levels] at hf
    rcases (p.mem_level comp).mp hf with ⟨rfl, hnf⟩ | ⟨hf, -⟩
    · have := owned hi f hnf
      omega
    · exact hn.1 i hi f hf
  · rcases comp.mem_tasks htask with htask | ⟨-, rfl⟩
    · exact hn.2 task htask hmem
    · rcases CompactInfo.mem_rmVlogFiles hmem with ⟨hdeep, f, hf, rfl⟩ | ⟨hdeep, f, hf, rfl⟩
      · exact hn.1 _ hdeep f (p.mem_old hf) rfl
      · exact hn.1 _ hdeep f (p.mem_overlap.mp hf).1 rfl

/-- The value logs that a compaction deletes were opened before it. -/
theorem VLogsOwned.rmVlogFiles_lt (h : s.VLogsOwned) (p : Picked s.levels s.fileno info) {n : ℕ}
    (hn : n ∈ info.rmVlogFiles) : n < s.lastVlogFileNo := by
  rcases CompactInfo.mem_rmVlogFiles hn with ⟨hdeep, g, hg, rfl⟩ | ⟨hdeep, g, hg, rfl⟩
  · exact h.owned_lt _ hdeep g (p.mem_old hg)
  · exact h.owned_lt _ hdeep g (p.mem_overlap.mp hg).1

/-- A table that stays in its level keeps its value log. -/
theorem VLogsOwned.kept_compacted (h : s.VLogsOwned) (p : Picked s.levels s.fileno info) {i : ℕ}
    (hi : kCompactionVLogLevel ≤ i) {f : SSTFile VLogEntryInfo} (hf : f ∈ levelAt s.levels i)
    (old : i = info.level → f ∉ info.oldFiles)
    (overlap : i = info.level + 1 → f ∉ info.overlapFiles) : f.vlogFileNo ∉ info.rmVlogFiles := by
  intro hmem
  rcases CompactInfo.mem_rmVlogFiles hmem with ⟨hdeep, g, hg, heq⟩ | ⟨hdeep, g, hg, heq⟩
  · obtain ⟨hlevel, rfl⟩ := h.owned_once _ _ hdeep hi g (p.mem_old hg) f hf heq
    exact old hlevel.symm hg
  · obtain ⟨hlevel, rfl⟩ := h.owned_once _ _ hdeep hi g (p.mem_overlap.mp hg).1 f hf heq
    exact overlap hlevel.symm hg

/-- **A compaction keeps the owners of value logs.** -/
theorem VLogsOwned.compact (h : s.VLogsOwned) (p : Picked s.levels s.fileno info)
    (comp : Compaction crc32c live s.fileno ⟨s.lastVlogFileNo, s.vlogs, .new⟩ info r new)
    (levels : (s.compacted r).levels = replaceFiles s.levels info new) :
    (s.compacted r).VLogsOwned := by
  obtain ⟨hbase, hshallow, howned⟩ := comp.owners p.old_ne (.init h.wf h.fresh)
  dsimp only at howned
  obtain ⟨t, ht⟩ := h.isOpen
  have hstart : s.lastVlogFileNo ≤ r.work.lastVlogFileNo := hbase.start_le
  -- a table of the next state is new, or was there and is no input
  have hlevel : ∀ {i f}, f ∈ levelAt (s.compacted r).levels i ↔
      (i = info.level + 1 ∧ f ∈ new) ∨
      (f ∈ levelAt s.levels i ∧ (i = info.level → f ∉ info.oldFiles) ∧
        (i = info.level + 1 → f ∉ info.overlapFiles)) := by
    intro i f
    rw [levels]
    exact p.mem_level comp
  -- a main log is never one of those that the compaction owns
  have hmain : ∀ {n}, n < s.lastVlogFileNo → s.Main n → (s.compacted r).Main n :=
    fun hlt hn => hn.compacted p comp levels (fun hdeep n hn => ((howned hdeep).1 n hn).1) hlt
  refine ⟨hbase.wf, hbase.fresh, ⟨t, ht.congr (hbase.names _ h.open_lt)
    (hbase.untouched _ (h.wf.lt_next ht.inode))⟩, lt_of_lt_of_le h.open_lt hstart,
    hmain h.open_lt h.open_main, fun i hi f hf => ?_, fun i hi f hf e he htype => ?_,
    fun i j hi hj f hf g hg heq => ?_, fun i hi f hf task htask hmem => ?_,
    fun task htask n hn => ?_, fun e he htype => ?_⟩
  · rcases hlevel.mp hf with ⟨rfl, hnf⟩ | ⟨hf, -⟩
    · exact ((howned hi).1 f hnf).2.1
    · exact lt_of_lt_of_le (h.owned_lt i hi f hf) hstart
  · rcases hlevel.mp hf with ⟨rfl, hnf⟩ | ⟨hf, -⟩
    · exact ((howned hi).1 f hnf).2.2 e he htype
    · exact h.owned_entries i hi f hf e he htype
  · rcases hlevel.mp hf with ⟨rfl, hnf⟩ | ⟨hf, -⟩
    · have hge := ((howned hi).1 f hnf).1
      rcases hlevel.mp hg with ⟨rfl, hng⟩ | ⟨hg, -⟩
      · exact ⟨rfl, eq_of_number_eq (howned hi).2 hnf hng heq⟩
      · have := h.owned_lt j hj g hg
        omega
    · have hlt := h.owned_lt i hi f hf
      rcases hlevel.mp hg with ⟨rfl, hng⟩ | ⟨hg, -⟩
      · have := ((howned hj).1 g hng).1
        omega
      · exact h.owned_once i j hi hj f hf g hg heq
  · rcases comp.mem_tasks htask with htask | ⟨-, rfl⟩
    · rcases hlevel.mp hf with ⟨rfl, hnf⟩ | ⟨hf, -⟩
      · have := h.doomed_lt task htask _ hmem
        have := ((howned hi).1 f hnf).1
        omega
      · exact h.owned_safe i hi f hf task htask hmem
    · rcases hlevel.mp hf with ⟨rfl, hnf⟩ | ⟨hf, hold, hover⟩
      · have hge := ((howned hi).1 f hnf).1
        have := h.rmVlogFiles_lt p hmem
        omega
      · exact h.kept_compacted p hi hf hold hover hmem
  · refine lt_of_lt_of_le ?_ hstart
    rcases comp.mem_tasks htask with htask | ⟨-, rfl⟩
    · exact h.doomed_lt task htask n hn
    · exact h.rmVlogFiles_lt p hn
  · obtain ⟨hlt, hn⟩ : e.value.fileNo < s.lastVlogFileNo ∧ s.Main e.value.fileNo := by
      rcases he with he | he | ⟨i, hi, f, hf, he⟩
      · exact h.main_entries e (.inl he) htype
      · exact h.main_entries e (.inr (.inl he)) htype
      · rcases hlevel.mp hf with ⟨rfl, hnf⟩ | ⟨hf, -⟩
        · -- Above the levels that own value logs, a compaction keeps the locations.
          obtain ⟨g, hg, d, hd, hkey, hvalue⟩ := (hshallow hi f hnf).2 e he htype
          rw [hvalue]
          refine h.main_entries d (.inr (.inr ?_)) (hkey ▸ htype)
          rcases p.mem_input hg with hg | hg
          · exact ⟨_, (Nat.lt_succ_self _).trans hi, g, hg, hd⟩
          · exact ⟨_, hi, g, hg, hd⟩
        · exact h.main_entries e (.inr (.inr ⟨i, hi, f, hf, he⟩)) htype
    exact ⟨lt_of_lt_of_le hlt hstart, hmain hlt hn⟩

/-- Everything a compaction keeps resolves to what it resolved to. -/
theorem VLogsOwned.resolves_compacted (h : s.VLogsOwned) (p : Picked s.levels s.fileno info)
    (comp : Compaction crc32c live s.fileno ⟨s.lastVlogFileNo, s.vlogs, .new⟩ info r new)
    (levels : (s.compacted r).levels = replaceFiles s.levels info new)
    (readable : ∀ e, s.Holds e → Readable crc32c s.vlogs e) :
    ∀ e', (s.compacted r).Holds e' → ∃ e, s.Holds e ∧ e'.key = e.key ∧
      (e.key.type = .kTypeValue → ∀ v, Resolves crc32c s.vlogs e.value e.key v →
        Resolves crc32c (s.compacted r).vlogs e'.value e.key v) := by
  have hinput : ∀ {f e}, f ∈ info.oldFiles ++ info.overlapFiles → e ∈ f.entries → s.Holds e := by
    intro f e hf he
    rcases p.mem_input hf with hf | hf
    · exact .inr (.inr ⟨_, f, hf, he⟩)
    · exact .inr (.inr ⟨_, f, hf, he⟩)
  obtain ⟨hbase, -, -⟩ := comp.owners p.old_ne (.init h.wf h.fresh)
  have hentries := comp.values p.old_ne (.init h.wf h.fresh)
    fun f hf e he _ => readable e (hinput hf he)
  intro e' he'
  have hsame : s.Holds e' → ∃ e, s.Holds e ∧ e'.key = e.key ∧
      (e.key.type = .kTypeValue → ∀ v, Resolves crc32c s.vlogs e.value e.key v →
        Resolves crc32c (s.compacted r).vlogs e'.value e.key v) :=
    fun he => ⟨e', he, rfl, fun _ v hv => hv.mono (hbase.grows _)⟩
  rcases he' with he' | he' | ⟨i, f, hf, he'⟩
  · exact hsame (.inl he')
  · exact hsame (.inr (.inl he'))
  · rw [levels] at hf
    rcases (p.mem_level comp).mp hf with ⟨rfl, hnf⟩ | ⟨hf, -⟩
    · obtain ⟨g, hg, e, he, hkey, hres⟩ := hentries f hnf e' he'
      exact ⟨e, hinput hg he, hkey, hres⟩
    · exact hsame (.inr (.inr ⟨i, f, hf, he'⟩))

end Compact

end Store

/-! ## Entries over a step -/

section Holds

variable {s s' : Store} {e : Entry VLogEntryInfo}

theorem Store.SameData.holds_iff (h : s.SameData s') : s'.Holds e ↔ s.Holds e := by
  simp only [Store.Holds, h.mem, h.imm, h.levels]

theorem Store.holds_write {w : Write} {garbage : VLogEntryInfo} {height : ℕ} {value : VLogEntryInfo}
    (ok : s.writeImpl crc32c w garbage height = .ok s')
    (mem : s'.mem = s.mem.put (.ofWrite w.key s.lastSequence w.type) value height) :
    s'.Holds e ↔ e = ⟨.ofWrite w.key s.lastSequence w.type, value⟩ ∨ s.Holds e := by
  obtain ⟨-, himm, hlevels, -⟩ := Store.writeImpl_fields ok
  simp only [Store.Holds, mem, himm, hlevels]
  rw [show e ∈ (s.mem.put (.ofWrite w.key s.lastSequence w.type) value height).entries ↔ _ from
    mem_insertEntry, or_assoc]

theorem Store.holds_handOver (ok : s.handOver = .ok s') : s'.Holds e ↔ s.Holds e := by
  obtain ⟨himm, rfl⟩ := Store.handOver_cases ok
  simp [Store.Holds, himm, MemTable.new]

theorem Store.holds_flush {imm : MemTable} (numbered : Numbered s.levels s.fileno)
    (full : s.imm = some imm) (ok : s.writeLevel0Table imm = .ok s') :
    s'.Holds e ↔ s.Holds e := by
  obtain ⟨e₀, es, hentries, rfl⟩ := Store.writeLevel0Table_cases ok
  refine or_congr_right ⟨fun h => ?_, fun h => ?_⟩
  · rcases h with h | ⟨i, f, hf, he⟩
    · exact .inl h
    · rcases (mem_levelAt_flush numbered rfl).mp hf with ⟨-, rfl⟩ | hf
      · exact .inl ⟨imm, full, hentries ▸ he⟩
      · exact .inr ⟨i, f, hf, he⟩
  · rcases h with h | ⟨i, f, hf, he⟩
    · exact .inl h
    · exact .inr ⟨i, f, (mem_levelAt_flush numbered rfl).mpr (.inr hf), he⟩

theorem Store.Holds.of_clearImm (h : s.clearImm.Holds e) : s.Holds e := by
  rcases h with h | ⟨imm, himm, -⟩ | h
  · exact .inl h
  · simp [Store.clearImm] at himm
  · exact .inr (.inr h)

/-- What the immutable memtable holds is in level 0 before it is released. -/
theorem SeqOrdered.holds_clearImm {m : Machine} (h : SeqOrdered m) (done : m.flushed = true)
    (held : m.store.Holds e) : m.store.clearImm.Holds e := by
  obtain ⟨imm, himm, f, hf, -, hentries⟩ := h.own done
  rcases held with he | ⟨imm', himm', he⟩ | he
  · exact .inl he
  · obtain rfl : imm = imm' := Option.some.inj (himm.symm.trans himm')
    exact .inr (.inr ⟨0, f, hf, hentries ▸ he⟩)
  · exact .inr (.inr he)

end Holds

/-! ## The owners of value logs over a run -/

/-- **Every step keeps the owners of value logs**, whether it succeeds or fails. -/
theorem Store.VLogsOwned.step {m m' : Machine} {a : Action} (h : m.store.VLogsOwned)
    (ordered : SeqOrdered m) (taken : Machine.Step crc32c m a m') : m'.store.VLogsOwned := by
  cases taken with
  | write ok => exact (h.write ok).1
  | @read info =>
      obtain ⟨handles, hs⟩ := m.store.readValue_handles crc32c info
      rw [hs]
      exact h.congr rfl rfl rfl rfl (fun _ _ => rfl) fun _ he => he
  | handOver ok =>
      obtain ⟨himm, rfl⟩ := Store.handOver_cases ok
      refine h.congr rfl rfl rfl rfl (fun _ _ => rfl) fun e he => ?_
      simpa [Store.HoldsMain, himm, MemTable.new] using he
  | @flush imm _ idle full ok =>
      obtain ⟨e₀, es, hentries, rfl⟩ := Store.writeLevel0Table_cases ok
      refine h.congr rfl rfl rfl rfl (fun i hi => ?_) fun e he => ?_
      · rw [levelAt_setLevel, if_neg (by simp only [kCompactionVLogLevel] at hi; omega)]
      · rcases he with he | he | ⟨i, hi, f, hf, he⟩
        · exact .inl he
        · exact .inr (.inl he)
        · rcases (mem_levelAt_flush ordered.numbered rfl).mp hf with ⟨-, rfl⟩ | hf
          · exact .inr (.inl ⟨imm, full, hentries ▸ he⟩)
          · exact .inr (.inr ⟨i, hi, f, hf, he⟩)
  | flushFail => exact h.congr rfl rfl rfl rfl (fun _ _ => rfl) fun _ he => he
  | clearImm done =>
      refine h.congr rfl rfl rfl rfl (fun _ _ => rfl) fun e he => ?_
      rcases he with he | ⟨imm, himm, -⟩ | he
      · exact .inl he
      · simp [Store.clearImm] at himm
      · exact .inr (.inr he)
  | compact idle ok =>
      rcases Store.compactLevel_cases ok ordered.numbered with
        rfl | ⟨info, r, new, -, p, hcomp, hlevels, rfl⟩
      · exact h
      · exact h.compact p hcomp hlevels
  | compactFail idle left => exact (h.interrupted left).1
  | expireAt ok =>
      obtain ⟨live, rfl, -⟩ := Store.expireAt_cases ok
      exact h.congr rfl rfl rfl rfl (fun _ _ => rfl) fun _ he => he
  | @runTask i => exact (h.runTask i).1

theorem vlogsOwned_of_reachable {cond : Machine → Action → Prop} {m : Machine}
    (h : Machine.Reachable crc32c cond m) : m.store.VLogsOwned := by
  induction h with
  | new => exact .init
  | step reached _ taken ih => exact ih.step (seqOrdered_of_reachable reached) taken

/-! ## Every acknowledged write is accounted for -/

/-- **Writes and entries agree.**  The sequence number of a write is its place in the
history; every entry belongs to a write, and every write that has not expired has an
entry. -/
structure Accounted (m : Machine) : Prop where
  length : m.store.lastSequence = m.history.length
  sound : ∀ e, m.store.Holds e → ∃ w, m.history[e.key.seq]? = some w ∧
    e.key = .ofWrite w.key e.key.seq w.type
  complete : ∀ n w, m.history[n]? = some w → m.store.lastLivingSequence ≤ n →
    ∃ e, m.store.Holds e ∧ e.key = .ofWrite w.key n w.type

namespace Accounted

variable {m : Machine}

theorem init : Accounted .new where
  length := rfl
  sound e he := absurd he (Store.not_holds_of_empty rfl rfl Store.levelAt_new e)
  complete n w h := by simp [Machine.new] at h

/-- A step that writes nothing and loses no key that is alive. -/
theorem of_keys (h : Accounted m) {m' : Machine} (history : m'.history = m.history)
    (lastSequence : m'.store.lastSequence = m.store.lastSequence)
    (live : m.store.lastLivingSequence ≤ m'.store.lastLivingSequence)
    (from_old : ∀ e', m'.store.Holds e' → ∃ e, m.store.Holds e ∧ e.key = e'.key)
    (kept : ∀ e, m.store.Holds e → m.store.lastLivingSequence ≤ e.key.seq →
      ∃ e', m'.store.Holds e' ∧ e'.key = e.key) : Accounted m' := by
  refine ⟨by rw [lastSequence, history]; exact h.length, fun e' he' => ?_, fun n w hn hlive => ?_⟩
  · obtain ⟨e, he, hkey⟩ := from_old e' he'
    rw [history, ← hkey]
    exact h.sound e he
  · rw [history] at hn
    obtain ⟨e, he, hkey⟩ := h.complete n w hn (live.trans hlive)
    have halive : m.store.lastLivingSequence ≤ e.key.seq := by
      rw [hkey, InternalKey.seq_ofWrite]
      exact live.trans hlive
    obtain ⟨e', he', hkey'⟩ := kept e he halive
    exact ⟨e', he', hkey'.trans hkey⟩

/-- A step that keeps every entry. -/
theorem of_holds (h : Accounted m) {m' : Machine} (history : m'.history = m.history)
    (lastSequence : m'.store.lastSequence = m.store.lastSequence)
    (live : m.store.lastLivingSequence ≤ m'.store.lastLivingSequence)
    (holds : ∀ e, m'.store.Holds e ↔ m.store.Holds e) : Accounted m' :=
  h.of_keys history lastSequence live (fun e' he' => ⟨e', (holds e').mp he', rfl⟩)
    fun e he _ => ⟨e, (holds e).mpr he, rfl⟩

theorem write (h : Accounted m) {s : Store} {w : Write} {garbage : VLogEntryInfo} {height : ℕ}
    (ok : m.store.writeImpl crc32c w garbage height = .ok s) :
    Accounted ⟨s, m.flushed, m.history ++ [w]⟩ := by
  obtain ⟨⟨value, hmem⟩, -, -, -, hseq, hlive⟩ := Store.writeImpl_fields ok
  have hholds := fun e => Store.holds_write (e := e) ok hmem
  refine ⟨by simp [hseq, h.length], fun e he => ?_, fun n w' hn hle => ?_⟩
  · rcases (hholds e).mp he with rfl | he
    · exact ⟨w, by simp [h.length], by simp⟩
    · obtain ⟨w', hw', hkey⟩ := h.sound e he
      exact ⟨w', List.getElem?_append_left (List.getElem?_eq_some_iff.mp hw').1 ▸ hw', hkey⟩
  · simp only [hlive] at hle
    by_cases hlt : n < m.history.length
    · rw [List.getElem?_append_left hlt] at hn
      obtain ⟨e, he, hkey⟩ := h.complete n w' hn hle
      exact ⟨e, (hholds e).mpr (.inr he), hkey⟩
    · have hn' : n = m.history.length := by
        have := (List.getElem?_eq_some_iff.mp hn).1
        simp only [List.length_append, List.length_singleton] at this
        omega
      subst hn'
      obtain rfl : w = w' := by simpa using hn
      exact ⟨_, (hholds _).mpr (.inl rfl), by rw [h.length]⟩

theorem compact (h : Accounted m) (ordered : SeqOrdered m) {s : Store} {level : ℕ}
    (ok : m.store.compactLevel crc32c level = .ok s) : Accounted { m with store := s } := by
  rcases Store.compactLevel_cases ok ordered.numbered with
    rfl | ⟨info, r, new, -, p, hcomp, hlevels, rfl⟩
  · exact h
  · refine h.of_keys rfl rfl le_rfl (fun e' he' => ?_) fun e he halive => ?_
    · rcases he' with he' | he' | ⟨i, f, hf, he'⟩
      · exact ⟨e', .inl he', rfl⟩
      · exact ⟨e', .inr (.inl he'), rfl⟩
      · rw [hlevels] at hf
        obtain ⟨j, g, hg, e, he, hkey, -⟩ := p.key_before hcomp hf he'
        exact ⟨e, .inr (.inr ⟨j, g, hg, he⟩), hkey⟩
    · rcases he with he | he | ⟨i, f, hf, he⟩
      · exact ⟨e, .inl he, rfl⟩
      · exact ⟨e, .inr (.inl he), rfl⟩
      · -- The table of the entry stays, or its keys that are alive are in a new one.
        by_cases hinput : f ∈ info.oldFiles ++ info.overlapFiles
        · obtain ⟨g, hg, e', he', hkey⟩ := hcomp.key_kept p.old_ne hinput he halive
          refine ⟨e', .inr (.inr ⟨info.level + 1, g, ?_, he'⟩), hkey⟩
          rw [hlevels]
          exact (p.mem_level hcomp).mpr (.inl ⟨rfl, hg⟩)
        · refine ⟨e, .inr (.inr ⟨i, f, ?_, he⟩), rfl⟩
          rw [hlevels]
          refine (p.mem_level hcomp).mpr (.inr ⟨hf, fun _ hold => ?_, fun _ hover => ?_⟩)
          · exact hinput (List.mem_append_left _ hold)
          · exact hinput (List.mem_append_right _ hover)

end Accounted

/-- **Every step keeps the account**, whether it succeeds or fails. -/
theorem Accounted.step {m m' : Machine} {a : Action} (h : Accounted m) (ordered : SeqOrdered m)
    (taken : Machine.Step crc32c m a m') : Accounted m' := by
  have hquiet : a.Quiet → Accounted m' := by
    intro hq
    obtain ⟨hsame, -, hhistory, -⟩ := taken.quiet hq
    exact h.of_holds hhistory hsame.lastSequence hsame.live_le fun e => hsame.holds_iff
  cases taken with
  | write ok => exact h.write ok
  | handOver ok =>
      refine h.of_holds rfl ?_ ?_ fun e => Store.holds_handOver ok
      · rw [(Store.handOver_cases ok).2]
      · rw [(Store.handOver_cases ok).2]
  | flush idle full ok =>
      refine h.of_holds rfl ?_ ?_ fun e => Store.holds_flush ordered.numbered full ok
      · obtain ⟨e₀, es, -, rfl⟩ := Store.writeLevel0Table_cases ok
        rfl
      · obtain ⟨e₀, es, -, rfl⟩ := Store.writeLevel0Table_cases ok
        exact le_rfl
  | clearImm done =>
      exact h.of_holds rfl rfl le_rfl fun e => ⟨.of_clearImm, ordered.holds_clearImm done⟩
  | compact idle ok => exact h.compact ordered ok
  | _ => exact hquiet trivial

theorem accounted_of_reachable {cond : Machine → Action → Prop} {m : Machine}
    (h : Machine.Reachable crc32c cond m) : Accounted m := by
  induction h with
  | new => exact .init
  | step reached _ taken ih => exact ih.step (seqOrdered_of_reachable reached) taken

/-! ## Every entry resolves -/

/-- One read is enough for the record of the write and its checksum. -/
def Write.Fits (w : Write) : Prop := w.key.length + w.value.length + 20 ≤ maxReadBytes

instance (w : Write) : Decidable w.Fits := inferInstanceAs (Decidable (_ ≤ _))

/-- Every record that is written fits. -/
def Machine.Sized (_ : Machine) : Action → Prop
  | .write w _ _ => w.Fits
  | _ => True

/-- Every record that is written fits, and every table that a compaction writes reaches the
disk. -/
def Machine.Fitting (m : Machine) : Action → Prop
  | .write w _ _ => w.Fits
  | .compact level => ∀ info, pickCompaction m.store.levels level = some info → ¬ info.Moves →
      info.KeepsTables m.store.lastLivingSequence
  | _ => True

/-- **Every entry that is held resolves to the value of its write.** -/
structure Durable (crc32c : Bytes → ℕ) (m : Machine) : Prop where
  owned : m.store.VLogsOwned
  resolves : ∀ e, m.store.Holds e → e.key.type = .kTypeValue →
    ∃ w, m.history[e.key.seq]? = some w ∧ Resolves crc32c m.store.vlogs e.value e.key w.value

namespace Durable

variable {m : Machine}

theorem init : Durable crc32c .new where
  owned := .init
  resolves e he := by
    obtain ⟨w, hw, -⟩ := Accounted.init.sound e he
    simp [Machine.new] at hw

/-- A step that writes nothing, and after which every entry resolves to what one with the
same key resolved to. -/
theorem of_entries (h : Durable crc32c m) {m' : Machine} (history : m'.history = m.history)
    (owned : m'.store.VLogsOwned)
    (entries : ∀ e', m'.store.Holds e' → ∃ e, m.store.Holds e ∧ e'.key = e.key ∧
      (e.key.type = .kTypeValue → ∀ v, Resolves crc32c m.store.vlogs e.value e.key v →
        Resolves crc32c m'.store.vlogs e'.value e.key v)) : Durable crc32c m' := by
  refine ⟨owned, fun e' he' htype => ?_⟩
  obtain ⟨e, he, hkey, hres⟩ := entries e' he'
  rw [hkey] at htype ⊢
  obtain ⟨w, hw, hv⟩ := h.resolves e he htype
  exact ⟨w, history ▸ hw, hres htype _ hv⟩

/-- A step that brings no new entries, while the value logs that are pointed into grow. -/
theorem of_grows (h : Durable crc32c m) {m' : Machine} (history : m'.history = m.history)
    (owned : m'.store.VLogsOwned) (holds : ∀ e, m'.store.Holds e → m.store.Holds e)
    (grows : ∀ n, (∀ task ∈ m.store.tasks, n ∉ task.2) → m.store.vlogs.Grows m'.store.vlogs n) :
    Durable crc32c m' :=
  h.of_entries history owned fun e he => ⟨e, holds e he, rfl, fun htype _ hv =>
    hv.mono (grows _ (h.owned.not_doomed (holds e he) htype))⟩

theorem readable (h : Durable crc32c m) (e : Entry VLogEntryInfo) (he : m.store.Holds e) :
    Readable crc32c m.store.vlogs e := by
  intro htype
  obtain ⟨w, -, hv⟩ := h.resolves e he htype
  exact ⟨_, hv⟩

theorem write (h : Durable crc32c m) (account : Accounted m) {s : Store} {w : Write}
    {garbage : VLogEntryInfo} {height : ℕ} (fits : w.Fits)
    (ok : m.store.writeImpl crc32c w garbage height = .ok s) :
    Durable crc32c ⟨s, m.flushed, m.history ++ [w]⟩ := by
  obtain ⟨howned, hgrows, value, hmem, hnew⟩ := h.owned.write ok
  refine ⟨howned, fun e he htype => ?_⟩
  rcases (Store.holds_write ok hmem).mp he with rfl | he
  · have hvalue : w.type = .kTypeValue := by simpa using htype
    refine ⟨w, by simp [account.length], (hnew hvalue).2 ?_⟩
    simp only [Write.Fits] at fits
    simp only [recordLength, InternalKey.ofWrite_userKey, kBlockTrailerSize]
    omega
  · obtain ⟨w', hw', hv⟩ := h.resolves e he htype
    exact ⟨w', List.getElem?_append_left (List.getElem?_eq_some_iff.mp hw').1 ▸ hw',
      hv.mono (hgrows _)⟩

theorem compact (h : Durable crc32c m) (ordered : SeqOrdered m) {s : Store} {level : ℕ}
    (ok : m.store.compactLevel crc32c level = .ok s) : Durable crc32c { m with store := s } := by
  rcases Store.compactLevel_cases ok ordered.numbered with
    rfl | ⟨info, r, new, -, p, hcomp, hlevels, rfl⟩
  · exact h
  · exact h.of_entries rfl (h.owned.compact p hcomp hlevels)
      (h.owned.resolves_compacted p hcomp hlevels h.readable)

end Durable

/-- **Every step keeps every entry resolving**, if what is written fits. -/
theorem Durable.step {m m' : Machine} {a : Action} (h : Durable crc32c m) (ordered : SeqOrdered m)
    (account : Accounted m) (meets : m.Sized a) (taken : Machine.Step crc32c m a m') :
    Durable crc32c m' := by
  have howned := h.owned.step ordered taken
  have hsame : ∀ {s : Store}, s.vlogs = m.store.vlogs → ∀ n,
      (∀ task ∈ m.store.tasks, n ∉ task.2) → m.store.vlogs.Grows s.vlogs n := by
    intro s hs n _
    rw [hs]
    exact Dir.Grows.refl _ n
  cases taken with
  | write ok => exact h.write account meets ok
  | @read info =>
      obtain ⟨handles, hs⟩ := m.store.readValue_handles crc32c info
      rw [hs] at howned ⊢
      exact h.of_grows rfl howned (fun _ he => he) (hsame rfl)
  | handOver ok =>
      have hholds := fun e he => (Store.holds_handOver (e := e) ok).mp he
      obtain ⟨himm, rfl⟩ := Store.handOver_cases ok
      exact h.of_grows rfl howned hholds (hsame rfl)
  | @flush imm _ idle full ok =>
      have hholds := fun e he => (Store.holds_flush (e := e) ordered.numbered full ok).mp he
      obtain ⟨e₀, es, hentries, rfl⟩ := Store.writeLevel0Table_cases ok
      exact h.of_grows rfl howned hholds (hsame rfl)
  | flushFail => exact h.of_grows rfl howned (fun _ he => he) (hsame rfl)
  | clearImm done => exact h.of_grows rfl howned (fun e he => he.of_clearImm) (hsame rfl)
  | compact idle ok => exact h.compact ordered ok
  | compactFail idle left =>
      refine h.of_grows rfl howned (fun e he => ?_) fun n _ => (h.owned.interrupted left).2 n
      rw [left.same] at he
      exact he
  | expireAt ok =>
      obtain ⟨live, rfl, -⟩ := Store.expireAt_cases ok
      exact h.of_grows rfl howned (fun _ he => he) (hsame rfl)
  | @runTask i =>
      have hquiet : Machine.Step crc32c m (.runTask i) { m with store := m.store.runTask i } :=
        .runTask
      exact h.of_grows rfl howned (fun e he => (hquiet.quiet trivial).1.holds_iff.mp he)
        (h.owned.runTask i).2

theorem durable_of_reachable {cond : Machine → Action → Prop}
    (sized : ∀ m a, cond m a → m.Sized a) {m : Machine}
    (h : Machine.Reachable crc32c cond m) : Durable crc32c m := by
  induction h with
  | new => exact .init
  | step reached meets taken ih =>
      exact ih.step (seqOrdered_of_reachable reached) (accounted_of_reachable reached)
        (sized _ _ meets) taken

/-! ## Tables that reach the disk -/

theorem Machine.Fitting.sized {m : Machine} {a : Action} (h : m.Fitting a) : m.Sized a := by
  cases a with
  | write => exact h
  | _ => trivial

/-- Every table of the levels has reached the disk. -/
def Store.TablesKept (s : Store) : Prop :=
  ∀ i, ∀ f ∈ levelAt s.levels i, f.Kept

/-- **Every step keeps the tables whole**, if a compaction does. -/
theorem Store.TablesKept.step {m m' : Machine} {a : Action} (h : m.store.TablesKept)
    (numbered : Numbered m.store.levels m.store.fileno) (meets : m.Fitting a)
    (taken : Machine.Step crc32c m a m') : m'.store.TablesKept := by
  have hsame : m'.store.levels = m.store.levels → m'.store.TablesKept := by
    intro hlevels
    rw [Store.TablesKept, hlevels]
    exact h
  have hquiet : a.Quiet → m'.store.TablesKept := fun hq => hsame (taken.quiet hq).1.levels
  cases taken with
  | write ok => exact hsame (Store.writeImpl_fields ok).2.2.1
  | handOver ok =>
      refine hsame ?_
      rw [(Store.handOver_cases ok).2]
  | flush idle full ok =>
      have hwhole := ok
      obtain ⟨e₀, es, hentries, rfl⟩ := Store.writeLevel0Table_cases ok
      have hkept := Store.writeLevel0Table_kept hwhole hentries
      intro i f hf
      rcases (mem_levelAt_flush numbered rfl).mp hf with ⟨-, rfl⟩ | hf
      · exact hkept
      · exact h i f hf
  | clearImm => exact hsame rfl
  | compact idle ok =>
      rcases Store.compactLevel_cases ok numbered with
        rfl | ⟨info, r, new, hpick, p, hcomp, hlevels, rfl⟩
      · exact h
      · intro i f hf
        rw [hlevels] at hf
        rcases (p.mem_level hcomp).mp hf with ⟨-, hf⟩ | ⟨hf, -⟩
        · cases hcomp with
          | move moves => exact h _ f (p.mem_old hf)
          | merge merges b built =>
              exact (meets info hpick merges).of_built p.old_ne built f hf
        · exact h i f hf
  | _ => exact hquiet trivial

/-- **A compaction fits when all keys are short.** -/
theorem Machine.Reachable.fitting_compact {cond : Machine → Action → Prop} {m : Machine}
    (h : Machine.Reachable crc32c cond m) (short : ∀ w ∈ m.history, w.key.length ≤ keptKeyLength)
    (level : ℕ) : m.Fitting (.compact level) := by
  intro info hpick _
  have p : Picked m.store.levels m.store.fileno info :=
    ⟨(seqOrdered_of_reachable h).numbered, (pickCompaction_cases hpick).1 ▸ hpick⟩
  refine CompactInfo.keepsTables_of_short p.old_ne fun e he => ?_
  obtain ⟨f, hf, he⟩ := mem_inputs.mp he
  obtain ⟨i, hf⟩ : ∃ i, f ∈ levelAt m.store.levels i := by
    rcases p.mem_input hf with hf | hf
    · exact ⟨_, hf⟩
    · exact ⟨_, hf⟩
  obtain ⟨w, hw, hkey⟩ := (accounted_of_reachable h).sound e (.inr (.inr ⟨i, f, hf, he⟩))
  rw [hkey, InternalKey.ofWrite_userKey]
  exact short w (List.mem_of_getElem? hw)

end Lsmkv
