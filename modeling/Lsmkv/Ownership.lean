import Lsmkv.Durability

/-!
# Who owns which value log

A table in the levels from `kCompactionVLogLevel` on names the value log that its values
are in, and nobody else uses that log.  The tables above name none: `vlog_file_no_` is 0
there, the number of the log that the store opens first, which no table can own.

`Tagged` is what the numbers in the tables say about the level they are in; with
`Store.VLogsOwned` it gives that a log that `DoCompactionWork` hands to the executor is
used by no table any more, from the moment the task is queued until it runs.
-/

namespace Lsmkv

open ByteCode Files

variable {crc32c : Bytes → ℕ}

/-- A table names a value log exactly in the levels that own value logs. -/
structure Store.Tagged (s : Store) : Prop where
  shallow : ∀ i, i < kCompactionVLogLevel → ∀ f ∈ levelAt s.levels i, f.vlogFileNo = 0
  deep : ∀ i, kCompactionVLogLevel ≤ i → ∀ f ∈ levelAt s.levels i, f.vlogFileNo ≠ 0
  doomed : ∀ task ∈ s.tasks, ∀ n ∈ task.2, n ≠ 0

namespace Store.Tagged

variable {s : Store}

theorem of_empty (levels : ∀ i, levelAt s.levels i = []) (tasks : s.tasks = []) : s.Tagged := by
  refine ⟨fun i _ f hf => ?_, fun i _ f hf => ?_, fun task htask => ?_⟩
  · simp [levels] at hf
  · simp [levels] at hf
  · simp [tasks] at htask

theorem congr (h : s.Tagged) {s' : Store} (levels : s'.levels = s.levels)
    (tasks : ∀ task ∈ s'.tasks, task ∈ s.tasks) : s'.Tagged := by
  refine ⟨?_, ?_, fun task htask => h.doomed task (tasks task htask)⟩
  · rw [levels]
    exact h.shallow
  · rw [levels]
    exact h.deep

theorem flush (h : s.Tagged) (numbered : Numbered s.levels s.fileno) {s' : Store} {imm : MemTable}
    (ok : s.writeLevel0Table imm = .ok s') : s'.Tagged := by
  obtain ⟨e₀, es, -, rfl⟩ := Store.writeLevel0Table_cases ok
  refine ⟨fun i hi f hf => ?_, fun i hi f hf => ?_, h.doomed⟩
  · rcases (mem_levelAt_flush numbered rfl).mp hf with ⟨-, rfl⟩ | hf
    · rfl
    · exact h.shallow i hi f hf
  · rcases (mem_levelAt_flush numbered rfl).mp hf with ⟨rfl, -⟩ | hf
    · simp [kCompactionVLogLevel] at hi
    · exact h.deep i hi f hf

/-- A new table gets the number 0 or a number above the log that is open. -/
theorem compact (h : s.Tagged) (owned : s.VLogsOwned) {live : ℕ}
    {info : CompactInfo VLogEntryInfo} {r : CompactionResult} {new : List (SSTFile VLogEntryInfo)}
    (p : Picked s.levels s.fileno info)
    (comp : Compaction crc32c live s.fileno ⟨s.lastVlogFileNo, s.vlogs, .new⟩ info r new)
    (levels : (s.compacted r).levels = replaceFiles s.levels info new) :
    (s.compacted r).Tagged := by
  obtain ⟨-, hshallow, hdeep⟩ := comp.owners p.old_ne (.init owned.wf owned.fresh)
  dsimp only at hdeep
  refine ⟨fun i hi f hf => ?_, fun i hi f hf => ?_, fun task htask n hn => ?_⟩
  · rw [levels] at hf
    rcases (p.mem_level comp).mp hf with ⟨rfl, hnf⟩ | ⟨hf, -⟩
    · rcases (hshallow hi f hnf).1 with hzero | hold
      · exact hzero
      · exact h.shallow _ ((Nat.lt_succ_self _).trans hi) f (p.mem_old hold)
    · exact h.shallow i hi f hf
  · rw [levels] at hf
    rcases (p.mem_level comp).mp hf with ⟨rfl, hnf⟩ | ⟨hf, -⟩
    · have hge := ((hdeep hi).1 f hnf).1
      have hopen := owned.open_lt
      omega
    · exact h.deep i hi f hf
  · rcases comp.mem_tasks htask with htask | ⟨-, rfl⟩
    · exact h.doomed task htask n hn
    · rcases CompactInfo.mem_rmVlogFiles hn with ⟨hle, f, hf, rfl⟩ | ⟨hle, f, hf, rfl⟩
      · exact h.deep _ hle f (p.mem_old hf)
      · exact h.deep _ hle f (p.mem_overlap.mp hf).1

theorem runTask (h : s.Tagged) (i : ℕ) : (s.runTask i).Tagged := by
  unfold Store.runTask
  split
  · exact h
  · exact h.congr rfl fun task htask => List.mem_of_mem_eraseIdx htask

end Store.Tagged

/-- **Every step keeps the numbers in the tables apart.** -/
theorem Store.Tagged.step {m m' : Machine} {a : Action} (h : m.store.Tagged)
    (ordered : SeqOrdered m) (owned : m.store.VLogsOwned) (taken : Machine.Step crc32c m a m') :
    m'.store.Tagged := by
  cases taken with
  | write ok =>
      obtain ⟨-, -, hlevels, -⟩ := Store.writeImpl_fields ok
      exact h.congr hlevels fun task htask => by rwa [(Store.writeImpl_files ok).1] at htask
  | @read info =>
      obtain ⟨handles, hs⟩ := m.store.readValue_handles crc32c info
      rw [hs]
      exact h.congr rfl fun _ ht => ht
  | handOver ok =>
      rw [(Store.handOver_cases ok).2]
      exact h.congr rfl fun _ ht => ht
  | flush idle full ok => exact h.flush ordered.numbered ok
  | flushFail => exact h.congr rfl fun _ ht => ht
  | clearImm => exact h.congr rfl fun _ ht => ht
  | compact idle ok =>
      rcases Store.compactLevel_cases ok ordered.numbered with
        rfl | ⟨info, r, new, -, p, hcomp, hlevels, rfl⟩
      · exact h
      · exact h.compact owned p hcomp hlevels
  | compactFail idle left =>
      rw [left.same]
      exact h.congr rfl fun _ ht => ht
  | expireAt ok =>
      obtain ⟨live, rfl, -⟩ := Store.expireAt_cases ok
      exact h.congr rfl fun _ ht => ht
  | @runTask i => exact h.runTask i

theorem tagged_of_reachable {cond : Machine → Action → Prop} {m : Machine}
    (h : Machine.Reachable crc32c cond m) : m.store.Tagged := by
  induction h with
  | new => exact .of_empty Store.levelAt_new rfl
  | step reached _ taken ih =>
      exact ih.step (seqOrdered_of_reachable reached) (vlogsOwned_of_reachable reached) taken

/-! ## The files of tables -/

/-- The file of every table exists, and no task will delete it: what tasks delete has
numbers that are used up. -/
structure Store.TableFiles (s : Store) : Prop where
  present : ∀ i, ∀ f ∈ levelAt s.levels i, s.sstFiles f.fileNumber = true
  doomed_lt : ∀ task ∈ s.tasks, ∀ n ∈ task.1, n < s.fileno
  doomed_apart : ∀ task ∈ s.tasks, ∀ n ∈ task.1, ∀ i, ∀ f ∈ levelAt s.levels i, f.fileNumber ≠ n

namespace Store.TableFiles

variable {s : Store}

theorem of_empty (levels : ∀ i, levelAt s.levels i = []) (tasks : s.tasks = []) :
    s.TableFiles := by
  refine ⟨fun i f hf => ?_, fun task htask => ?_, fun task htask => ?_⟩
  · simp [levels] at hf
  · simp [tasks] at htask
  · simp [tasks] at htask

/-- Steps that keep the tables and their files. -/
theorem congr (h : s.TableFiles) (numbered : Numbered s.levels s.fileno) {s' : Store}
    (levels : s'.levels = s.levels) (tasks : s'.tasks = s.tasks) (fileno : s.fileno ≤ s'.fileno)
    (files : ∀ n < s.fileno, s'.sstFiles n = s.sstFiles n) : s'.TableFiles := by
  refine ⟨fun i f hf => ?_, fun task htask n hn => ?_, ?_⟩
  · rw [levels] at hf
    rw [files _ (numbered.below i f hf)]
    exact h.present i f hf
  · rw [tasks] at htask
    exact lt_of_lt_of_le (h.doomed_lt task htask n hn) fileno
  · rw [levels, tasks]
    exact h.doomed_apart

theorem flush (h : s.TableFiles) (numbered : Numbered s.levels s.fileno) {s' : Store}
    {imm : MemTable} (ok : s.writeLevel0Table imm = .ok s') : s'.TableFiles := by
  obtain ⟨e₀, es, -, rfl⟩ := Store.writeLevel0Table_cases ok
  refine ⟨fun i f hf => ?_, fun task htask n hn => ?_, fun task htask n hn i f hf => ?_⟩
  · rcases (mem_levelAt_flush numbered rfl).mp hf with ⟨-, rfl⟩ | hf
    · simp
    · simp only [Function.update_of_ne (numbered.below i f hf).ne]
      exact h.present i f hf
  · exact (h.doomed_lt task htask n hn).trans (Nat.lt_succ_self _)
  · rcases (mem_levelAt_flush numbered rfl).mp hf with ⟨-, rfl⟩ | hf
    · exact (h.doomed_lt task htask n hn).ne'
    · exact h.doomed_apart task htask n hn i f hf

/-- The tables that a compaction deletes are not in the levels any more. -/
theorem compact (h : s.TableFiles) {live : ℕ} {info : CompactInfo VLogEntryInfo}
    {r : CompactionResult} {new : List (SSTFile VLogEntryInfo)} (p : Picked s.levels s.fileno info)
    (comp : Compaction crc32c live s.fileno ⟨s.lastVlogFileNo, s.vlogs, .new⟩ info r new)
    (levels : (s.compacted r).levels = replaceFiles s.levels info new) :
    (s.compacted r).TableFiles := by
  obtain ⟨hle, -, hnum⟩ := p.numbers comp
  have hinput : ∀ n ∈ info.rmSstFiles, ∃ f ∈ info.oldFiles ++ info.overlapFiles,
      f.fileNumber = n := by
    intro n hn
    exact List.mem_map.mp hn
  have hbelow : ∀ f ∈ info.oldFiles ++ info.overlapFiles, f.fileNumber < s.fileno := by
    intro f hf
    rcases p.mem_input hf with hf | hf
    · exact p.numbered.below _ f hf
    · exact p.numbered.below _ f hf
  refine ⟨fun i f hf => ?_, fun task htask n hn => ?_, fun task htask n hn i f hf => ?_⟩
  · rw [levels] at hf
    simp only [Store.compacted, Bool.or_eq_true, decide_eq_true_eq]
    rcases (p.mem_level comp).mp hf with ⟨rfl, hnf⟩ | ⟨hf, -⟩
    · rcases (hnum f hnf).2 with ⟨-, hold⟩ | hge
      · exact .inl (h.present _ f (p.mem_old hold))
      · exact .inr ⟨hge, (hnum f hnf).1⟩
    · exact .inl (h.present i f hf)
  · refine lt_of_lt_of_le ?_ hle
    rcases comp.mem_tasks htask with htask | ⟨-, rfl⟩
    · exact h.doomed_lt task htask n hn
    · obtain ⟨f, hf, rfl⟩ := hinput n hn
      exact hbelow f hf
  · rw [levels] at hf
    rcases comp.mem_tasks htask with htask | ⟨hmerge, rfl⟩
    · rcases (p.mem_level comp).mp hf with ⟨rfl, hnf⟩ | ⟨hf, -⟩
      · rcases (hnum f hnf).2 with ⟨-, hold⟩ | hge
        · exact h.doomed_apart task htask n hn _ f (p.mem_old hold)
        · have := h.doomed_lt task htask n hn
          omega
      · exact h.doomed_apart task htask n hn i f hf
    · obtain ⟨g, hg, rfl⟩ := hinput n hn
      rcases (p.mem_level comp).mp hf with ⟨rfl, hnf⟩ | ⟨hf, hold, hover⟩
      · have := comp.fresh_of_merge p.old_ne hmerge f hnf
        have := hbelow g hg
        omega
      · intro heq
        -- Numbers are unique, so the table would be the input itself.
        rcases List.mem_append.mp hg with hg | hg
        · obtain rfl := p.numbered.unique _ _ f hf g (p.mem_old hg) heq
          obtain rfl := eq_of_number_eq (p.numbered.ascending _) hf (p.mem_old hg) heq
          exact hold rfl hg
        · obtain rfl := p.numbered.unique _ _ f hf g (p.mem_overlap.mp hg).1 heq
          obtain rfl := eq_of_number_eq (p.numbered.ascending _) hf (p.mem_overlap.mp hg).1 heq
          exact hover rfl hg

theorem runTask (h : s.TableFiles) (i : ℕ) : (s.runTask i).TableFiles := by
  unfold Store.runTask
  split
  · exact h
  · rename_i task hi
    have htask : task ∈ s.tasks := List.mem_of_getElem? hi
    refine ⟨fun j f hf => ?_, fun t ht => h.doomed_lt t (List.mem_of_mem_eraseIdx ht),
      fun t ht => h.doomed_apart t (List.mem_of_mem_eraseIdx ht)⟩
    have hapart : f.fileNumber ∉ task.1 :=
      fun hmem => h.doomed_apart task htask _ hmem j f hf rfl
    simp only [Store.deleteFiles, Bool.and_eq_true, Bool.not_eq_true']
    exact ⟨h.present j f hf, by simpa using hapart⟩

end Store.TableFiles

/-- **Every step keeps the files of the tables.** -/
theorem Store.TableFiles.step {m m' : Machine} {a : Action} (h : m.store.TableFiles)
    (ordered : SeqOrdered m) (taken : Machine.Step crc32c m a m') : m'.store.TableFiles := by
  have hnum := ordered.numbered
  cases taken with
  | write ok =>
      obtain ⟨-, -, hlevels, hfileno, -⟩ := Store.writeImpl_fields ok
      obtain ⟨htasks, hfiles, -⟩ := Store.writeImpl_files ok
      exact h.congr hnum hlevels htasks hfileno.ge fun n _ => by rw [hfiles]
  | @read info =>
      obtain ⟨handles, hs⟩ := m.store.readValue_handles crc32c info
      rw [hs]
      exact h.congr hnum rfl rfl le_rfl fun _ _ => rfl
  | handOver ok =>
      rw [(Store.handOver_cases ok).2]
      exact h.congr hnum rfl rfl le_rfl fun _ _ => rfl
  | flush idle full ok => exact h.flush hnum ok
  | flushFail =>
      exact h.congr hnum rfl rfl le_rfl fun n hn => by simp only [Function.update_of_ne hn.ne]
  | clearImm => exact h.congr hnum rfl rfl le_rfl fun _ _ => rfl
  | compact idle ok =>
      rcases Store.compactLevel_cases ok hnum with
        rfl | ⟨info, r, new, -, p, hcomp, hlevels, rfl⟩
      · exact h
      · exact h.compact p hcomp hlevels
  | compactFail idle left =>
      refine h.congr hnum ?_ ?_ left.fileno_le left.sst_eq
      · rw [left.same]
      · rw [left.same]
  | expireAt ok =>
      obtain ⟨live, rfl, -⟩ := Store.expireAt_cases ok
      exact h.congr hnum rfl rfl le_rfl fun _ _ => rfl
  | @runTask i => exact h.runTask i

theorem tableFiles_of_reachable {cond : Machine → Action → Prop} {m : Machine}
    (h : Machine.Reachable crc32c cond m) : m.store.TableFiles := by
  induction h with
  | new => exact .of_empty Store.levelAt_new rfl
  | step reached _ taken ih => exact ih.step (seqOrdered_of_reachable reached) taken

/-! ## Value logs are used by their owners only -/

/-- The table uses the value log: it names it, or one of its values is in it. -/
def SSTFile.Uses (f : SSTFile VLogEntryInfo) (n : ℕ) : Prop :=
  f.vlogFileNo = n ∨ ∃ e ∈ f.entries, e.key.type = .kTypeValue ∧ e.value.fileNo = n

/-- The tables from `kCompactionVLogLevel` on own the value logs they name.  Tables are told
apart by level and position. -/
structure Store.LogsApart (s : Store) : Prop where
  named : ∀ i, kCompactionVLogLevel ≤ i → ∀ f ∈ levelAt s.levels i, f.vlogFileNo ≠ 0
  inside : ∀ i, kCompactionVLogLevel ≤ i → ∀ f ∈ levelAt s.levels i, ∀ e ∈ f.entries,
    e.key.type = .kTypeValue → e.value.fileNo = f.vlogFileNo
  once : ∀ (i j a b : ℕ) (f g : SSTFile VLogEntryInfo), (levelAt s.levels i)[a]? = some f →
    (levelAt s.levels j)[b]? = some g → f.vlogFileNo ≠ 0 → f.vlogFileNo = g.vlogFileNo →
    i = j ∧ a = b
  others : ∀ i, kCompactionVLogLevel ≤ i → ∀ f ∈ levelAt s.levels i,
    (∀ j < kCompactionVLogLevel, ∀ g ∈ levelAt s.levels j, ¬ g.Uses f.vlogFileNo) ∧
      s.vlog.fileNo ≠ f.vlogFileNo
  doomed : ∀ task ∈ s.tasks, ∀ n ∈ task.2, ∀ j, ∀ g ∈ levelAt s.levels j, ¬ g.Uses n

section Apart

variable {s : Store}

theorem Store.VLogsOwned.not_uses (owned : s.VLogsOwned) (tagged : s.Tagged) {n j : ℕ}
    (pos : n ≠ 0) (hj : j < kCompactionVLogLevel) {g : SSTFile VLogEntryInfo}
    (hg : g ∈ levelAt s.levels j) (used : ¬ s.Main n) : ¬ g.Uses n := by
  rintro (hname | ⟨e, he, htype, hvalue⟩)
  · exact pos (hname ▸ tagged.shallow j hj g hg)
  · exact used (hvalue ▸ (owned.main_entries e (.inr (.inr ⟨j, hj, g, hg, he⟩)) htype).2)

/-- Equal elements of a list of ascending numbers are at one place. -/
theorem index_eq_of_ascending {l : Level VLogEntryInfo}
    (ascending : l.Pairwise fun f g => f.fileNumber < g.fileNumber) {a b : ℕ}
    {f : SSTFile VLogEntryInfo} (ha : l[a]? = some f) (hb : l[b]? = some f) : a = b := by
  have hnodup : l.Nodup := by
    refine ascending.imp ?_
    rintro g h hlt rfl
    exact lt_irrefl _ hlt
  obtain ⟨hlt, -⟩ := List.getElem?_eq_some_iff.mp ha
  exact (List.getElem?_inj hlt hnodup).mp (ha.trans hb.symm)

theorem Store.VLogsOwned.logsApart (owned : s.VLogsOwned) (tagged : s.Tagged)
    (numbered : Numbered s.levels s.fileno) : s.LogsApart := by
  refine ⟨tagged.deep, owned.owned_entries, fun i j a b f g hf hg hne heq => ?_,
    fun i hi f hf => ⟨fun j hj g hg => ?_, fun hopen => ?_⟩, fun task htask n hn j g hg => ?_⟩
  · have hfm := List.mem_of_getElem? hf
    have hgm := List.mem_of_getElem? hg
    have hi : kCompactionVLogLevel ≤ i := by
      by_contra hlt
      exact hne (tagged.shallow i (not_le.mp hlt) f hfm)
    have hj : kCompactionVLogLevel ≤ j := by
      by_contra hlt
      exact hne (heq.trans (tagged.shallow j (not_le.mp hlt) g hgm))
    obtain ⟨rfl, rfl⟩ := owned.owned_once i j hi hj f hfm g hgm heq
    exact ⟨rfl, index_eq_of_ascending (numbered.ascending i) hf hg⟩
  · exact owned.not_uses tagged (tagged.deep i hi f hf) hj hg fun hmain => hmain.1 i hi f hf rfl
  · exact owned.open_main.1 i hi f hf hopen.symm
  · by_cases hj : j < kCompactionVLogLevel
    · exact owned.not_uses tagged (tagged.doomed task htask n hn) hj hg
        fun hmain => hmain.2 task htask hn
    · rintro (rfl | ⟨e, he, htype, rfl⟩)
      · exact owned.owned_safe j (not_lt.mp hj) g hg task htask hn
      · rw [owned.owned_entries j (not_lt.mp hj) g hg e he htype] at hn
        exact owned.owned_safe j (not_lt.mp hj) g hg task htask hn

end Apart

/-- **In every state of a run, the value logs of the deep levels are apart.**  Steps may
succeed or fail in any order; no log that is waiting to be deleted is used by a table. -/
theorem logsApart_of_reachable {cond : Machine → Action → Prop} {m : Machine}
    (reached : Machine.Reachable crc32c cond m) : m.store.LogsApart :=
  (vlogsOwned_of_reachable reached).logsApart (tagged_of_reachable reached)
    (seqOrdered_of_reachable reached).numbered

end Lsmkv
