import Lsmkv.DeepLevels
import Lsmkv.PointRead

/-!
# A read beside compactions

`GetImpl` (`src/kvstore.cc`) takes a location from `LevelCache::get`, which holds the lock of the
compactions, and opens the value log with `VLogReader::Read` after that lock is released.  In
between, compactions run, and so do the deletion tasks they hand to the executor.

A location from a table above `kCompactionVLogLevel` points into a log that is never deleted.  A
location from a table below points into the log of that table, and the one task that deletes it is
the one that deletes the table (`Machine.Traced`, over every run from the lookup on).  So the log
is there when it is opened, exactly if that task has not run (`log_exists_iff`).

`log_deleted_before_read` has a run in which it has: a key sits in level 3, the tables around it
come down from level 2, and the read fails.
-/

namespace Lsmkv

open ByteCode Files

variable {crc32c : Bytes → ℕ}

/-! ## The logs of new tables -/

/-- The value logs of the finished tables exist. -/
def Build.LogsExist (b : Build VLogEntryInfo) (w : VLogWork) : Prop :=
  ∀ f ∈ b.newFiles, w.vlogs.inode f.vlogFileNo ≠ none

section LogsExist

variable {d₀ : VLogDir} {start live : ℕ} {b b' : Build VLogEntryInfo} {w w' : VLogWork}

theorem Build.LogsExist.mono (h : b.LogsExist w) (grows : ∀ n, w.vlogs.Grows w'.vlogs n) :
    b.LogsExist w' := fun f hf => (grows _).inode_ne_none (h f hf)

variable (crc32c) in
/-- A table is finished, and its log with it. -/
theorem Build.LogsExist.close (h : b.LogsExist w) (ready : w.Ready d₀ start) (key : InternalKey) :
    (b.close w.builder.fileNo key).LogsExist (w.close crc32c) := by
  have hgrows : ∀ n, w.vlogs.Grows (w.close crc32c).vlogs n := ready.grows_close crc32c true
  intro f hf
  rcases List.mem_append.mp hf with hf | hf
  · exact (hgrows _).inode_ne_none (h f hf)
  · obtain ⟨t, ht⟩ := ready.isOpen
    rw [List.mem_singleton.mp hf]
    exact (hgrows _).inode_ne_none (by simp [ht.inode])

theorem Build.LogsExist.step (h : b.LogsExist w) (owning : Owning d₀ start b w)
    {e : Entry VLogEntryInfo} (ok : buildStep crc32c true live b w e = .ok (b', w')) :
    b'.LogsExist w' := by
  by_cases hexp : e.key.seq < live
  · simp only [buildStep, if_pos hexp, Outcome.ok.injEq, Prod.mk.injEq] at ok
    obtain ⟨rfl, rfl⟩ := ok
    exact h
  · obtain ⟨-, hready, hopened, -⟩ := (owning.see e.key).opened
    simp only [buildStep, if_neg hexp, if_true] at ok
    obtain ⟨⟨info, w₂⟩, hrewrite, ok⟩ := Outcome.bind_eq_ok.mp ok
    obtain ⟨hready', -, -, hgrows, -⟩ := hready.rewrite_ok hrewrite
    have hexist : (b.see e.key).LogsExist w₂ :=
      Build.LogsExist.mono (b := b.see e.key) h fun n => (hopened n).trans (hgrows n)
    simp only [Outcome.ok.injEq, Prod.mk.injEq] at ok
    obtain ⟨rfl, rfl⟩ := ok
    simp only [Build.add]
    by_cases hcut : sstFileSize ≤ approximateSize ((b.see e.key).out ++ [⟨e.key, info⟩])
    · simp only [if_pos hcut]
      have hclose := Build.LogsExist.close crc32c
        (b := { b.see e.key with out := (b.see e.key).out ++ [⟨e.key, info⟩] }) hexist hready' e.key
      simpa [Build.close] using hclose
    · simp only [if_neg hcut]
      simpa [Build.LogsExist] using hexist

theorem Build.LogsExist.loop {es : List (Entry VLogEntryInfo)} (h : b.LogsExist w)
    (owning : Owning d₀ start b w) (ok : buildLoop crc32c true live es b w = .ok (b', w')) :
    b'.LogsExist w' := by
  induction es generalizing b w with
  | nil =>
      simp only [buildLoop, Outcome.ok.injEq, Prod.mk.injEq] at ok
      obtain ⟨rfl, rfl⟩ := ok
      exact h
  | cons e es ih =>
      rw [buildLoop] at ok
      obtain ⟨⟨b₁, w₁⟩, hstep, hrest⟩ := Outcome.bind_eq_ok.mp ok
      exact ih (h.step owning hstep) (owning.step hstep) hrest

/-- **Every new table that owns a log has it.** -/
theorem buildWhenCompaction_logsExist {fileno : ℕ} {inputs : List (List (Entry VLogEntryInfo))}
    (base : w.Base w.vlogs w.lastVlogFileNo)
    (ok : buildWhenCompaction crc32c true live fileno w inputs = .ok (b, w')) :
    b.LogsExist w' := by
  have hstart : Owning w.vlogs w.lastVlogFileNo (.start fileno) w :=
    ⟨base, fun hne => absurd rfl hne, by simp [Build.start], by simp [Build.start],
      List.Pairwise.nil, by simp [Build.start]⟩
  obtain ⟨visited, -, ok⟩ := Outcome.bind_eq_ok.mp ok
  obtain ⟨⟨b₁, w₁⟩, hloop, ok⟩ := Outcome.bind_eq_ok.mp ok
  have howning := hstart.loop hloop
  have hexist : b₁.LogsExist w₁ := Build.LogsExist.loop (by simp [Build.LogsExist, Build.start])
    hstart hloop
  simp only [if_true, Outcome.ok.injEq, Prod.mk.injEq] at ok
  obtain ⟨rfl, rfl⟩ := ok
  by_cases hout : b₁.out = []
  · have hsame : b₁.finish w₁.builder.fileNo (visited.getLast?.map (·.key)) = b₁ := by
      cases visited.getLast?.map (·.key) with
      | none => rfl
      | some key => simp [Build.finish, hout]
    simpa [hsame, hout] using hexist
  · obtain ⟨key, hkey⟩ := Option.ne_none_iff_exists'.mp (getLast_ne_none_of_buildLoop hloop hout)
    rw [hkey]
    simpa [Build.finish, hout] using hexist.close crc32c (howning.ready hout) key

end LogsExist

/-! ## What a step does to a log -/

/-- The deletion tasks that a step runs. -/
def Action.tasks (m : Machine) : Action → List (List ℕ × List ℕ)
  | .runTask i => m.store.tasks[i]?.toList
  | _ => []

/-- **A log that was opened before a step** is deleted by the step, if that runs a task that names
it, and else keeps its file. -/
theorem Machine.Step.log {m m' : Machine} {a : Action} (taken : Machine.Step crc32c m a m')
    (owned : m.store.VLogsOwned) (ordered : SeqOrdered m) {n : ℕ} (used : n < m.store.lastVlogFileNo) :
    ((∃ task ∈ a.tasks m, n ∈ task.2) ∧ m'.store.vlogs.inode n = none) ∨
      ((∀ task ∈ a.tasks m, n ∉ task.2) ∧ m'.store.vlogs.inode n = m.store.vlogs.inode n ∧
        m.store.vlogs.Grows m'.store.vlogs n) := by
  -- a step that deletes no log: the file behind the name is the same and only grows
  have hkeep : ∀ {s : Store}, (∀ task ∈ a.tasks m, n ∉ task.2) → m.store.NamesFrom s →
      m.store.vlogs.Grows s.vlogs n →
      ((∃ task ∈ a.tasks m, n ∈ task.2) ∧ s.vlogs.inode n = none) ∨
        ((∀ task ∈ a.tasks m, n ∉ task.2) ∧ s.vlogs.inode n = m.store.vlogs.inode n ∧
          m.store.vlogs.Grows s.vlogs n) := by
    intro s hno hnames hgrows
    refine .inr ⟨hno, ?_, hgrows⟩
    cases hs : s.vlogs.inode n with
    | some i => exact (hnames.2 n used i hs).symm
    | none =>
        cases hm : m.store.vlogs.inode n with
        | none => rfl
        | some i => exact absurd hs (by simp [(hgrows i hm).1])
  have hnames := taken.names owned ordered
  cases taken with
  | write ok => exact hkeep (by simp [Action.tasks]) hnames ((owned.write ok).2.1 n)
  | @read info =>
      refine hkeep (by simp [Action.tasks]) hnames ?_
      obtain ⟨handles, hs⟩ := m.store.readValue_handles crc32c info
      simp only [hs]
      exact Dir.Grows.refl _ n
  | handOver ok =>
      refine hkeep (by simp [Action.tasks]) hnames ?_
      rw [(Store.handOver_cases ok).2]
      exact Dir.Grows.refl _ n
  | flush idle full ok =>
      refine hkeep (by simp [Action.tasks]) hnames ?_
      obtain ⟨e₀, es, -, rfl⟩ := Store.writeLevel0Table_cases ok
      exact Dir.Grows.refl _ n
  | flushFail => exact hkeep (by simp [Action.tasks]) hnames (Dir.Grows.refl _ n)
  | clearImm => exact hkeep (by simp [Action.tasks]) hnames (Dir.Grows.refl _ n)
  -- a compaction opens and appends to logs of its own, numbered from the counter on
  | compact idle ok =>
      refine hkeep (by simp [Action.tasks]) hnames ?_
      rcases Store.compactLevel_cases ok ordered.numbered with
        rfl | ⟨info, r, new, -, p, hcomp, -, rfl⟩
      · exact Dir.Grows.refl _ n
      · exact (hcomp.owners p.old_ne (.init owned.wf owned.fresh)).1.grows n
  | compactFail idle left =>
      refine hkeep (by simp [Action.tasks]) hnames fun i hi => ⟨?_, ?_⟩
      · rw [left.inode_eq n used]
        exact hi
      · rw [left.data_eq i (owned.wf.lt_next hi)]
  | expireAt ok =>
      refine hkeep (by simp [Action.tasks]) hnames ?_
      obtain ⟨live, rfl, -⟩ := Store.expireAt_cases ok
      exact Dir.Grows.refl _ n
  -- the one step that unlinks: the logs that the task lists, and no others
  | @runTask i =>
      cases htask : m.store.tasks[i]? with
      | none =>
          refine hkeep (by simp [Action.tasks, htask]) hnames ?_
          simp only [Store.runTask, htask]
          exact Dir.Grows.refl _ n
      | some task =>
          obtain ⟨-, hdata, hinode⟩ := Store.unlinkList_spec owned.wf task.2
          have hvlogs : (m.store.runTask i).vlogs = task.2.foldl Dir.unlink m.store.vlogs := by
            simp only [Store.runTask, htask, Store.deleteFiles]
          by_cases hn : n ∈ task.2
          · refine .inl ⟨⟨task, by simp [Action.tasks, htask], hn⟩, ?_⟩
            simp only [hvlogs, hinode, if_pos hn]
          · refine .inr ⟨by simpa [Action.tasks, htask] using hn, ?_, fun j hj => ⟨?_, ?_⟩⟩
            · simp only [hvlogs, hinode, if_neg hn]
            · simp only [hvlogs, hinode, if_neg hn, hj]
            · simp only [hvlogs, hdata, List.prefix_refl]

/-! ## The logs that are pointed into exist -/

/-- The value log of every value that is held exists. -/
def Store.LogsPresent (s : Store) : Prop :=
  ∀ e, s.Holds e → e.key.type = .kTypeValue → s.vlogs.inode e.value.fileNo ≠ none

/-- A value that is written is in the log that is open then. -/
theorem Store.VLogsOwned.write_location {s s' : Store} (h : s.VLogsOwned) {w : Write}
    {garbage : VLogEntryInfo} {height : ℕ} (ok : s.writeImpl crc32c w garbage height = .ok s') :
    ∃ value, s'.mem = s.mem.put (.ofWrite w.key s.lastSequence w.type) value height ∧
      (w.type = .kTypeValue → value.fileNo = s'.vlog.fileNo) := by
  obtain ⟨s₁, info, vlog, vlogs, hs₁, happend, rfl⟩ := Store.writeImpl_cases ok
  have h₁ : s₁.VLogsOwned := by
    rcases hs₁ with rfl | rfl
    · exact h
    · exact (h.rotate crc32c).1
  obtain ⟨t, ht⟩ := h₁.isOpen
  obtain ⟨info', b', d', t', happend', -, ⟨hfile, -⟩, -, -, hinfo, -⟩ :=
    ht.append crc32c (.ofWrite w.key s.lastSequence w.type) w.value
  obtain ⟨rfl, rfl, rfl⟩ : info' = info ∧ b' = vlog ∧ d' = vlogs := by
    simpa using Outcome.ok.inj (happend'.symm.trans happend)
  refine ⟨_, rfl, fun htype => ?_⟩
  simp [htype, hinfo, hfile]

/-- **The log of every value in a new table exists**, if those of the inputs do. -/
theorem Compaction.logs_present {live fileno : ℕ} {w : VLogWork} {info : CompactInfo VLogEntryInfo}
    {r : CompactionResult} {new : List (SSTFile VLogEntryInfo)}
    (h : Compaction crc32c live fileno w info r new) (ne : info.oldFiles ≠ [])
    (base : w.Base w.vlogs w.lastVlogFileNo)
    (present : ∀ f ∈ info.oldFiles ++ info.overlapFiles, ∀ e ∈ f.entries,
      e.key.type = .kTypeValue → r.work.vlogs.inode e.value.fileNo ≠ none) :
    ∀ f ∈ new, ∀ e ∈ f.entries, e.key.type = .kTypeValue →
      r.work.vlogs.inode e.value.fileNo ≠ none := by
  obtain ⟨-, hshallow, hdeep⟩ := h.owners ne base
  intro f hf e he htype
  by_cases hlevel : kCompactionVLogLevel ≤ info.level + 1
  · rw [((hdeep hlevel).1 f hf).2.2 e he htype]
    cases h with
    | move moves => exact absurd moves.2.1 (not_lt.mpr hlevel)
    | merge _ b built =>
        rw [decide_eq_true hlevel] at built
        exact buildWhenCompaction_logsExist base built f hf
  · obtain ⟨g, hg, d, hd, hkey, hvalue⟩ := (hshallow (not_le.mp hlevel) f hf).2 e he htype
    rw [hvalue]
    exact present g hg d hd (hkey ▸ htype)

theorem Store.LogsPresent.step {m m' : Machine} {a : Action} (h : m.store.LogsPresent)
    (owned : m.store.VLogsOwned) (ordered : SeqOrdered m) (taken : Machine.Step crc32c m a m') :
    m'.store.LogsPresent := by
  -- What was held is not deleted.
  have hold : ∀ e, m.store.Holds e → e.key.type = .kTypeValue →
      m'.store.vlogs.inode e.value.fileNo ≠ none := by
    intro e he htype
    rcases taken.log owned ordered (owned.log_lt he htype) with ⟨⟨task, htask, hn⟩, -⟩ | ⟨-, hsame, -⟩
    · have hmem : task ∈ m.store.tasks := by
        cases taken with
        | @runTask i => exact List.mem_of_getElem? (by simpa [Action.tasks] using htask)
        | _ => simp [Action.tasks] at htask
      exact absurd hn (owned.not_doomed he htype task hmem)
    · rw [hsame]
      exact h e he htype
  cases taken with
  | write ok =>
      obtain ⟨value, hmem, hvalue⟩ := owned.write_location ok
      obtain ⟨t, ht⟩ := (owned.write ok).1.isOpen
      intro e he htype
      rcases (Store.holds_write ok hmem).mp he with rfl | he
      · simp only [hvalue (by simpa using htype), ht.inode, ne_eq, reduceCtorEq, not_false_eq_true]
      · exact hold e he htype
  | @read info =>
      obtain ⟨handles, hs⟩ := m.store.readValue_handles crc32c info
      intro e he
      rw [hs] at he
      exact hold e he
  | handOver ok => exact fun e he => hold e ((Store.holds_handOver ok).mp he)
  | flush idle full ok =>
      exact fun e he => hold e ((Store.holds_flush ordered.numbered full ok).mp he)
  | flushFail => exact fun e he => hold e he
  | clearImm => exact fun e he => hold e he.of_clearImm
  | compact idle ok =>
      rcases Store.compactLevel_cases ok ordered.numbered with
        rfl | ⟨info, r, new, -, p, hcomp, hlevels, rfl⟩
      · exact h
      · intro e he htype
        rcases he with he | he | ⟨i, f, hf, he⟩
        · exact hold e (.inl he) htype
        · exact hold e (.inr (.inl he)) htype
        · rw [hlevels] at hf
          rcases (p.mem_level hcomp).mp hf with ⟨rfl, hnew⟩ | ⟨hf, -⟩
          · refine hcomp.logs_present p.old_ne (.init owned.wf owned.fresh) ?_ f hnew e he htype
            intro g hg d hd htype'
            rcases p.mem_input hg with hg | hg
            · exact hold d (.inr (.inr ⟨_, g, hg, hd⟩)) htype'
            · exact hold d (.inr (.inr ⟨_, g, hg, hd⟩)) htype'
          · exact hold e (.inr (.inr ⟨i, f, hf, he⟩)) htype
  | compactFail idle left =>
      intro e he
      refine hold e ?_
      rw [left.same] at he
      exact he
  | expireAt ok =>
      obtain ⟨live, rfl, -⟩ := Store.expireAt_cases ok
      exact fun e he => hold e he
  | @runTask i =>
      intro e he
      refine hold e ?_
      unfold Store.runTask at he
      split at he
      · exact he
      · exact he

theorem logsPresent_of_reachable {cond : Machine → Action → Prop} {m : Machine}
    (h : Machine.Reachable crc32c cond m) : m.store.LogsPresent := by
  induction h with
  | new => exact fun e he => absurd he (Store.not_holds_of_empty rfl rfl Store.levelAt_new e)
  | step reached _ taken ih =>
      exact ih.step (vlogsOwned_of_reachable reached) (seqOrdered_of_reachable reached) taken

/-! ## From the lookup to the read -/

variable (crc32c) in
/-- A run from a machine to a later one, with the deletion tasks that it runs. -/
inductive Machine.Since (cond : Machine → Action → Prop) (m : Machine) :
    List (List ℕ × List ℕ) → Machine → Prop
  | refl : Since cond m [] m
  | step {m₁ m₂ : Machine} {a : Action} {ran : List (List ℕ × List ℕ)} (before : Since cond m ran m₁)
      (meets : cond m₁ a) (taken : Machine.Step crc32c m₁ a m₂) :
      Since cond m (ran ++ a.tasks m₁) m₂

theorem Machine.Since.reachable {cond cond' : Machine → Action → Prop} {m m' : Machine}
    {ran : List (List ℕ × List ℕ)} (since : Machine.Since crc32c cond m ran m')
    (reached : Machine.Reachable crc32c cond' m) :
    Machine.Reachable crc32c (fun _ _ => True) m' := by
  induction since with
  | refl => exact reached.mono fun _ _ _ => trivial
  | step _ _ taken ih => exact .step ih trivial taken

/-- **The log `n` goes with the tables `owner`.**  Since the lookup, the tasks that name the log
are those that name one of the tables; the tables are below `kCompactionVLogLevel` as long as they
are in a level, and they name the log; and the log is there as long as no such task has run. -/
structure Machine.Traced (m₀ : Machine) (n : ℕ) (owner : ℕ → Prop) (ran : List (List ℕ × List ℕ))
    (m : Machine) : Prop where
  log_lt : n < m.store.lastVlogFileNo
  owner_lt : ∀ t, owner t → t < m.store.fileno
  tasks : ∀ task ∈ m.store.tasks, n ∈ task.2 ↔ ∃ t ∈ task.1, owner t
  shallow : ∀ i < kCompactionVLogLevel, ∀ f ∈ levelAt m.store.levels i, ¬ owner f.fileNumber
  deep : ∀ i, kCompactionVLogLevel ≤ i → ∀ f ∈ levelAt m.store.levels i,
    f.vlogFileNo = n ↔ owner f.fileNumber
  exists_iff : m.store.vlogs.inode n ≠ none ↔ ∀ task ∈ ran, ∀ t ∈ task.1, ¬ owner t
  grows : m.store.vlogs.inode n ≠ none → m₀.store.vlogs.Grows m.store.vlogs n

namespace Machine.Traced

variable {m₀ m m' : Machine} {n : ℕ} {owner : ℕ → Prop} {ran : List (List ℕ × List ℕ)}

/-- The part about the files, for every step. -/
theorem files (h : Traced m₀ n owner ran m) (owned : m.store.VLogsOwned) (ordered : SeqOrdered m)
    {a : Action} (taken : Step crc32c m a m') :
    n < m'.store.lastVlogFileNo ∧ (m'.store.vlogs.inode n ≠ none ↔
        ∀ task ∈ ran ++ a.tasks m, ∀ t ∈ task.1, ¬ owner t) ∧
      (m'.store.vlogs.inode n ≠ none → m₀.store.vlogs.Grows m'.store.vlogs n) := by
  have hmem : ∀ task ∈ a.tasks m, task ∈ m.store.tasks := by
    intro task htask
    cases a with
    | runTask i => exact List.mem_of_getElem? (by simpa [Action.tasks] using htask)
    | _ => simp [Action.tasks] at htask
  refine ⟨h.log_lt.trans_le (taken.names owned ordered).1, ?_⟩
  rcases taken.log owned ordered h.log_lt with ⟨⟨task, htask, hn⟩, hnone⟩ | ⟨hno, hsame, hgrows⟩
  · refine ⟨⟨fun hne => absurd hnone hne, fun hall => ?_⟩, fun hne => absurd hnone hne⟩
    obtain ⟨t, ht, howner⟩ := (h.tasks task (hmem task htask)).mp hn
    exact absurd howner (hall task (List.mem_append_right _ htask) t ht)
  · refine ⟨?_, fun hne => (h.grows (hsame ▸ hne)).trans hgrows⟩
    rw [hsame, h.exists_iff]
    constructor
    · intro hall task htask t ht howner
      rcases List.mem_append.mp htask with htask | htask
      · exact hall task htask t ht howner
      · exact hno task htask ((h.tasks task (hmem task htask)).mpr ⟨t, ht, howner⟩)
    · exact fun hall task htask => hall task (List.mem_append_left _ htask)

/-- A step that leaves the levels alone and queues nothing. -/
theorem of_quiet (h : Traced m₀ n owner ran m) (owned : m.store.VLogsOwned) (ordered : SeqOrdered m)
    {a : Action} (taken : Step crc32c m a m') (levels : m'.store.levels = m.store.levels)
    (fileno : m.store.fileno ≤ m'.store.fileno)
    (tasks : ∀ task ∈ m'.store.tasks, task ∈ m.store.tasks) :
    Traced m₀ n owner (ran ++ a.tasks m) m' := by
  obtain ⟨hlt, hexists, hgrows⟩ := h.files owned ordered taken
  refine ⟨hlt, fun t ht => (h.owner_lt t ht).trans_le fileno,
    fun task htask => h.tasks task (tasks task htask), ?_, ?_, hexists, hgrows⟩
  · rw [levels]
    exact h.shallow
  · rw [levels]
    exact h.deep

theorem flush (h : Traced m₀ n owner ran m) (owned : m.store.VLogsOwned) (ordered : SeqOrdered m)
    {imm : MemTable} {s : Store} (idle : m.flushed = false) (full : m.store.imm = some imm)
    (ok : m.store.writeLevel0Table imm = .ok s) :
    Traced m₀ n owner (ran ++ Action.flush.tasks m) { m with store := s, flushed := true } := by
  have taken : Step (fun _ => 0) m .flush { m with store := s, flushed := true } := .flush idle full ok
  obtain ⟨hlt, hexists, hgrows⟩ := h.files owned ordered taken
  obtain ⟨e₀, es, -, rfl⟩ := Store.writeLevel0Table_cases ok
  refine ⟨hlt, fun t ht => (h.owner_lt t ht).trans (Nat.lt_succ_self _), h.tasks,
    fun i hi f hf => ?_, fun i hi f hf => ?_, hexists, hgrows⟩
  · rcases (mem_levelAt_flush ordered.numbered rfl).mp hf with ⟨-, rfl⟩ | hf
    · exact fun howner => lt_irrefl _ (h.owner_lt _ howner)
    · exact h.shallow i hi f hf
  · rcases (mem_levelAt_flush ordered.numbered rfl).mp hf with ⟨rfl, -⟩ | hf
    · simp [kCompactionVLogLevel] at hi
    · exact h.deep i hi f hf

/-- **The task of a compaction names the log exactly if the table is among its inputs.** -/
theorem new_task (h : Traced m₀ n owner ran m) {info : CompactInfo VLogEntryInfo}
    (p : Picked m.store.levels m.store.fileno info) :
    n ∈ info.rmVlogFiles ↔ ∃ t ∈ info.rmSstFiles, owner t := by
  have hsst : ∀ t, t ∈ info.rmSstFiles ↔
      ∃ f ∈ info.oldFiles ++ info.overlapFiles, f.fileNumber = t := fun t => List.mem_map
  constructor
  · intro hn
    rcases CompactInfo.mem_rmVlogFiles hn with ⟨hlevel, f, hf, hvlog⟩ | ⟨hlevel, f, hf, hvlog⟩
    · exact ⟨_, (hsst _).mpr ⟨f, List.mem_append_left _ hf, rfl⟩,
        (h.deep _ hlevel f (p.mem_old hf)).mp hvlog⟩
    · exact ⟨_, (hsst _).mpr ⟨f, List.mem_append_right _ hf, rfl⟩,
        (h.deep _ hlevel f (p.mem_overlap.mp hf).1).mp hvlog⟩
  · rintro ⟨t, ht, howner⟩
    obtain ⟨f, hf, rfl⟩ := (hsst t).mp ht
    rw [CompactInfo.rmVlogFiles, List.mem_append]
    rcases List.mem_append.mp hf with hf | hf
    · have hlevel : kCompactionVLogLevel ≤ info.level := by
        by_contra hlt
        exact h.shallow _ (not_le.mp hlt) f (p.mem_old hf) howner
      rw [if_pos hlevel]
      exact .inl (List.mem_map.mpr ⟨f, hf, (h.deep _ hlevel f (p.mem_old hf)).mpr howner⟩)
    · have hlevel : kCompactionVLogLevel ≤ info.level + 1 := by
        by_contra hlt
        exact h.shallow _ (not_le.mp hlt) f (p.mem_overlap.mp hf).1 howner
      rw [if_pos hlevel]
      exact .inr (List.mem_map.mpr
        ⟨f, hf, (h.deep _ hlevel f (p.mem_overlap.mp hf).1).mpr howner⟩)

theorem compact (h : Traced m₀ n owner ran m) (owned : m.store.VLogsOwned) (ordered : SeqOrdered m)
    {level : ℕ} {s : Store} (idle : m.flushed = false)
    (ok : m.store.compactLevel crc32c level = .ok s) :
    Traced m₀ n owner (ran ++ (Action.compact level).tasks m) { m with store := s } := by
  have taken : Step crc32c m (.compact level) { m with store := s } := .compact idle ok
  obtain ⟨hlt, hexists, hgrows⟩ := h.files owned ordered taken
  rcases Store.compactLevel_cases ok ordered.numbered with
    rfl | ⟨info, r, new, -, p, hcomp, hlevels, rfl⟩
  · exact h.of_quiet owned ordered taken rfl le_rfl fun _ ht => ht
  obtain ⟨hle, -, hnum⟩ := p.numbers hcomp
  obtain ⟨-, -, hdeep⟩ := hcomp.owners p.old_ne (.init owned.wf owned.fresh)
  refine ⟨hlt, fun t ht => (h.owner_lt t ht).trans_le hle, fun task htask => ?_,
    fun i hi f hf => ?_, fun i hi f hf => ?_, hexists, hgrows⟩
  · rcases hcomp.mem_tasks htask with htask | ⟨-, rfl⟩
    · exact h.tasks task htask
    · exact h.new_task p
  · rw [hlevels] at hf
    rcases (p.mem_level hcomp).mp hf with ⟨rfl, hnew⟩ | ⟨hf, -⟩
    · rcases (hnum f hnew).2 with ⟨-, hold⟩ | hge
      · exact h.shallow _ ((Nat.lt_succ_self _).trans hi) f (p.mem_old hold)
      · exact fun howner => absurd (h.owner_lt _ howner) (not_lt.mpr hge)
    · exact h.shallow i hi f hf
  · rw [hlevels] at hf
    rcases (p.mem_level hcomp).mp hf with ⟨rfl, hnew⟩ | ⟨hf, -⟩
    · -- A new table has a new number and a new log.
      have hmerge : ¬ info.Moves := fun moves => absurd moves.2.1 (not_lt.mpr hi)
      have hfresh := hcomp.fresh_of_merge p.old_ne hmerge f hnew
      have hlog : m.store.lastVlogFileNo ≤ f.vlogFileNo := ((hdeep hi).1 f hnew).1
      exact ⟨fun heq => absurd h.log_lt (not_lt.mpr (heq ▸ hlog)),
        fun howner => absurd (h.owner_lt _ howner) (not_lt.mpr hfresh)⟩
    · exact h.deep i hi f hf

/-- **Every step keeps the trace.** -/
theorem step (h : Traced m₀ n owner ran m) (owned : m.store.VLogsOwned) (ordered : SeqOrdered m)
    {a : Action} (taken : Step crc32c m a m') : Traced m₀ n owner (ran ++ a.tasks m) m' := by
  have htaken := taken
  cases taken with
  | write ok =>
      obtain ⟨-, -, hlevels, hfileno, -⟩ := Store.writeImpl_fields ok
      exact h.of_quiet owned ordered htaken hlevels hfileno.ge fun task htask => by
        rwa [(Store.writeImpl_files ok).1] at htask
  | @read info =>
      obtain ⟨handles, hs⟩ := m.store.readValue_handles crc32c info
      refine h.of_quiet owned ordered htaken ?_ ?_ ?_
      · simp only [hs]
      · simp only [hs, le_refl]
      · simp only [hs]
        exact fun _ ht => ht
  | handOver ok =>
      refine h.of_quiet owned ordered htaken ?_ ?_ ?_
      · rw [(Store.handOver_cases ok).2]
      · rw [(Store.handOver_cases ok).2]
      · rw [(Store.handOver_cases ok).2]
        exact fun _ ht => ht
  | flush idle full ok => exact h.flush owned ordered idle full ok
  | flushFail idle =>
      exact h.of_quiet owned ordered htaken rfl le_rfl fun _ ht => ht
  | clearImm done =>
      exact h.of_quiet owned ordered htaken rfl le_rfl fun _ ht => ht
  | compact idle ok => exact h.compact owned ordered idle ok
  | compactFail idle left =>
      refine h.of_quiet owned ordered htaken ?_ left.fileno_le ?_
      · rw [left.same]
      · rw [left.same]
        exact fun _ ht => ht
  | expireAt ok =>
      obtain ⟨live, hs, -⟩ := Store.expireAt_cases ok
      refine h.of_quiet owned ordered htaken ?_ ?_ ?_
      · rw [hs]
      · rw [hs]
      · rw [hs]
        exact fun _ ht => ht
  | @runTask i =>
      refine h.of_quiet owned ordered htaken ?_ ?_ ?_
      · simp only [Store.runTask]
        split <;> rfl
      · simp only [Store.runTask]
        split <;> rfl
      · simp only [Store.runTask]
        split
        · exact fun _ ht => ht
        · exact fun _ ht => List.mem_of_mem_eraseIdx ht

theorem since {cond cond' : Machine → Action → Prop} (h : Traced m n owner [] m)
    (reached : Machine.Reachable crc32c cond m)
    (since : Machine.Since crc32c cond' m ran m') : Traced m n owner ran m' := by
  induction since with
  | refl => exact h
  | step before _ taken ih =>
      have hreached := before.reachable reached
      exact ih.step (vlogsOwned_of_reachable hreached) (seqOrdered_of_reachable hreached) taken

end Machine.Traced

/-! ## Where a location comes from -/

section Found

variable {query : InternalKey} {info : VLogEntryInfo} {sstFiles : ℕ → Bool}

theorem of_findInEntries {es : List (Entry VLogEntryInfo)} (h : findInEntries query es = .ok info) :
    ∃ e ∈ es, e.key.userKey = query.userKey ∧
      (info = .zero ∨ e.key.type = .kTypeValue ∧ e.value = info) := by
  induction es with
  | nil => exact absurd h (by simp [findInEntries])
  | cons e es ih =>
      rw [findInEntries] at h
      cases hcompare : strCompare query.userKey e.key.userKey with
      | lt => simp [hcompare] at h
      | eq =>
          have huser := strCompare_eq_eq.mp hcompare
          simp only [hcompare] at h
          split at h
          · split at h
            · rename_i htype
              exact ⟨e, List.mem_cons_self, huser.symm, .inr ⟨htype, Outcome.ok.inj h⟩⟩
            · exact ⟨e, List.mem_cons_self, huser.symm, .inl (Outcome.ok.inj h).symm⟩
          · simp at h
      | gt =>
          simp only [hcompare] at h
          obtain ⟨d, hd, hrest⟩ := ih h
          exact ⟨d, List.mem_cons_of_mem _ hd, hrest⟩

theorem mem_of_findBlock {keys : List InternalKey} {blocks : List (List (Entry VLogEntryInfo))}
    {blk : List (Entry VLogEntryInfo)} (h : findBlock query keys blocks = some blk) :
    blk ∈ blocks := by
  induction keys, blocks using findBlock.induct query with
  | case1 key keys blk' blocks hle =>
      rw [findBlock, if_pos hle] at h
      exact Option.some.inj h ▸ List.mem_cons_self
  | case2 key keys blk' blocks hlt ih =>
      rw [findBlock, if_neg hlt] at h
      exact List.mem_cons_of_mem _ (ih h)
  | case3 keys blocks hne => simp [findBlock] at h

theorem of_readTable {f : SSTFile VLogEntryInfo} (h : readTable f query = .ok info) :
    ∃ e ∈ f.entries, e.key.userKey = query.userKey ∧
      (info = .zero ∨ e.key.type = .kTypeValue ∧ e.value = info) := by
  rw [readTable] at h
  split at h
  · simp at h
  · rename_i blk hblk
    obtain ⟨e, he, hrest⟩ := of_findInEntries h
    refine ⟨e, ?_, hrest⟩
    rw [← flatten_tableBlocks f.entries]
    exact List.mem_flatten.mpr ⟨blk, mem_of_findBlock hblk, he⟩

theorem of_readBatch {fs : List (SSTFile VLogEntryInfo)} (h : readBatch sstFiles query fs = .ok info) :
    ∃ f ∈ fs, readTable f query = .ok info := by
  induction fs with
  | nil => exact absurd h (by simp [readBatch])
  | cons f fs ih =>
      rw [readBatch] at h
      split at h
      · obtain ⟨g, hg, hread⟩ := ih h
        exact ⟨g, List.mem_cons_of_mem _ hg, hread⟩
      · rw [openAndRead] at h
        split at h
        · exact ⟨f, List.mem_cons_self, h⟩
        · simp at h

theorem of_getDeeper {levels : List (Level VLogEntryInfo)} {s : Outcome VLogEntryInfo}
    (h : getDeeper sstFiles query levels s = .ok info) :
    s = .ok info ∨ ∃ l ∈ levels, ∃ f ∈ l, readTable f query = .ok info := by
  induction levels generalizing s with
  | nil => exact .inl h
  | cons level levels ih =>
      simp only [getDeeper] at h
      have hhere : ∀ {r : Outcome VLogEntryInfo}, r = (if (level.filter fun f =>
            f.mayHold query.userKey).isEmpty then s
          else readBatch sstFiles query (level.filter fun f => f.mayHold query.userKey)) →
          r = .ok info → s = .ok info ∨ ∃ l ∈ level :: levels, ∃ f ∈ l, readTable f query = .ok info := by
        intro r hr hok
        subst hr
        split at hok
        · exact .inl hok
        · obtain ⟨f, hf, hread⟩ := of_readBatch hok
          exact .inr ⟨level, List.mem_cons_self, f, (List.mem_filter.mp hf).1, hread⟩
      split at h
      · rename_i info' hs
        exact hhere rfl (hs.trans h)
      · rename_i s' hs
        rcases ih h with hok | ⟨l, hl, hrest⟩
        · exact hhere rfl hok
        · exact .inr ⟨l, List.mem_cons_of_mem _ hl, hrest⟩

/-- **`LevelCache::get` answers from a table**: with the location of a version of the key, or with
zeros for a deletion. -/
theorem of_getLevels {levels : List (Level VLogEntryInfo)}
    (h : getLevels sstFiles query levels = .ok info) :
    ∃ i, ∃ f ∈ levelAt levels i, ∃ e ∈ f.entries, e.key.userKey = query.userKey ∧
      (info = .zero ∨ e.key.type = .kTypeValue ∧ e.value = info) := by
  have htable : ∃ l ∈ levels, ∃ f ∈ l, readTable f query = .ok info := by
    cases levels with
    | nil => simp [getLevels] at h
    | cons level0 levels =>
        rw [getLevels] at h
        split at h
        · rcases of_getDeeper h with hok | ⟨l, hl, hrest⟩
          · simp at hok
          · exact ⟨l, List.mem_cons_of_mem _ hl, hrest⟩
        · obtain ⟨f, hf, hread⟩ := of_readBatch h
          exact ⟨level0, List.mem_cons_self, f,
            List.mem_reverse.mp (List.mem_filter.mp hf).1, hread⟩
  obtain ⟨l, hl, f, hf, hread⟩ := htable
  obtain ⟨i, hi⟩ := List.mem_iff_getElem?.mp hl
  refine ⟨i, f, ?_, of_readTable hread⟩
  rw [levelAt, List.getD_eq_getElem?_getD, hi]
  exact hf

end Found

/-! ## The log of a location -/

/-- The log of a table above the levels that own logs belongs to nobody. -/
theorem Machine.Traced.of_shallow {cond : Machine → Action → Prop} {m : Machine}
    (reached : Machine.Reachable crc32c cond m) {i : ℕ} (level : i < kCompactionVLogLevel)
    {f : SSTFile VLogEntryInfo} (hf : f ∈ levelAt m.store.levels i) {e : Entry VLogEntryInfo}
    (he : e ∈ f.entries) (type : e.key.type = .kTypeValue) :
    Machine.Traced m e.value.fileNo (fun _ => False) [] m := by
  have howned := vlogsOwned_of_reachable reached
  have hheld : m.store.Holds e := .inr (.inr ⟨i, f, hf, he⟩)
  obtain ⟨hlt, hmain⟩ := howned.main_entries e (.inr (.inr ⟨i, level, f, hf, he⟩)) type
  refine ⟨hlt, by simp, fun task htask => ?_, by simp, fun j hj g hg => ?_, ?_,
    fun _ => Dir.Grows.refl _ _⟩
  · simpa using hmain.2 task htask
  · simpa using hmain.1 j hj g hg
  · simpa using logsPresent_of_reachable reached e hheld type

/-- The log of a table in the levels that own logs belongs to that table. -/
theorem Machine.Traced.of_deep {cond : Machine → Action → Prop} {m : Machine}
    (reached : Machine.Reachable crc32c cond m) {i : ℕ} (level : kCompactionVLogLevel ≤ i)
    {f : SSTFile VLogEntryInfo} (hf : f ∈ levelAt m.store.levels i) {e : Entry VLogEntryInfo}
    (he : e ∈ f.entries) (type : e.key.type = .kTypeValue) :
    Machine.Traced m e.value.fileNo (· = f.fileNumber) [] m := by
  have howned := vlogsOwned_of_reachable reached
  have hnumbered := (seqOrdered_of_reachable reached).numbered
  have hfiles := tableFiles_of_reachable reached
  have hheld : m.store.Holds e := .inr (.inr ⟨i, f, hf, he⟩)
  rw [howned.owned_entries i level f hf e he type]
  refine ⟨howned.owned_lt i level f hf, ?_, fun task htask => ?_, fun j hj g hg => ?_,
    fun j hj g hg => ⟨fun hlog => ?_, fun hnumber => ?_⟩, ?_, fun _ => Dir.Grows.refl _ _⟩
  · rintro t rfl
    exact hnumbered.below i f hf
  · constructor
    · exact fun hn => absurd hn (howned.owned_safe i level f hf task htask)
    · rintro ⟨t, ht, rfl⟩
      exact absurd rfl (hfiles.doomed_apart task htask _ ht i f hf)
  · intro hnumber
    have hij := hnumbered.unique j i g hg f hf hnumber
    omega
  · rw [(howned.owned_once j i hj level g hg f hf hlog).2]
  · obtain rfl := hnumbered.unique j i g hg f hf hnumber
    rw [eq_of_number_eq (hnumbered.ascending j) hg hf hnumber]
  · have hpresent := logsPresent_of_reachable reached e hheld type
    rw [howned.owned_entries i level f hf e he type] at hpresent
    simpa using hpresent

/-- A table of one entry can be searched. -/
theorem SSTFile.Point.searchable {m : Machine} {cond : Machine → Action → Prop}
    (reached : Machine.Reachable crc32c cond m) {allowed : Bytes → Prop} {i : ℕ}
    {f : SSTFile VLogEntryInfo} (hf : f ∈ levelAt m.store.levels i) (point : f.Point allowed) :
    f.Searchable m.store.sstFiles m.store.lastSequence := by
  obtain ⟨e, hentries, hsmall, hlarge, -⟩ := point
  refine ⟨(tableFiles_of_reachable reached).present i f hf, ?_, fun d hd => ?_, fun d hd => ?_⟩
  · rw [hentries]
    exact List.pairwise_singleton _ _
  · rw [hentries, List.mem_singleton] at hd
    rw [hd, hsmall, hlarge]
    exact ⟨le_rfl, le_rfl⟩
  · have haccounted := accounted_of_reachable reached
    obtain ⟨w, hw, -⟩ := haccounted.sound d (.inr (.inr ⟨i, f, hf, hd⟩))
    rw [haccounted.length]
    exact (List.getElem?_eq_some_iff.mp hw).1

/-- A key that a table of one entry holds is found. -/
theorem getLevels_of_points {m : Machine} {cond : Machine → Action → Prop}
    (sized : ∀ m a, cond m a → m.Sized a) (reached : Machine.Reachable crc32c cond m)
    {allowed : ℕ → Bytes → Prop} (points : ∀ i, ∀ f ∈ levelAt m.store.levels i, f.Point (allowed i))
    {key : Bytes} {i : ℕ} {f : SSTFile VLogEntryInfo} (hf : f ∈ levelAt m.store.levels i)
    {e : Entry VLogEntryInfo} (he : e ∈ f.entries) (user : e.key.userKey = key) :
    ∃ info, getLevels m.store.sstFiles (queryKey m.store.lastSequence key) m.store.levels = .ok info ∧
      info.length ≠ 0 := by
  have hget := m.store.getLevels_eq_first (u := key)
    (fun i f hf => (points i f hf).searchable reached hf) (levels_ne_of_reachable reached)
  cases hfirst : firstInTables ((levelAt m.store.levels 0).reverse ++
      (m.store.levels.drop 1).flatten) key with
  | none =>
      have hmiss := List.findSome?_eq_none_iff.mp hfirst f (mem_tables.mpr ⟨i, hf⟩)
      exact absurd user (lookup_eq_none.mp hmiss e he)
  | some d =>
      obtain ⟨g, hg, hlookup⟩ := List.exists_of_findSome?_eq_some hfirst
      obtain ⟨j, hg⟩ := mem_tables.mp hg
      have hd : d ∈ g.entries := lookup_mem hlookup
      have htype : d.key.type = .kTypeValue := by
        obtain ⟨c, hentries, -, -, htype, -⟩ := points j g hg
        rw [hentries, List.mem_singleton] at hd
        rwa [hd]
      obtain ⟨w, -, hresolves⟩ := (durable_of_reachable sized reached).resolves d
        (.inr (.inr ⟨j, g, hg, hd⟩)) htype
      refine ⟨d.value, ?_, ?_⟩
      · rw [hget, hfirst, sstAnswer, if_pos htype]
      · rw [hresolves.length_eq]
        simp [recordLength]

/-- **The log that a lookup names exists when it is opened**, exactly if the location was found
above the levels that own value logs, or the task that deletes the table it was found in has not
run since.  Then the read gives what it would have given at the lookup. -/
theorem log_exists_iff {cond cond' : Machine → Action → Prop} {m : Machine}
    (reached : Machine.Reachable crc32c cond m) {query : InternalKey} {info : VLogEntryInfo}
    (found : getLevels m.store.sstFiles query m.store.levels = .ok info) (value : info.length ≠ 0) :
    ∃ i, ∃ f ∈ levelAt m.store.levels i, ∃ e ∈ f.entries, e.key.userKey = query.userKey ∧
      e.key.type = .kTypeValue ∧ e.value = info ∧
      ∀ ran m', Machine.Since crc32c cond' m ran m' →
        (m'.store.vlogs.inode info.fileNo ≠ none ↔
          i < kCompactionVLogLevel ∨ ∀ task ∈ ran, f.fileNumber ∉ task.1) ∧
        (m'.store.vlogs.inode info.fileNo ≠ none → ∀ v, Resolves crc32c m.store.vlogs info e.key v →
          (m'.store.readValue crc32c info).1
            = expiryCheck (some m'.store.lastLivingSequence) e.key.encode v) := by
  obtain ⟨i, f, hf, e, he, huser, hzero | ⟨htype, rfl⟩⟩ := of_getLevels found
  · exact absurd (by rw [hzero]; rfl) value
  refine ⟨i, f, hf, e, he, huser, htype, rfl, fun ran m' since => ?_⟩
  have hread : ∀ owner, Machine.Traced m e.value.fileNo owner ran m' →
      m'.store.vlogs.inode e.value.fileNo ≠ none → ∀ v,
        Resolves crc32c m.store.vlogs e.value e.key v → (m'.store.readValue crc32c e.value).1
          = expiryCheck (some m'.store.lastLivingSequence) e.key.encode v := by
    intro owner htraced hne v hresolves
    rw [Store.readValue_eq]
    exact readCached_of_resolves (agree_of_reachable (since.reachable reached)).same
      (hresolves.mono (htraced.grows hne)) _
  by_cases hlevel : i < kCompactionVLogLevel
  · have htraced := (Machine.Traced.of_shallow reached hlevel hf he htype).since reached since
    refine ⟨?_, hread _ htraced⟩
    rw [htraced.exists_iff]
    simp [hlevel]
  · have htraced := (Machine.Traced.of_deep reached (not_lt.mp hlevel) hf he htype).since reached since
    refine ⟨?_, hread _ htraced⟩
    rw [htraced.exists_iff]
    simp only [hlevel, false_or]
    exact ⟨fun hall task htask hmem => hall task htask _ hmem rfl,
      fun hall task htask t ht heq => hall task htask (heq ▸ ht)⟩

/-- A lookup in a full level 0, its compaction, and the deletion of the tables that it merged: the
log still exists. -/
theorem log_exists_merged :
    ∃ (m m' : Machine) (query : InternalKey) (info : VLogEntryInfo)
      (ran : List (List ℕ × List ℕ)),
      Machine.Reachable crc32cCastagnoli Machine.Regular m ∧
      getLevels m.store.sstFiles query m.store.levels = .ok info ∧ info.length ≠ 0 ∧
      Machine.Since crc32cCastagnoli Machine.Regular m ran m' ∧
      (∃ task ∈ ran, ∃ f ∈ levelAt m.store.levels 0, f.fileNumber ∈ task.1) ∧
      m'.store.vlogs.inode info.fileNo ≠ none := by
  obtain ⟨m, h, hhist⟩ := (Machine.Tower.new crc32cCastagnoli fun _ _ => True).fill (n := 4)
    (by decide) isLong_longKey trivial
  have hwritten : longWrite longKey ∈ m.history := by simp [hhist]
  obtain ⟨i, f, hf, e, he, huser⟩ := h.mem_level hwritten
  obtain ⟨info, hget, hlength⟩ :=
    getLevels_of_points (fun _ _ hm => hm.2.sized) h.reached h.points hf he huser
  -- The compaction, and the task that it leaves.
  obtain ⟨picked, r, new, p, hlevel, hold, hcomp, -, hstep, -⟩ :=
    h.compact (i := 0) (.inl ⟨rfl, le_rfl⟩) fun _ _ => trivial
  obtain ⟨k, task, htask, hnumbers⟩ : ∃ (k : ℕ) (task : List ℕ × List ℕ),
      (m.store.compacted r).tasks[k]? = some task ∧ task.1 = picked.rmSstFiles := by
    cases hcomp with
    | move moves => exact absurd hlevel moves.1
    | merge _ _ _ _ rm_sst rm_vlog =>
        have hne : picked.rmSstFiles ≠ [] := by simp [CompactInfo.rmSstFiles, p.old_ne]
        refine ⟨m.store.tasks.length, (picked.rmSstFiles, r.rmVlogFiles), ?_, rfl⟩
        simp [Store.compacted, rm_sst, hne]
  obtain ⟨g, hg⟩ := List.exists_mem_of_ne_nil _ p.old_ne
  have hrun : Machine.Since crc32cCastagnoli Machine.Regular m _ _ :=
    (Machine.Since.refl.step (a := .compact 0) ⟨fun _ => (h.size 0).ge, h.fitting 0⟩ hstep).step
      (a := .runTask k) ⟨trivial, trivial⟩ .runTask
  obtain ⟨j, f', hf', _, _, _, _, _, hiff⟩ :=
    @log_exists_iff _ _ Machine.Regular _ h.reached _ _ hget hlength
  have hzero : j = 0 := by
    have hsize : (levelAt m.store.levels j).length = _ := h.size j
    have hpos := List.length_pos_of_mem hf'
    rcases j with _ | _ | _ | _ | j
    · rfl
    all_goals exact absurd hsize hpos.ne'
  refine ⟨m, _, _, info, _, h.reached, hget, hlength, hrun, ⟨task, ?_, g, ?_, ?_⟩, ?_⟩
  · simp [Action.tasks, htask]
  · rw [hold] at hg
    exact hg
  · rw [hnumbers]
    exact List.mem_map_of_mem (List.mem_append_left _ hg)
  · exact (hiff _ _ hrun).1.mpr (.inl (hzero ▸ (by decide)))

/-! ## A log that is deleted before it is read -/

/-- The steps of the background thread and of the executor. -/
def Action.Background : Action → Prop
  | .flush | .clearImm | .compact _ | .runTask _ => True
  | _ => False

/-- A regular run of the background thread and the executor. -/
def Machine.Behind (m : Machine) (a : Action) : Prop := m.Regular a ∧ a.Background

/-- Where a key is in the tower before level 2 overflows again. -/
theorem Machine.Tower.side {low key high : Bytes} {m : Machine} {c d : ℕ}
    (h : Machine.Tower crc32c (Machine.Tower.Around low key high) (tiers 0 0 c d) m) {u : Bytes}
    (other : u ≠ key) (written : longWrite u ∈ m.history) :
    ∃ g ∈ levelAt m.store.levels 2, ∃ e : Entry VLogEntryInfo, g.smallest = e.key ∧
      g.largest = e.key ∧ e.key.userKey = u := by
  obtain ⟨i, g, hg, e, he, huser⟩ := h.mem_level written
  obtain ⟨e', hentries, hsmall, hlarge, -, -, hallowed⟩ := h.points i g hg
  rw [hentries, List.mem_singleton] at he
  subst he
  have hempty : tiers 0 0 c d i ≠ 0 := by
    intro hzero
    have hnil : (levelAt m.store.levels i).length = 0 := (h.size i).trans hzero
    rw [List.length_eq_zero_iff.mp hnil] at hg
    exact absurd hg List.not_mem_nil
  rcases hallowed with ⟨hi, -⟩ | ⟨-, hkey⟩
  · obtain rfl : i = 2 := by
      match i with
      | 0 | 1 => exact absurd rfl hempty
      | 2 => rfl
      | _ + 3 => omega
    exact ⟨g, hg, e, hsmall, hlarge, huser⟩
  · exact absurd (huser.symm.trans hkey) other

/-- **A table of level 3 between the keys above it is deleted** with its value log, when level 2
overflows. -/
theorem Machine.Tower.delete {low key high : Bytes} {m : Machine} {c d : ℕ}
    (h : Machine.Tower crc32c (Machine.Tower.Around low key high) (tiers 0 0 c d) m)
    (more : 103 ≤ c) (less : c ≤ 2 ^ 31) (below : low < key) (above : key < high)
    (writtenLow : longWrite low ∈ m.history) (writtenHigh : longWrite high ∈ m.history)
    {f : SSTFile VLogEntryInfo} (hf : f ∈ levelAt m.store.levels 3) :
    ∃ (s' : Store) (i : ℕ) (task : List ℕ × List ℕ),
      Machine.Step crc32c m (.compact 2) { m with store := s' } ∧
      Machine.Tower crc32c (fun _ _ => True) (tiers 0 0 0 (c + d)) { m with store := s' } ∧
      s'.tasks[i]? = some task ∧ f.fileNumber ∈ task.1 ∧ f.vlogFileNo ∈ task.2 := by
  have hany : Machine.Tower crc32c (fun _ _ => True) (tiers 0 0 c d) m := h.mono fun _ _ _ => trivial
  obtain ⟨s', hstep, htower, hdeleted⟩ := hany.compact2 more less fun _ _ => trivial
  obtain ⟨e, hentries, hsmall, hlarge, -, -, hallowed⟩ := h.points 3 f hf
  have huser : e.key.userKey = key := by
    rcases hallowed with ⟨hlt, -⟩ | ⟨-, heq⟩
    · omega
    · exact heq
  obtain ⟨g, hg, d, hgsmall, -, hd⟩ := h.side below.ne writtenLow
  obtain ⟨k, hk, d', -, hklarge, hd'⟩ := h.side above.ne' writtenHigh
  obtain ⟨task, htask, hmem⟩ := hdeleted f hf (by rw [hsmall, hlarge])
    ⟨g, hg, by
      rw [hgsmall, hlarge]
      exact (InternalKey.lt_iff.mpr (.inl (by rwa [hd, huser]))).le⟩
    ⟨k, hk, by
      rw [hsmall, hklarge]
      exact (InternalKey.lt_iff.mpr (.inl (by rwa [hd', huser]))).le⟩
  obtain ⟨i, hi⟩ := List.mem_iff_getElem?.mp htask
  exact ⟨s', i, task, hstep, htower, hi, hmem⟩

/-- Tables and their value logs are waiting to be deleted, with two hundred and twenty-four tables in
level 3. -/
theorem exists_deep_task (crc32c : Bytes → ℕ) :
    ∃ (m : Machine) (i : ℕ) (task : List ℕ × List ℕ),
      Machine.Tower crc32c (fun _ _ => True) (tiers 0 0 0 224) m ∧
      m.store.tasks[i]? = some task ∧ task.1 ≠ [] ∧ task.2 ≠ [] := by
  have hbelow : (0 : Byte) :: longKey < 1 :: longKey := List.cons_lt_cons_iff.mpr (.inl (by decide))
  have habove : (1 : Byte) :: longKey < 2 :: longKey := List.cons_lt_cons_iff.mpr (.inl (by decide))
  obtain ⟨m₀, h₀, hlow, -, hhigh, -⟩ := Machine.Tower.around crc32c (isLong_cons_longKey 0) (isLong_cons_longKey 1) (isLong_cons_longKey 2)
  obtain ⟨m₁, h₁, hhist⟩ := h₀.fill (n := 1) (by decide) (isLong_cons_longKey 2) (.inl ⟨by decide, .inr rfl⟩)
  obtain ⟨s₂, -, h₂, -⟩ := h₁.compact0 fun _ => Machine.Tower.around_down (by decide)
  obtain ⟨s₃, -, h₃, -⟩ :=
    h₂.compact1 (by decide) (by decide) fun _ => Machine.Tower.around_down (by decide)
  obtain ⟨f, hf⟩ : ∃ f, f ∈ levelAt s₃.levels 3 := by
    refine List.exists_mem_of_length_pos ?_
    rw [show (levelAt s₃.levels 3).length = _ from h₃.size 3]
    decide
  have hhist₃ : ∀ w ∈ m₀.history, w ∈ m₁.history := fun w hw => hhist ▸ List.mem_append_left _ hw
  obtain ⟨s₄, i, task, -, h₄, htask, htable, hlog⟩ := h₃.delete (by decide) (by decide) hbelow habove
    (hhist₃ _ hlow) (hhist₃ _ hhigh) hf
  exact ⟨_, i, task, h₄, htask, List.ne_nil_of_mem htable, List.ne_nil_of_mem hlog⟩

/-- **A lookup whose log is deleted before it is read**, with the keys of the tables around it. -/
theorem exists_deleted_log (crc32c : Bytes → ℕ) {low key high : Bytes} (longLow : IsLong low)
    (long : IsLong key) (longHigh : IsLong high) (below : low < key) (above : key < high) :
    ∃ (m m' : Machine) (n : ℕ) (info : VLogEntryInfo) (ran : List (List ℕ × List ℕ)),
      Machine.Reachable crc32c Machine.Regular m ∧
      lastWrite m.history key = some (longWrite key, n) ∧
      m.store.mem.get (queryKey m.store.lastSequence key) = none ∧
      (m.store.imm.bind fun imm => imm.get (queryKey m.store.lastSequence key)) = none ∧
      getLevels m.store.sstFiles (queryKey m.store.lastSequence key) m.store.levels = .ok info ∧
      info.length ≠ 0 ∧ Machine.Since crc32c Machine.Behind m ran m' ∧
      m'.store.lastLivingSequence = 0 ∧ m'.store.vlogs.inode info.fileNo = none ∧
      (m'.store.readValue crc32c info).1 = .fail .kIOError := by
  obtain ⟨m₀, h₀, hlow, hkey, hhigh, hall⟩ := Machine.Tower.around crc32c longLow long longHigh
  obtain ⟨s, imm, info₀, hreached, hmem, himm, hentries, hlive, hhandles, -, -, hlevels⟩ :=
    h₀.write (by decide) longHigh
  have hpoints : ∀ i, ∀ f ∈ levelAt s.levels i,
      f.Point (Machine.Tower.Around low key high i) := by
    rw [hlevels]
    exact h₀.points
  -- The lookup.
  obtain ⟨i₀, f₀, hf₀, e₀, he₀, huser₀⟩ := h₀.mem_level hkey
  rw [← hlevels] at hf₀
  obtain ⟨info, hget, hlength⟩ :=
    getLevels_of_points (fun _ _ hm => hm.2.sized) hreached hpoints hf₀ he₀ huser₀
  obtain ⟨i, f, hf, e, he, huser, hzero | ⟨htype, rfl⟩⟩ := of_getLevels hget
  · exact absurd (by rw [hzero]; rfl) hlength
  obtain rfl : i = 3 := by
    obtain ⟨d, hd, -, -, -, -, hallowed⟩ := hpoints i f hf
    rw [hd, List.mem_singleton] at he
    rw [← he, huser] at hallowed
    rcases hallowed with ⟨-, heq | heq⟩ | ⟨hi, -⟩
    · exact absurd heq below.ne'
    · exact absurd heq above.ne
    · exact hi
  have hwrites : ∀ w ∈ m₀.history ++ [longWrite high], ∃ u, w = longWrite u := by
    intro w hw
    rcases List.mem_append.mp hw with hw | hw
    · exact hall w hw
    · exact ⟨_, List.mem_singleton.mp hw⟩
  obtain ⟨n, hlast⟩ := lastWrite_longWrite hwrites (List.mem_append_left _ hkey)
  -- The flush and the compactions of levels 0 and 1.
  obtain ⟨m₁, hflush, hclear⟩ := Store.flush_steps crc32c (m₀.history ++ [longWrite high])
    himm hentries longHigh.2 (seqOrdered_of_reachable hreached).numbered
  have h₂ : Machine.Tower crc32c (Machine.Tower.Around low key high) (tiers 4 12 96 112)
      ⟨s.flushed (.ofWrite high m₀.store.lastSequence .kTypeValue) info₀, false,
        m₀.history ++ [longWrite high]⟩ := by
    refine (h₀.flushed longHigh (.inl ⟨by decide, .inr rfl⟩) hreached hmem himm hentries hlive
      hhandles hlevels).congr fun i => ?_
    match i with
    | 0 | 1 | 2 | 3 | _ + 4 => rfl
  obtain ⟨s₃, hstep₃, h₃, hsame₃⟩ := h₂.compact0 fun _ => Machine.Tower.around_down (by decide)
  obtain ⟨s₄, hstep₄, h₄, hsame₄⟩ :=
    h₃.compact1 (by decide) (by decide) fun _ => Machine.Tower.around_down (by decide)
  -- The compaction of level 2, and the task that deletes the table.
  have hf₄ : f ∈ levelAt s₄.levels 3 := by
    rw [hsame₄, hsame₃]
    simpa only [Store.flushed, levelAt_setLevel, if_neg (show ¬ 3 = 0 by decide)] using hf
  obtain ⟨s₅, j, task, hstep₅, h₅, htask, hdoomed, -⟩ := h₄.delete (by decide) (by decide)
    below above (List.mem_append_left _ hlow) (List.mem_append_left _ hhigh) hf₄
  have hsince : Machine.Since crc32c Machine.Behind ⟨s, false, m₀.history ++ [longWrite high]⟩ [task]
      ⟨s₅.runTask j, false, m₀.history ++ [longWrite high]⟩ := by
    have hrun : Machine.Since crc32c Machine.Behind ⟨s, false, m₀.history ++ [longWrite high]⟩
        [] ⟨s₅, false, m₀.history ++ [longWrite high]⟩ :=
      ((((Machine.Since.refl.step (a := .flush) ⟨⟨trivial, trivial⟩, trivial⟩ hflush).step
        (a := .clearImm) ⟨⟨trivial, trivial⟩, trivial⟩ hclear).step
        (a := .compact 0) ⟨⟨fun _ => (h₂.size 0).ge, h₂.fitting 0⟩, trivial⟩ hstep₃).step
        (a := .compact 1) ⟨⟨fun hone => absurd hone (by decide), h₃.fitting 1⟩, trivial⟩ hstep₄).step
        (a := .compact 2) ⟨⟨fun htwo => absurd htwo (by decide), h₄.fitting 2⟩, trivial⟩ hstep₅
    have hlast := hrun.step (a := .runTask j) ⟨⟨trivial, trivial⟩, trivial⟩ .runTask
    simpa only [Action.tasks, htask, List.nil_append, Option.toList_some] using hlast
  have hgone : (s₅.runTask j).vlogs.inode e.value.fileNo = none := by
    have htraced := (Machine.Traced.of_deep hreached (i := 3) le_rfl hf he htype).since hreached hsince
    by_contra hne
    exact htraced.exists_iff.mp hne task (List.mem_singleton_self _) _ hdoomed rfl
  have hafter : (s₅.runTask j).handles = [] ∧ (s₅.runTask j).lastLivingSequence = 0 := by
    simp only [Store.runTask, htask, Store.deleteFiles]
    exact ⟨h₅.handles, h₅.live⟩
  refine ⟨_, _, n, e.value, [task], hreached, hlast, ?_, ?_, hget, hlength, hsince, hafter.2, hgone, ?_⟩
  · rw [hmem]
    rfl
  · have hnewer : ∀ d ∈ imm.entries, d.key.seq < s.lastSequence := by
      intro d hd
      have haccounted := accounted_of_reachable hreached
      obtain ⟨w, hw, -⟩ := haccounted.sound d (.inr (.inl ⟨imm, himm, hd⟩))
      rw [haccounted.length]
      exact (List.getElem?_eq_some_iff.mp hw).1
    have hsorted : StrictlySorted imm.entries := by
      rw [hentries]
      exact List.pairwise_singleton _ _
    have hmiss : lookup imm.entries key = none := by
      refine lookup_eq_none.mpr fun d hd => ?_
      rw [hentries, List.mem_singleton] at hd
      rw [hd]
      exact above.ne'
    show (s.imm.bind fun imm => imm.get (queryKey s.lastSequence key)) = none
    rw [himm, Option.bind_some, MemTable.get_eq_lookup hsorted hnewer, hmiss]
    rfl
  · rw [Store.readValue, hafter.1, List.find?_nil, hgone]

/-- **A lookup can fail because of a compaction.**  The last write of the key is a `put` that has not
expired, and its value was found. -/
theorem log_deleted_before_read :
    ∃ (m m' : Machine) (key : Bytes) (w : Write) (n : ℕ) (info : VLogEntryInfo)
      (ran : List (List ℕ × List ℕ)),
      Machine.Reachable crc32cCastagnoli Machine.Regular m ∧
      lastWrite m.history key = some (w, n) ∧ w.type = .kTypeValue ∧
      m.store.mem.get (queryKey m.store.lastSequence key) = none ∧
      (m.store.imm.bind fun imm => imm.get (queryKey m.store.lastSequence key)) = none ∧
      getLevels m.store.sstFiles (queryKey m.store.lastSequence key) m.store.levels = .ok info ∧
      info.length ≠ 0 ∧ Machine.Since crc32cCastagnoli Machine.Behind m ran m' ∧
      m'.store.lastLivingSequence ≤ n ∧ m'.store.vlogs.inode info.fileNo = none ∧
      (m'.store.readValue crc32cCastagnoli info).1 = .fail .kIOError := by
  obtain ⟨m, m', n, info, ran, hreached, hlast, hmem, himm, hget, hlength, hsince, hlive, hgone, hread⟩ :=
    exists_deleted_log crc32cCastagnoli (isLong_cons_longKey 0) (isLong_cons_longKey 1) (isLong_cons_longKey 2)
      (List.cons_lt_cons_iff.mpr (.inl (by decide))) (List.cons_lt_cons_iff.mpr (.inl (by decide)))
  exact ⟨m, m', 1 :: longKey, longWrite (1 :: longKey), n, info, ran, hreached, hlast, rfl, hmem, himm,
    hget, hlength, hsince, by rw [hlive]; exact Nat.zero_le n, hgone, hread⟩

end Lsmkv
