import Lsmkv.Durability
import Mathlib.Logic.Relation

/-!
# Filling the levels

What a store does when nothing goes wrong: a write succeeds, and the memtable it fills is
handed over, flushed and released (`Resting.round`); the compaction of a full level 0
succeeds and empties it (`Resting.compactLevel0`).  Every step is taken when the code takes
it (`Regular`).

The keys here are so long that one of them fills a memtable, and, in a compaction, a table.
-/

namespace Lsmkv

open ByteCode Files

variable {crc32c : Bytes → ℕ}

/-- A table with the largest number comes last. -/
theorem emplace_of_lt {β : Type} {t : SSTFile β} {l : Level β}
    (h : ∀ f ∈ l, f.fileNumber < t.fileNumber) : emplace t l = l ++ [t] := by
  induction l with
  | nil => rfl
  | cons f l ih =>
      have hlt := h f List.mem_cons_self
      rw [emplace, if_neg (by omega), if_neg (by omega), ih fun g hg => h g (List.mem_cons_of_mem _ hg)]
      rfl

/-- New tables, in the order of their numbers, fill an empty level. -/
theorem addFiles_nil {β : Type} {files : List (SSTFile β)}
    (ascending : files.Pairwise fun f g => f.fileNumber < g.fileNumber) : addFiles files [] = files := by
  have hadd : ∀ (l : Level β), (l ++ files).Pairwise (fun f g => f.fileNumber < g.fileNumber) →
      addFiles files l = l ++ files := by
    clear ascending
    induction files with
    | nil => exact fun l _ => by simp [addFiles]
    | cons f files ih =>
        intro l hl
        have hlast : ∀ g ∈ l, g.fileNumber < f.fileNumber :=
          fun g hg => (List.pairwise_append.mp hl).2.2 g hg f List.mem_cons_self
        have hcons : addFiles (f :: files) l = addFiles files (emplace f l) := rfl
        have hassoc : l ++ f :: files = l ++ [f] ++ files := by simp
        rw [hcons, emplace_of_lt hlast, hassoc]
        exact ih _ (by rwa [← hassoc])
  simpa using hadd [] (by simpa using ascending)

/-- The store with one more table of one entry in level 0. -/
def Store.flushed (s : Store) (k : InternalKey) (info : VLogEntryInfo) : Store :=
  { s with
    imm := none
    fileno := s.fileno + 1
    levels := setLevel s.levels 0 (levelAt s.levels 0 ++ [⟨s.fileno, k, k, 0, [⟨k, info⟩]⟩])
    sstFiles := Function.update s.sstFiles s.fileno true }

/-- The flush of an immutable memtable with one short entry, and its release. -/
theorem Store.flush_steps (crc32c : Bytes → ℕ) (history : List Write) {s : Store} {imm : MemTable} {k : InternalKey}
    {info : VLogEntryInfo} (pending : s.imm = some imm) (entries : imm.entries = [⟨k, info⟩])
    (short : k.userKey.length ≤ keptKeyLength) (numbered : Numbered s.levels s.fileno) :
    ∃ m, Machine.Step crc32c ⟨s, false, history⟩ .flush m ∧
      Machine.Step crc32c m .clearImm ⟨s.flushed k info, false, history⟩ := by
  let t : SSTFile VLogEntryInfo := ⟨s.fileno, k, k, 0, [⟨k, info⟩]⟩
  let s' : Store := { s with
    fileno := s.fileno + 1
    levels := setLevel s.levels 0 (emplace t (levelAt s.levels 0))
    sstFiles := Function.update s.sstFiles s.fileno true }
  have hlevels : emplace t (levelAt s.levels 0) = levelAt s.levels 0 ++ [t] :=
    emplace_of_lt fun f hf => numbered.below 0 f hf
  have hflush : Machine.Step crc32c ⟨s, false, history⟩ .flush ⟨s', true, history⟩ := by
    refine .flush (m := ⟨s, false, history⟩) rfl pending ?_
    simp [Store.writeLevel0Table, buildTable, entries, tableKept_singleton short info, s', t]
  have hclear : Machine.Step crc32c ⟨s', true, history⟩ .clearImm ⟨s'.clearImm, false, history⟩ :=
    .clearImm (m := ⟨s', true, history⟩) rfl
  have hsame : s'.clearImm = s.flushed k info := by
    simp only [s', Store.clearImm, Store.flushed, hlevels, t]
  exact ⟨_, hflush, hsame ▸ hclear⟩

namespace Machine

variable (crc32c) in
/-- A run from one machine to another. -/
def Run (cond : Machine → Action → Prop) : Machine → Machine → Prop :=
  Relation.ReflTransGen fun m m' => ∃ a, cond m a ∧ Step crc32c m a m'

theorem Run.step {cond : Machine → Action → Prop} {m m' m'' : Machine} {a : Action}
    (run : Run crc32c cond m m') (taken : Step crc32c m' a m'') (meets : cond m' a) :
    Run crc32c cond m m'' :=
  Relation.ReflTransGen.tail run ⟨a, meets, taken⟩

theorem Reachable.run {cond : Machine → Action → Prop} {m m' : Machine}
    (h : Reachable crc32c cond m) (run : Run crc32c cond m m') : Reachable crc32c cond m' := by
  induction run with
  | refl => exact h
  | tail _ taken ih =>
      obtain ⟨a, meets, taken⟩ := taken
      exact .step ih meets taken

theorem Run.mono {cond cond' : Machine → Action → Prop} (imp : ∀ m a, cond m a → cond' m a)
    {m m' : Machine} (run : Run crc32c cond m m') : Run crc32c cond' m m' := by
  refine Relation.ReflTransGen.mono ?_ _ _ run
  rintro m m' ⟨a, meets, taken⟩
  exact ⟨a, imp m a meets, taken⟩

/-- Every step is taken when the code takes it, and every record and table fits. -/
def Regular (m : Machine) (a : Action) : Prop := m.Scheduled a ∧ m.Fitting a

/-- The steps of writing and flushing. -/
def FlushStep : Action → Prop
  | .write .. | .handOver | .flush | .clearImm => True
  | _ => False

/-- A regular run of writes and flushes. -/
def Flushing (m : Machine) (a : Action) : Prop := m.Regular a ∧ FlushStep a

/-- Nothing is in the memtables, and the background thread is idle. -/
structure Resting (m : Machine) : Prop where
  mem : m.store.mem = .new
  imm : m.store.imm = none
  idle : m.flushed = false

/-- A write into an empty memtable whose key fills it, and is not too long for a table. -/
structure Fills (w : Write) : Prop where
  value : w.type = .kTypeValue
  fills : Store.memMaxSize ≤ w.key.length
  short : w.key.length ≤ keptKeyLength
  fits : w.Fits

theorem Fills.usage {w : Write} (h : Fills w) (seq : ℕ) (info : VLogEntryInfo) :
    Store.memMaxSize
      < (MemTable.new.put (.ofWrite w.key seq w.type) info 1).memoryUsage := by
  have hshort := h.short
  have hfills := h.fills
  rw [keptKeyLength] at hshort
  simp only [MemTable.memoryUsage, MemTable.put, MemTable.new, MemTable.nodeSize, MemTable.maxLevel,
    InternalKey.ofWrite_userKey]
  rw [Nat.mod_eq_of_lt (by omega)]
  omega

/-- A key that is as long as a table. -/
theorem Fills.of_long {key value : Bytes} (long : sstFileSize ≤ key.length)
    (short : key.length ≤ keptKeyLength) (fits : Write.Fits ⟨key, .kTypeValue, value⟩) :
    Fills ⟨key, .kTypeValue, value⟩ where
  value := rfl
  fills := le_trans (by decide) long
  short := short
  fits := fits

/-- A key that is just long enough. -/
theorem fills_replicate (b : Byte) : Fills ⟨List.replicate 24544 b, .kTypeValue, [9]⟩ := by
  refine ⟨rfl, ?_, ?_, ?_⟩
  · rw [List.length_replicate]
    exact le_rfl
  · rw [List.length_replicate]
    decide
  · rw [Write.Fits, List.length_replicate, List.length_singleton]
    decide

/-- A write that fills the memtable, and the hand-over. -/
theorem Resting.fill (crc32c : Bytes → ℕ) {m : Machine} (h : m.Resting) (owned : m.store.VLogsOwned)
    (room : (levelAt m.store.levels 0).length < kL0CompactionTrigger) {w : Write} (fills : Fills w) :
    ∃ s imm info, Run crc32c Flushing m ⟨s, false, m.history ++ [w]⟩ ∧
      s.mem = .new ∧ s.imm = some imm ∧
      imm.entries = [⟨.ofWrite w.key m.store.lastSequence w.type, info⟩] ∧
      s.lastSequence = m.store.lastSequence + 1 ∧
      s.lastLivingSequence = m.store.lastLivingSequence ∧
      s.fileno = m.store.fileno ∧ s.tasks = m.store.tasks ∧ s.levels = m.store.levels := by
  obtain ⟨s₁, hs₁⟩ := owned.writeImpl_isOk crc32c w .zero 1
  obtain ⟨⟨info, hmem⟩, himm, hlevels, hfileno, hseq, hlive⟩ := Store.writeImpl_fields hs₁
  rw [h.mem] at hmem
  rw [h.imm] at himm
  have husage : Store.memMaxSize < s₁.mem.memoryUsage := hmem ▸ fills.usage _ info
  have hempty : m.store.mem.memoryUsage ≤ Store.memMaxSize := by
    rw [h.mem]
    decide
  have hfits : w.Fits := fills.fits
  have hroom : (levelAt s₁.levels 0).length < kL0CompactionTrigger := by rwa [hlevels]
  have hwrite : Step crc32c m (.write w .zero 1) ⟨s₁, false, m.history ++ [w]⟩ := h.idle ▸ .write hs₁
  have hhand : Step crc32c ⟨s₁, false, m.history ++ [w]⟩ .handOver
      ⟨{ s₁ with imm := some s₁.mem, mem := .new }, false, m.history ++ [w]⟩ := by
    refine .handOver (m := ⟨s₁, false, m.history ++ [w]⟩) ?_
    simp [Store.handOver, himm]
  refine ⟨_, s₁.mem, info, (Run.step .refl hwrite ⟨⟨hempty, hfits⟩, trivial⟩).step hhand
    ⟨⟨⟨husage, hroom⟩, trivial⟩, trivial⟩, rfl, rfl, ?_, hseq, hlive, hfileno,
    (Store.writeImpl_files hs₁).1, hlevels⟩
  rw [hmem]
  rfl

/-- **One round**: a write that fills the memtable, the hand-over, the flush and the release.
Level 0 gets one more table, with the one entry. -/
theorem Resting.round (crc32c : Bytes → ℕ) {m : Machine} (h : m.Resting) (owned : m.store.VLogsOwned)
    (numbered : Numbered m.store.levels m.store.fileno)
    (room : (levelAt m.store.levels 0).length < kL0CompactionTrigger) {w : Write} (fills : Fills w) :
    ∃ m' info, Run crc32c Flushing m m' ∧ m'.Resting ∧
      m'.history = m.history ++ [w] ∧
      m'.store.lastSequence = m.store.lastSequence + 1 ∧
      m'.store.lastLivingSequence = m.store.lastLivingSequence ∧
      m'.store.fileno = m.store.fileno + 1 ∧ m'.store.tasks = m.store.tasks ∧
      m'.store.levels = setLevel m.store.levels 0 (levelAt m.store.levels 0 ++
        [⟨m.store.fileno, .ofWrite w.key m.store.lastSequence w.type,
          .ofWrite w.key m.store.lastSequence w.type, 0,
          [⟨.ofWrite w.key m.store.lastSequence w.type, info⟩]⟩]) := by
  obtain ⟨s, imm, info, hrun, hmem, himm, hentries, hseq, hlive, hfileno, htasks, hlevels⟩ :=
    h.fill crc32c owned room fills
  have hnumbered : Numbered s.levels s.fileno := by rwa [hlevels, hfileno]
  obtain ⟨m₁, hflush, hclear⟩ := Store.flush_steps crc32c (m.history ++ [w]) himm hentries
    fills.short hnumbered
  refine ⟨_, info, (hrun.step hflush ⟨⟨trivial, trivial⟩, trivial⟩).step hclear
    ⟨⟨trivial, trivial⟩, trivial⟩, ⟨hmem, rfl, rfl⟩, rfl, hseq, hlive, ?_, htasks, ?_⟩
  · simp only [Store.flushed, hfileno]
  · simp only [Store.flushed, hlevels, hfileno]

/-- **The compaction of a full level 0 succeeds.** -/
theorem compactLevel0_isOk (crc32c : Bytes → ℕ) {m : Machine}
    (numbered : Numbered m.store.levels m.store.fileno)
    (full : kL0CompactionTrigger ≤ (levelAt m.store.levels 0).length) :
    ∃ info r new, Picked m.store.levels m.store.fileno info ∧ info.level = 0 ∧
      info.oldFiles = levelAt m.store.levels 0 ∧
      Compaction crc32c m.store.lastLivingSequence m.store.fileno
        ⟨m.store.lastVlogFileNo, m.store.vlogs, .new⟩ info r new ∧
      (m.store.compacted r).levels = replaceFiles m.store.levels info new ∧
      m.store.compactLevel crc32c 0 = .ok (m.store.compacted r) := by
  simp only [kL0CompactionTrigger] at full
  have htake : (levelAt m.store.levels 0).take (pickSSTFileNum m.store.levels 0)
      = levelAt m.store.levels 0 := by
    rw [pickSSTFileNum, if_pos rfl, List.take_length]
  obtain ⟨info, hpick⟩ : ∃ info, pickCompaction m.store.levels 0 = some info := by
    cases hlevel : levelAt m.store.levels 0 with
    | nil => simp [hlevel] at full
    | cons f fs =>
        rw [pickCompaction, htake, hlevel]
        exact ⟨_, rfl⟩
  obtain ⟨hzero, hold, -⟩ := pickCompaction_cases hpick
  rw [htake] at hold
  have htwo : 2 ≤ info.inputs.length := by
    simp only [CompactInfo.inputs, List.length_map, List.length_append, hold]
    omega
  obtain ⟨r, hr⟩ := doCompactionWork_isOk crc32c m.store.lastLivingSequence m.store.fileno
    m.store.levels ⟨m.store.lastVlogFileNo, m.store.vlogs, .new⟩ info
    (by rw [hzero]; decide) htwo
  obtain ⟨new, hcomp, hlevels⟩ := doCompactionWork_cases hr
  refine ⟨info, r, new, ⟨numbered, hzero ▸ hpick⟩, hzero, hold, hcomp, hlevels, ?_⟩
  simp [Store.compactLevel, hpick, hr]

/-- The background thread compacts a full level 0. -/
theorem Resting.compactLevel0 (crc32c : Bytes → ℕ) {m : Machine} (h : m.Resting)
    (numbered : Numbered m.store.levels m.store.fileno)
    (full : kL0CompactionTrigger ≤ (levelAt m.store.levels 0).length)
    (fitting : m.Fitting (.compact 0)) :
    ∃ info r new, Picked m.store.levels m.store.fileno info ∧ info.level = 0 ∧
      info.oldFiles = levelAt m.store.levels 0 ∧
      Compaction crc32c m.store.lastLivingSequence m.store.fileno
        ⟨m.store.lastVlogFileNo, m.store.vlogs, .new⟩ info r new ∧
      (m.store.compacted r).levels = replaceFiles m.store.levels info new ∧
      Run crc32c Regular m { m with store := m.store.compacted r } := by
  obtain ⟨info, r, new, p, hzero, hold, hcomp, hlevels, hok⟩ :=
    compactLevel0_isOk crc32c numbered full
  exact ⟨info, r, new, p, hzero, hold, hcomp, hlevels,
    Run.step .refl (.compact h.idle hok) ⟨fun _ => full, fitting⟩⟩

/-- A table with one entry, without its location. -/
def oneEntry (fileNumber : ℕ) (key : InternalKey) : SSTFile Unit :=
  ⟨fileNumber, key, key, 0, [⟨key, ()⟩]⟩

/-- **A new store after up to four rounds.** -/
theorem exists_filled (crc32c : Bytes → ℕ) (ws : List Write)
    (len : ws.length ≤ kL0CompactionTrigger) (fills : ∀ w ∈ ws, Fills w) :
    ∃ m, Reachable crc32c Regular m ∧ m.Resting ∧ m.history = ws ∧
      m.store.lastLivingSequence = 0 ∧ m.store.fileno = ws.length ∧ m.store.tasks = [] ∧
      (∀ i, 1 ≤ i → levelAt m.store.levels i = []) ∧ m.store.levels.length = 8 ∧
      (levelAt m.store.levels 0).map (SSTFile.view fun _ => ())
        = ws.zipIdx.map fun p => oneEntry p.2 (.ofWrite p.1.key p.2 p.1.type) := by
  induction ws using List.reverseRecOn with
  | nil =>
      exact ⟨.new, .new, ⟨rfl, rfl, rfl⟩, rfl, rfl, rfl, rfl, fun i _ => Store.levelAt_new i, rfl,
        rfl⟩
  | append_singleton ws w ih =>
      simp only [List.length_append, List.length_singleton] at len
      obtain ⟨m, hreach, hrest, hhist, hlive, hfileno, htasks, hdeep, hlen, htables⟩ :=
        ih (by omega) fun w hw => fills w (List.mem_append_left _ hw)
      have hdurable : Durable crc32c m := durable_of_reachable (fun m a ha => ha.2.sized) hreach
      have hseq : m.store.lastSequence = ws.length := by
        rw [(accounted_of_reachable hreach).length, hhist]
      have hcount := congrArg List.length htables
      simp only [List.length_map, List.length_zipIdx] at hcount
      obtain ⟨m', info, hrun, hrest', hhist', hseq', hlive', hfileno', htasks', hlevels'⟩ :=
        hrest.round crc32c hdurable.owned (seqOrdered_of_reachable hreach).numbered (by omega)
          (fills w (by simp))
      refine ⟨m', hreach.run (hrun.mono fun _ _ hm => hm.1), hrest', by rw [hhist', hhist], by rw [hlive', hlive], ?_,
        by rw [htasks', htasks], fun i hi => ?_, ?_, ?_⟩
      · rw [hfileno', hfileno, List.length_append, List.length_singleton]
      · rw [hlevels', levelAt_setLevel, if_neg (by omega), hdeep i hi]
      · rw [hlevels']
        simp only [setLevel, List.length_set, List.length_append, List.length_replicate]
        omega
      · rw [hlevels', levelAt_setLevel, if_pos rfl, List.map_append, htables, List.zipIdx_append,
          List.map_append, hfileno, hseq]
        simp [SSTFile.view, oneEntry, Entry.view]

end Machine

end Lsmkv
