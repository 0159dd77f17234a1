import Lsmkv.NumberRace
import Lsmkv.ReadRace

/-!
# Value logs whose numbers are handed out again

The value logs of the deep levels are apart in every run in which no write takes a number while one
goes back (`logsApart_of_raced`).

If a write does, the counter is behind the open value log, and a compaction creates its logs from
there on, whether they exist or not: it succeeds, since what it reads is in logs below the counter
(`VLogWork.Numbering`), and its second table gets the log that the writers write to
(`not_logsApart_of_raced`).
-/

namespace Lsmkv

open ByteCode Files

variable {crc32c : Bytes → ℕ}

/-! ## Compactions over numbers that are used -/

/-- The log of the open table. -/
structure VLogWork.HasLog (n : ℕ) (w : VLogWork) : Prop where
  isOpen : ∃ t, w.builder.IsOpen w.vlogs t
  fileNo : w.builder.fileNo = n
  next : w.lastVlogFileNo = n + 1

/-- **The tables have the numbers from `start` on**, whether there are logs with these numbers or
not, and the logs below are only written to. -/
structure VLogWork.Numbering (d₀ : VLogDir) (start : ℕ) (b : Build VLogEntryInfo) (w : VLogWork) :
    Prop where
  wf : w.vlogs.WellFormed
  grows : ∀ n < start, d₀.Grows w.vlogs n
  logs : b.newFiles.map (·.vlogFileNo) = List.range' start b.newFiles.length
  closed : b.out = [] → w.lastVlogFileNo = start + b.newFiles.length
  opened : b.out ≠ [] → w.HasLog (start + b.newFiles.length)

namespace VLogWork.Numbering

variable {d₀ : VLogDir} {start : ℕ} {b : Build VLogEntryInfo} {w : VLogWork}

theorem init (wf : w.vlogs.WellFormed) (fileno : ℕ) :
    w.Numbering w.vlogs w.lastVlogFileNo (.start fileno) where
  wf := wf
  grows n _ := Dir.Grows.refl _ n
  logs := rfl
  closed _ := rfl
  opened h := absurd rfl h

theorem see (h : w.Numbering d₀ start b) (key : InternalKey) : w.Numbering d₀ start (b.see key) :=
  ⟨h.wf, h.grows, h.logs, h.closed, h.opened⟩

/-- Before an entry is written, the log of its table is open. -/
theorem hasLog (h : w.Numbering d₀ start b) :
    let w' := if b.out.isEmpty && true then w.openNext else w
    w'.vlogs.WellFormed ∧ (∀ n < start, d₀.Grows w'.vlogs n) ∧
      w'.HasLog (start + b.newFiles.length) := by
  by_cases hout : b.out = []
  · simp only [hout, List.isEmpty_nil, Bool.and_true, if_true]
    have hlast := h.closed hout
    obtain ⟨hwf, -, -, -, -, hgrows⟩ := h.wf.create_any w.lastVlogFileNo
    refine ⟨hwf, fun n hn => (h.grows n hn).trans (hgrows n ?_),
      ⟨.new, VLogBuilder.isOpen_openFile_any h.wf _⟩, hlast, congrArg (· + 1) hlast⟩
    omega
  · simp only [List.isEmpty_iff, hout, Bool.and_true, if_false]
    exact ⟨h.wf, h.grows, h.opened hout⟩

/-- The table is finished with its log. -/
theorem close (h : w.Numbering d₀ start b) (crc32c : Bytes → ℕ) (ne : b.out ≠ []) (key : InternalKey) :
    (w.close crc32c).Numbering d₀ start (b.close w.builder.fileNo key) := by
  obtain ⟨⟨t, ht⟩, hfileNo, hnext⟩ := h.opened ne
  have hdir : (w.close crc32c).vlogs = w.vlogs.write w.builder.inode (t.finish crc32c) := by
    simp [VLogWork.close, VLogBuilder.close, ht.builder]
  refine ⟨?_, fun n hn => (h.grows n hn).trans (ht.grows_close n), ?_, fun _ => ?_,
    fun hne => absurd rfl hne⟩
  · rw [hdir]
    exact h.wf.write _ _
  · simp [Build.close, h.logs, hfileNo, List.range'_concat]
  · simp only [Build.close, List.length_append, List.length_singleton]
    exact hnext

/-- **One round of the loop succeeds**, if the value that it copies is in a log below `start`. -/
theorem step (h : w.Numbering d₀ start b) (live : ℕ) {e : Entry VLogEntryInfo}
    (below : e.key.type = .kTypeValue → e.value.fileNo < start) (readable : Readable crc32c d₀ e) :
    ∃ b' w', buildStep crc32c true live b w e = .ok (b', w') ∧ w'.Numbering d₀ start b' := by
  by_cases hexp : e.key.seq < live
  · exact ⟨_, _, if_pos hexp, h.see e.key⟩
  · obtain ⟨hwf, hgrows, hlog⟩ := (h.see e.key).hasLog
    simp only [buildStep, if_neg hexp, if_true]
    set w₁ := if (b.see e.key).out.isEmpty && true then w.openNext else w
    obtain ⟨info, w₂, hrewrite, hwf₂, hgrows₂, hlog₂⟩ : ∃ info w₂,
        w₁.rewrite crc32c true e = .ok (info, w₂) ∧ w₂.vlogs.WellFormed ∧
          (∀ n < start, d₀.Grows w₂.vlogs n) ∧ w₂.HasLog (start + b.newFiles.length) := by
      by_cases htype : e.key.type = .kTypeValue
      · obtain ⟨v, hv⟩ := readable htype
        have hread : readVLog crc32c none w₁.vlogs e.value = .ok v :=
          readVLog_of_resolves (hv.mono (hgrows _ (below htype)))
        obtain ⟨⟨t, ht⟩, hfileNo, hnext⟩ := hlog
        obtain ⟨info, builder, vlogs, t', happend, hopen, ⟨hfile, -⟩, ⟨hinode, hnext', -⟩, hmore, -⟩ :=
          ht.append crc32c e.key v
        refine ⟨info, { w₁ with builder := builder, vlogs := vlogs }, ?_, ⟨?_, ?_⟩,
          fun n hn => (hgrows n hn).trans (hmore n), ⟨t', hopen⟩, hfile.trans hfileNo, hnext⟩
        · simp [VLogWork.rewrite, htype, hread, happend]
        · intro n i hi
          rw [hinode] at hi
          rw [hnext']
          exact hwf.lt_next hi
        · intro m n i hm hn
          rw [hinode] at hm hn
          exact hwf.injective hm hn
      · refine ⟨.zero, w₁, ?_, hwf, hgrows, hlog⟩
        simp [VLogWork.rewrite, htype]
    rw [hrewrite]
    simp only [Outcome.ok_bind]
    have hpush : w₂.Numbering d₀ start
        { b.see e.key with out := (b.see e.key).out ++ [⟨e.key, info⟩] } :=
      ⟨hwf₂, hgrows₂, h.logs, fun hnil => absurd hnil (by simp), fun _ => hlog₂⟩
    refine ⟨_, _, rfl, ?_⟩
    simp only [Build.add]
    by_cases hcut : sstFileSize ≤ approximateSize ((b.see e.key).out ++ [⟨e.key, info⟩])
    · simp only [if_pos hcut]
      simpa [Build.close] using hpush.close crc32c (by simp) e.key
    · simp only [if_neg hcut]
      simpa using hpush

theorem loop (live : ℕ) {es : List (Entry VLogEntryInfo)}
    (below : ∀ e ∈ es, e.key.type = .kTypeValue → e.value.fileNo < start)
    (readable : ∀ e ∈ es, Readable crc32c d₀ e) (h : w.Numbering d₀ start b) :
    ∃ b' w', buildLoop crc32c true live es b w = .ok (b', w') ∧ w'.Numbering d₀ start b' := by
  induction es generalizing b w with
  | nil => exact ⟨b, w, rfl, h⟩
  | cons e es ih =>
      obtain ⟨b₁, w₁, hstep, h₁⟩ :=
        h.step live (below e List.mem_cons_self) (readable e List.mem_cons_self)
      obtain ⟨b', w', hloop, h'⟩ := ih (fun d hd => below d (List.mem_cons_of_mem _ hd))
        (fun d hd => readable d (List.mem_cons_of_mem _ hd)) h₁
      refine ⟨b', w', ?_, h'⟩
      rw [buildLoop, hstep]
      exact hloop

end VLogWork.Numbering

/-- **A compaction does not look whether its numbers are used**: it succeeds, and its tables get
the numbers from the counter on. -/
theorem buildWhenCompaction_numbering (live fileno : ℕ) {w : VLogWork}
    {inputs : List (List (Entry VLogEntryInfo))} (two : 2 ≤ inputs.length)
    (wf : w.vlogs.WellFormed)
    (below : ∀ e ∈ inputs.flatten, e.key.type = .kTypeValue → e.value.fileNo < w.lastVlogFileNo)
    (readable : ∀ e ∈ inputs.flatten, Readable crc32c w.vlogs e) :
    ∃ b w', buildWhenCompaction crc32c true live fileno w inputs = .ok (b, w') ∧
      b.newFiles.map (·.vlogFileNo) = List.range' w.lastVlogFileNo b.newFiles.length := by
  obtain ⟨visited, hvisit, -⟩ := visit_headMerge (fun e : Entry VLogEntryInfo => e.key.encode) two
  have hperm := visit_perm two hvisit
  obtain ⟨b, w', hloop, h⟩ := (VLogWork.Numbering.init wf fileno).loop live
    (fun e he => below e (hperm.mem_iff.mp he)) (fun e he => readable e (hperm.mem_iff.mp he))
  have hok : buildWhenCompaction crc32c true live fileno w inputs
      = .ok (b.finish w'.builder.fileNo (visited.getLast?.map (·.key)),
        if !b.out.isEmpty && true then w'.close crc32c else w') := by
    simp only [buildWhenCompaction, hvisit, Outcome.ofOption_some, Outcome.ok_bind, hloop, if_true]
  refine ⟨_, _, hok, ?_⟩
  by_cases hout : b.out = []
  · have hsame : b.finish w'.builder.fileNo (visited.getLast?.map (·.key)) = b := by
      cases visited.getLast?.map (·.key) with
      | none => rfl
      | some key => simp [Build.finish, hout]
    rw [hsame]
    exact h.logs
  · obtain ⟨key, hkey⟩ := Option.ne_none_iff_exists'.mp (getLast_ne_none_of_buildLoop hloop hout)
    rw [hkey]
    simpa [Build.finish, hout] using (h.close crc32c hout key).logs

/-- The compaction of a level into one with value logs, over numbers that may be used. -/
theorem Store.compactLevel_numbering {s : Store} {level : ℕ} {info : CompactInfo VLogEntryInfo}
    (picked : pickCompaction s.levels level = some info) (deep : kCompactionVLogLevel ≤ info.level + 1)
    (two : 2 ≤ info.inputs.length) (wf : s.vlogs.WellFormed) (pos : 0 < s.lastVlogFileNo)
    (zero : 0 ∉ info.rmVlogFiles)
    (below : ∀ e ∈ info.inputs.flatten, e.key.type = .kTypeValue →
      e.value.fileNo < s.lastVlogFileNo)
    (readable : ∀ e ∈ info.inputs.flatten, Readable crc32c s.vlogs e) :
    ∃ r new, s.compactLevel crc32c level = .ok (s.compacted r) ∧
      Compaction crc32c s.lastLivingSequence s.fileno ⟨s.lastVlogFileNo, s.vlogs, .new⟩ info r new ∧
      (s.compacted r).levels = replaceFiles s.levels info new ∧
      new.map (·.vlogFileNo) = List.range' s.lastVlogFileNo new.length := by
  obtain ⟨b, w', hok, hlogs⟩ := buildWhenCompaction_numbering s.lastLivingSequence s.fileno
    (w := ⟨s.lastVlogFileNo, s.vlogs, .new⟩) two wf below readable
  have hnew : 0 ∉ b.newFiles.map (·.vlogFileNo) := by
    intro hzero
    rw [hlogs, List.mem_range'_1] at hzero
    exact absurd hzero.1 (not_le.mpr pos)
  have hmerges : ¬ info.Moves := fun moves => absurd moves.2.1 (not_lt.mpr deep)
  have hwork : doCompactionWork crc32c s.lastLivingSequence s.levels s.fileno
      ⟨s.lastVlogFileNo, s.vlogs, .new⟩ info
      = .ok ⟨replaceFiles s.levels info b.newFiles, b.fileno, w', info.rmSstFiles,
          info.rmVlogFiles⟩ := by
    simp only [doCompactionWork, deep, decide_true, Bool.true_eq_false, false_and, and_false,
      if_false, zero, hok, Outcome.ok_bind, true_and, hnew]
  refine ⟨⟨replaceFiles s.levels info b.newFiles, b.fileno, w', info.rmSstFiles, info.rmVlogFiles⟩,
    b.newFiles, ?_, .merge hmerges b ?_ rfl rfl rfl, rfl, hlogs⟩
  · rw [Store.compactLevel, picked]
    simp only [hwork, Outcome.ok_bind]
  · rw [decide_eq_true deep]
    exact hok

/-! ## A write that rotates the value log -/

section Write

variable {s s' : Store} {w : Write} {garbage : VLogEntryInfo} {height : ℕ}

/-- A value as long as a value log fills it. -/
theorem Store.VLogsOwned.full_of_write (h : s.VLogsOwned) (fits : w.Fits)
    (big : kMaxVLogSize ≤ w.value.length)
    (ok : s.writeImpl crc32c w garbage height = .ok s') (n : ℕ) : s'.vlog.full n = .ok true := by
  obtain ⟨s₁, info, vlog, vlogs, hs₁, happend, rfl⟩ := Store.writeImpl_cases ok
  have h₁ : s₁.VLogsOwned := by
    rcases hs₁ with rfl | rfl
    · exact h
    · exact (h.rotate crc32c).1
  obtain ⟨t, ht⟩ := h₁.isOpen
  obtain ⟨info', b', d', t', happend', hopen, ⟨hfile, -⟩, -, -, hinfo, -, hrecorded⟩ :=
    ht.append crc32c (.ofWrite w.key s.lastSequence w.type) w.value
  obtain ⟨rfl, rfl, rfl⟩ : info' = info ∧ b' = vlog ∧ d' = vlogs := by
    simpa using Outcome.ok.inj (happend'.symm.trans happend)
  have hsize : recordLength (.ofWrite w.key s.lastSequence w.type) w.value + kBlockTrailerSize
      < 2 ^ 32 := by
    simp only [Write.Fits, maxReadBytes] at fits
    simp only [recordLength, InternalKey.ofWrite_userKey, kBlockTrailerSize]
    omega
  obtain ⟨i, pre, hi, -, hpre⟩ := (hrecorded hsize).record
  -- The record is in the file of the open log.
  obtain rfl : i = b'.inode := by
    rw [hinfo, ← hfile, hopen.inode] at hi
    exact (Option.some.inj hi).symm
  have hlength : kMaxVLogSize ≤ t'.offset := by
    have hle := hpre.length_le
    rw [List.length_append, length_recordBytes, recordLength, hopen.data] at hle
    rw [hopen.offset]
    omega
  have happrox : kMaxVLogSize ≤ t'.approximateFileSize := by
    rw [TableBuilder.approximateFileSize]
    omega
  show b'.full n = .ok true
  simp [VLogBuilder.full, hopen.builder, happrox]

/-- A write that finds the log full opens the next one. -/
theorem Store.VLogsOwned.vlog_of_full (h : s.VLogsOwned) (full : s.vlog.full w.value.length = .ok true)
    (ok : s.writeImpl crc32c w garbage height = .ok s') : s'.vlog.fileNo = s.lastVlogFileNo := by
  obtain ⟨t, ht⟩ := (h.rotate crc32c).1.isOpen
  simp only [Store.writeImpl, full, Outcome.ok_bind, if_true] at ok
  obtain ⟨⟨info, vlog, vlogs⟩, happend, hok⟩ := Outcome.bind_eq_ok.mp ok
  obtain ⟨info', b', d', t', happend', -, ⟨hfile, -⟩, -⟩ := ht.append crc32c
    (.ofWrite w.key s.lastSequence w.type) w.value
  obtain ⟨rfl, rfl, rfl⟩ : info' = info ∧ b' = vlog ∧ d' = vlogs := by
    simpa using Outcome.ok.inj (happend'.symm.trans happend)
  rw [← Outcome.ok.inj hok]
  exact hfile

/-- The first record of a value log brings no index entry, and leaves the filter as long as it was. -/
theorem VLogBuilder.appendRecord_new (crc32c : Bytes → ℕ) (key : InternalKey) (value : Bytes)
    (next : Bool) :
    (((TableBuilder.new.addInfo crc32c key value).1.setLastKey key).flushWith crc32c
      next).approximateFileSize = recordLength key value + 2 * kBlockTrailerSize + bloomSize := by
  by_cases hfull : blockSize ≤ key.userKey.length + 8 + value.length + 8
  · simp [TableBuilder.approximateFileSize, TableBuilder.addInfo, TableBuilder.addIndexEntry_eq,
      TableBuilder.appendEntry, TableBuilder.new, TableBuilder.fullIndex, hfull, TableBuilder.flush,
      TableBuilder.flushWith, TableBuilder.setLastKey, entryBytes_ne_nil, TableBuilder.writeRawBlock,
      recordLength, FilterBlockBuilder.flush, FilterBlockBuilder.addKey, FilterBlockBuilder.new]
    omega
  · simp [TableBuilder.approximateFileSize, TableBuilder.addInfo, TableBuilder.addIndexEntry_eq,
      TableBuilder.appendEntry, TableBuilder.new, TableBuilder.fullIndex, hfull,
      TableBuilder.flushWith, TableBuilder.setLastKey, entryBytes_ne_nil, TableBuilder.writeRawBlock,
      recordLength, FilterBlockBuilder.flush, FilterBlockBuilder.addKey, FilterBlockBuilder.new]
    omega

/-- A value log that a short record was just written to, as the first one, has room. -/
theorem Store.VLogsOwned.room_of_full (h : s.VLogsOwned) (full : s.vlog.full w.value.length = .ok true)
    (small : w.key.length + w.value.length ≤ blockSize)
    (ok : s.writeImpl crc32c w garbage height = .ok s') : s'.vlog.full 1 = .ok false := by
  obtain ⟨t, ht⟩ := h.isOpen
  simp only [Store.writeImpl, full, Outcome.ok_bind, if_true, VLogBuilder.append, Store.rotateVlog,
    VLogBuilder.openFile, Outcome.ofOption_some, Outcome.ok.injEq] at ok
  have hsize := VLogBuilder.appendRecord_new crc32c (.ofWrite w.key s.lastSequence w.type) w.value
  simp only [recordLength, InternalKey.ofWrite_userKey, kBlockTrailerSize, bloomSize] at hsize
  rw [blockSize] at small
  rw [← ok]
  simp only [VLogBuilder.full, Outcome.ofOption_some, Outcome.ok_bind, hsize, kMaxVLogSize,
    Outcome.ok.injEq, Bool.or_eq_false_iff, Bool.and_eq_false_iff, decide_eq_false_iff_not]
  omega

end Write

/-! ## Runs in which a number goes back -/

/-- **The value logs of the deep levels are apart**, in every run in which no write takes a number
while one goes back.  Steps may succeed or fail in any order; no log that is waiting to be deleted
is used by a table. -/
theorem logsApart_of_raced {c : Machine × Option ℕ}
    (raced : Machine.Raced crc32c (fun _ _ => True) Machine.Calm c) : c.1.store.LogsApart := by
  obtain ⟨fileNo, hreached⟩ := raced.reachable (fun _ _ _ _ _ => trivial) fun _ _ calm => calm
  obtain ⟨named, inside, once, others, doomed⟩ := logsApart_of_reachable hreached
  exact ⟨named, inside, once, others, doomed⟩

/-- The value log of a store at rest has room, if not at once, then behind a write. -/
theorem Machine.Reachable.makeRoom {m : Machine} (reached : Reachable crc32c Regular m)
    (resting : m.Resting) :
    ∃ m', Reachable crc32c Regular m' ∧ m'.flushed = false ∧ m'.store.levels = m.store.levels ∧
      m'.store.tasks = m.store.tasks ∧
      m'.store.lastLivingSequence = m.store.lastLivingSequence ∧
      (∃ n, m'.history = m.history ++ List.replicate n (longWrite [2])) ∧
      m'.store.mem.memoryUsage ≤ Store.memMaxSize ∧ m'.store.vlog.full 1 = .ok false := by
  have howned := vlogsOwned_of_reachable reached
  have hempty : m.store.mem.memoryUsage ≤ Store.memMaxSize := by
    rw [resting.mem]
    decide
  obtain ⟨full, hfull⟩ : ∃ full, m.store.vlog.full 1 = .ok full := by
    obtain ⟨t, ht⟩ := howned.isOpen
    simp [VLogBuilder.full, ht.builder]
  cases full with
  | false => exact ⟨m, reached, resting.idle, rfl, rfl, rfl, ⟨0, by simp⟩, hempty, hfull⟩
  | true =>
      obtain ⟨s, ok⟩ := howned.writeImpl_isOk crc32c (longWrite [2]) .zero 1
      obtain ⟨⟨info, hmem⟩, -, hlevels, -, -, hlive⟩ := Store.writeImpl_fields ok
      have hmeets : m.Regular (.write (longWrite [2]) .zero 1) :=
        ⟨hempty, (by decide : Write.Fits (longWrite [2]))⟩
      refine ⟨_, reached.step hmeets (.write ok), resting.idle, hlevels,
        (Store.writeImpl_files ok).1, hlive, ⟨1, rfl⟩, ?_,
        howned.room_of_full (w := longWrite [2]) hfull (by decide) ok⟩
      simp only [hmem, resting.mem, MemTable.put, MemTable.new, MemTable.memoryUsage,
        MemTable.nodeSize, MemTable.maxLevel, Store.memMaxSize, InternalKey.ofWrite_userKey,
        longWrite]
      decide

/-- Level 3 has two hundred and twenty-four tables, the tables and value logs that they come from wait
to be deleted, and a value is written while a number goes back. -/
theorem logsApart_of_raced_deep :
    ∃ c, Machine.Raced crc32cCastagnoli (fun _ _ => True) Machine.Calm c ∧ c.2 ≠ none ∧
      (levelAt c.1.store.levels 3).length = 224 ∧ (∃ task ∈ c.1.store.tasks, task.2 ≠ []) ∧
      longWrite [3] ∈ c.1.history ∧ c.1.store.LogsApart := by
  obtain ⟨m₀, i, task, h, htask, -, hlogs⟩ := exists_deep_task crc32cCastagnoli
  obtain ⟨m, hreached, hidle, hlevels, htasks, -, -, -, hroom⟩ := h.reached.makeRoom h.resting
  have howned := vlogsOwned_of_reachable hreached
  have hback := Machine.givesBack hidle howned.fresh
  have hreached₁ : Machine.Reachable crc32cCastagnoli Machine.Regular
      (m.reuse (m.store.lastVlogFileNo + 1)) :=
    hreached.step (a := .compactFail) ⟨trivial, trivial⟩ (.compactFail hidle hback.left)
  obtain ⟨s, ok⟩ := (vlogsOwned_of_reachable hreached₁).writeImpl_isOk crc32cCastagnoli
    (longWrite [3]) .zero 1
  have hraced : Machine.Raced crc32cCastagnoli (fun _ _ => True) Machine.Calm
      (m.reuse (m.store.lastVlogFileNo + 1), some m.store.lastVlogFileNo) :=
    (hreached.mono fun _ _ _ => trivial).raced.tail (.begins ⟨trivial, hback⟩)
  have hwritten : Machine.Raced crc32cCastagnoli (fun _ _ => True) Machine.Calm
      (_, some m.store.lastVlogFileNo) :=
    hraced.tail (.meanwhile ⟨.write (longWrite [3]) .zero 1, trivial, trivial, hroom, .write ok⟩)
  have hlevels' : s.levels = m₀.store.levels := (Store.writeImpl_fields ok).2.2.1.trans hlevels
  have htasks' : s.tasks = m₀.store.tasks := (Store.writeImpl_files ok).1.trans htasks
  refine ⟨_, hwritten, by simp, ?_, ⟨task, ?_, hlogs⟩, List.mem_append_right _ (List.mem_singleton_self _),
    logsApart_of_raced hwritten⟩
  · exact (congrArg (fun levels => (levelAt levels 3).length) hlevels').trans (h.size 3)
  · exact htasks' ▸ List.mem_of_getElem? htask

/-- The compaction of all tables of level 2, whatever the counter is: it succeeds, and every number
from the counter on, one for each table, names a table of level 3. -/
theorem Machine.Tower.compact2_numbering {m₀ m : Machine} {allowed : ℕ → Bytes → Prop}
    {a b c d fileNo : ℕ} (h : Tower crc32c allowed (tiers a b c d) m₀) (more : 103 ≤ c)
    (less : c ≤ 2 ^ 31)
    (reached : Machine.Reachable crc32c Machine.Regular m)
    (levels : m.store.levels = m₀.store.levels) (live : m.store.lastLivingSequence = 0)
    (below : m₀.store.lastVlogFileNo ≤ fileNo) :
    ∃ r, (m.store.reuse fileNo).compactLevel crc32c 2 = .ok ((m.store.reuse fileNo).compacted r) ∧
      ∀ n < c, ∃ f ∈ levelAt ((m.store.reuse fileNo).compacted r).levels 3, f.vlogFileNo = fileNo + n := by
  have hdurable : Durable crc32c m := durable_of_reachable (fun _ _ hm => hm.2.sized) reached
  have howned₀ := vlogsOwned_of_reachable h.reached
  obtain ⟨info, hpicked, hlevel, hold⟩ := h.picked (i := 2) (.inr ⟨by decide, more, less⟩)
  rw [← levels] at hpicked
  have p : Picked m.store.levels m.store.fileno info :=
    ⟨(seqOrdered_of_reachable reached).numbered, hlevel ▸ hpicked⟩
  have hsize : (levelAt m₀.store.levels 2).length = c := h.size 2
  have hcount : info.oldFiles.length = c := by
    rw [hold]
    exact hsize
  have hinput : ∀ f ∈ info.oldFiles ++ info.overlapFiles, ∃ i, f ∈ levelAt m₀.store.levels i := by
    intro f hf
    rw [← levels]
    rcases p.mem_input hf with hf | hf
    · exact ⟨_, hf⟩
    · exact ⟨_, hf⟩
  have hheld : ∀ e ∈ info.inputs.flatten, m₀.store.Holds e := by
    intro e he
    obtain ⟨f, hf, he⟩ := mem_inputs.mp he
    obtain ⟨i, hi⟩ := hinput f hf
    exact .inr (.inr ⟨i, f, hi, he⟩)
  have htwo : 2 ≤ info.inputs.length := by
    rw [CompactInfo.inputs, List.length_map, List.length_append, hcount]
    omega
  have hdeep : kCompactionVLogLevel ≤ info.level + 1 := by
    rw [hlevel]
    decide
  have hpos : 0 < fileNo := (Nat.zero_lt_of_lt howned₀.open_lt).trans_le below
  have hreadable : ∀ e ∈ info.inputs.flatten, Readable crc32c m.store.vlogs e := by
    intro e he
    refine hdurable.readable e ?_
    obtain ⟨f, hf, he⟩ := mem_inputs.mp he
    obtain ⟨i, hi⟩ := hinput f hf
    exact .inr (.inr ⟨i, f, levels ▸ hi, he⟩)
  have hzero := (tagged_of_reachable reached).zero_not_removed p
  obtain ⟨r, new, hok, hcomp, hlevels, hlogs⟩ :
      ∃ r new, (m.store.reuse fileNo).compactLevel crc32c 2 = .ok ((m.store.reuse fileNo).compacted r) ∧
        Compaction crc32c m.store.lastLivingSequence m.store.fileno ⟨fileNo, m.store.vlogs, .new⟩
          info r new ∧
        ((m.store.reuse fileNo).compacted r).levels = replaceFiles m.store.levels info new ∧
        new.map (·.vlogFileNo) = List.range' fileNo new.length :=
    Store.compactLevel_numbering hpicked hdeep htwo hdurable.owned.wf hpos hzero
      (fun e he htype => (howned₀.log_lt (hheld e he) htype).trans_le below) hreadable
  refine ⟨r, hok, fun n hn => ?_⟩
  -- Every table that is read gives one.
  have hcard : c ≤ new.length := by
    rw [live] at hcomp
    have hpoints : ∀ f ∈ info.oldFiles ++ info.overlapFiles, f.Point (fun _ => True) := by
      intro f hf
      obtain ⟨i, hi⟩ := hinput f hf
      exact (h.points i f hi).mono fun _ _ => trivial
    rw [(hcomp.points p.old_ne hpoints).1, hcount]
    exact Nat.le_add_right _ _
  obtain ⟨f, hf, hname⟩ : ∃ f ∈ new, f.vlogFileNo = fileNo + n := by
    refine List.mem_map.mp ?_
    rw [hlogs, List.mem_range'_1]
    omega
  refine ⟨f, ?_, hname⟩
  rw [hlevels]
  exact (p.mem_level hcomp).mpr (.inl ⟨by rw [hlevel], hf⟩)

/-- A tower gets a value that fills the value log. -/
theorem Machine.Tower.fillLog {m₀ : Machine} {allowed : ℕ → Bytes → Prop} {sizes : ℕ → ℕ}
    (h : Tower crc32c allowed sizes m₀) :
    ∃ m, Reachable crc32c Regular m ∧ m.flushed = false ∧ m.store.levels = m₀.store.levels ∧
      m.store.lastLivingSequence = 0 ∧ m₀.store.lastVlogFileNo ≤ m.store.lastVlogFileNo ∧
      m.store.mem.memoryUsage ≤ Store.memMaxSize ∧ ∀ n, m.store.vlog.full n = .ok true := by
  have howned := vlogsOwned_of_reachable h.reached
  let w : Write := ⟨[1], .kTypeValue, List.replicate kMaxVLogSize 0⟩
  have hbig : w.value.length = kMaxVLogSize := List.length_replicate
  have hfits : w.Fits := by
    rw [Write.Fits, hbig]
    decide
  obtain ⟨s, ok⟩ := howned.writeImpl_isOk crc32c w .zero 1
  obtain ⟨⟨info, hmem⟩, -, hlevels, -, -, hlive⟩ := Store.writeImpl_fields ok
  have hroom : m₀.Scheduled (.write w .zero 1) := by
    rw [Scheduled, h.resting.mem]
    decide
  refine ⟨_, h.reached.step (a := .write w .zero 1) ⟨hroom, hfits⟩ (.write ok), h.resting.idle,
    hlevels, hlive.trans h.live, ?_, ?_, howned.full_of_write hfits hbig.ge ok⟩
  · obtain ⟨s₁, info, vlog, vlogs, hs₁, -, rfl⟩ := Store.writeImpl_cases ok
    rcases hs₁ with rfl | rfl
    · exact le_rfl
    · exact Nat.le_succ _
  · simp only [hmem, h.resting.mem, MemTable.put, MemTable.new, MemTable.memoryUsage,
      MemTable.nodeSize, MemTable.maxLevel, Store.memMaxSize, InternalKey.ofWrite_userKey, w]
    decide

/-- A compaction fails to open the next log, and while its number goes back a writer opens the one
behind it. -/
theorem Machine.Reachable.overtake {m : Machine} (reached : Reachable crc32c Regular m)
    (idle : m.flushed = false) (room : m.store.mem.memoryUsage ≤ Store.memMaxSize)
    (full : m.store.vlog.full 1 = .ok true) :
    ∃ m', Reachable crc32c Regular m' ∧
      Raced crc32c Regular (fun _ _ => True) (m'.reuse m.store.lastVlogFileNo, none) ∧
      m'.flushed = false ∧ m'.store.levels = m.store.levels ∧
      m'.store.lastLivingSequence = m.store.lastLivingSequence ∧
      m'.store.vlog.fileNo = m.store.lastVlogFileNo + 1 := by
  have hback := givesBack idle (vlogsOwned_of_reachable reached).fresh
  have hreached₁ : Reachable crc32c Regular (m.reuse (m.store.lastVlogFileNo + 1)) :=
    reached.step (a := .compactFail) ⟨trivial, trivial⟩ (.compactFail idle hback.left)
  have howned₁ := vlogsOwned_of_reachable hreached₁
  obtain ⟨s, ok⟩ := howned₁.writeImpl_isOk crc32c (longWrite [2]) .zero 1
  obtain ⟨-, -, hlevels, -, -, hlive⟩ := Store.writeImpl_fields ok
  have hmeets : (m.reuse (m.store.lastVlogFileNo + 1)).Regular (.write (longWrite [2]) .zero 1) :=
    ⟨room, (by decide : Write.Fits (longWrite [2]))⟩
  have hraced₁ : Raced crc32c Regular (fun _ _ => True)
      (m.reuse (m.store.lastVlogFileNo + 1), some m.store.lastVlogFileNo) :=
    reached.raced.tail (.begins ⟨⟨trivial, trivial⟩, hback⟩)
  have hraced₂ : Raced crc32c Regular (fun _ _ => True) (_, some m.store.lastVlogFileNo) :=
    hraced₁.tail (.meanwhile ⟨.write (longWrite [2]) .zero 1, trivial, hmeets, trivial, .write ok⟩)
  exact ⟨_, hreached₁.step hmeets (.write ok), hraced₂.tail .settle, idle, hlevels, hlive,
    howned₁.vlog_of_full (w := longWrite [2]) full ok⟩

/-- **A write that takes a number while it goes back.**  A long value fills the value log, a
compaction fails to open the next one, and a writer opens the log behind it before the number is
stored.  The next compaction of level 2 makes a table that names the log that is written to. -/
theorem not_logsApart_of_raced :
    ∃ c, Machine.Raced crc32cCastagnoli Machine.Regular (fun _ _ => True) c ∧ c.2 = none ∧
      (∃ f ∈ levelAt c.1.store.levels 3, f.vlogFileNo = c.1.store.vlog.fileNo) ∧
      ¬ c.1.store.LogsApart := by
  obtain ⟨m₀, h₀, -⟩ := (Machine.Tower.new crc32cCastagnoli fun _ u => u = longKey).groups 7
    isLong_longKey rfl fun _ _ _ hu => hu
  obtain ⟨m₁, hreached₁, hidle₁, hlevels₁, hlive₁, hlast, hroom, hfull⟩ := h₀.fillLog
  obtain ⟨m₂, hreached₂, hraced, hidle₂, hlevels₂, hlive₂, hopen⟩ :=
    hreached₁.overtake hidle₁ hroom (hfull 1)
  have hlevels : m₂.store.levels = m₀.store.levels := hlevels₂.trans hlevels₁
  have hlive : m₂.store.lastLivingSequence = 0 := hlive₂.trans hlive₁
  obtain ⟨r, hok, hnames⟩ := h₀.compact2_numbering (by decide) (by decide) hreached₂ hlevels
    hlive hlast
  have hmeets : (m₂.reuse m₁.store.lastVlogFileNo).Regular (.compact 2) := by
    refine ⟨fun htwo => absurd htwo (by decide), fun info hpicked hmerges => ?_⟩
    have hkept := h₀.fitting 2 info (hlevels ▸ hpicked) hmerges
    rw [h₀.live] at hkept
    exact hlive.symm ▸ hkept
  obtain ⟨f, hf, hname⟩ := hnames 1 (by decide)
  have hused := hname.trans hopen.symm
  refine ⟨_, hraced.tail (.step ⟨_, hmeets, .compact hidle₂ hok⟩), rfl, ⟨f, hf, hused⟩, fun hapart => ?_⟩
  exact (hapart.others 3 le_rfl f hf).2 hused.symm

end Lsmkv
