import Lsmkv.LevelSizes
import Lsmkv.Ownership

/-!
# Runs that reach the levels with value logs

Tables come to level `kCompactionVLogLevel` only after level 2 has overflowed, which takes a
hundred tables.  The runs here are made of writes whose key is as long as a table, so that every
table has one entry (`SSTFile.Point`) and a compaction keeps the number of tables.  A machine with
such tables, and given numbers of them in its levels, is a `Machine.Tower`; rounds of writes and
compactions make towers of towers (`Tower.fill`, `Tower.compact`), and seven times sixteen writes
overflow level 2 (`Tower.overflow`).

That the compactions succeed is true of every reachable store: a compaction of two or more tables
reads and copies what it has to (`Machine.compactLevel_isOk`).
-/

namespace Lsmkv

open ByteCode Files

variable {crc32c : Bytes → ℕ}

/-! ## Compactions succeed -/

/-- No table names the log 0, so a compaction does not delete it. -/
theorem Store.Tagged.zero_not_removed {s : Store} (tagged : s.Tagged)
    {info : CompactInfo VLogEntryInfo} (p : Picked s.levels s.fileno info) : 0 ∉ info.rmVlogFiles := by
  intro hzero
  rcases CompactInfo.mem_rmVlogFiles hzero with ⟨hle, f, hf, hlog⟩ | ⟨hle, f, hf, hlog⟩
  · exact tagged.deep _ hle f (p.mem_old hf) hlog
  · exact tagged.deep _ hle f (p.mem_overlap.mp hf).1 hlog

/-- **A compaction of two or more tables succeeds** in every run in which what is written fits. -/
theorem Machine.compactLevel_isOk {cond : Machine → Action → Prop}
    (sized : ∀ m a, cond m a → m.Sized a) {m : Machine}
    (reached : Machine.Reachable crc32c cond m) {level : ℕ} {info : CompactInfo VLogEntryInfo}
    (picked : pickCompaction m.store.levels level = some info) (two : 2 ≤ info.inputs.length) :
    ∃ r new, Picked m.store.levels m.store.fileno info ∧
      Compaction crc32c m.store.lastLivingSequence m.store.fileno
        ⟨m.store.lastVlogFileNo, m.store.vlogs, .new⟩ info r new ∧
      (m.store.compacted r).levels = replaceFiles m.store.levels info new ∧
      m.store.compactLevel crc32c level = .ok (m.store.compacted r) := by
  have hdurable : Durable crc32c m := durable_of_reachable sized reached
  have htagged := tagged_of_reachable reached
  have p : Picked m.store.levels m.store.fileno info :=
    ⟨(seqOrdered_of_reachable reached).numbered, (pickCompaction_cases picked).1 ▸ picked⟩
  obtain ⟨r, hr⟩ : ∃ r, doCompactionWork crc32c m.store.lastLivingSequence m.store.levels
      m.store.fileno ⟨m.store.lastVlogFileNo, m.store.vlogs, .new⟩ info = .ok r := by
    by_cases hshallow : info.level + 1 < kCompactionVLogLevel
    · exact doCompactionWork_isOk crc32c _ _ _ _ info hshallow two
    · have hdeep : kCompactionVLogLevel ≤ info.level + 1 := not_lt.mp hshallow
      have hbase := VLogWork.Base.init (w := ⟨m.store.lastVlogFileNo, m.store.vlogs, .new⟩)
        hdurable.owned.wf hdurable.owned.fresh
      have hread : ∀ e ∈ info.inputs.flatten, m.store.lastLivingSequence ≤ e.key.seq →
          Readable crc32c m.store.vlogs e := by
        intro e he _
        obtain ⟨f, hf, he⟩ := mem_inputs.mp he
        rcases p.mem_input hf with hf | hf
        · exact hdurable.readable e (.inr (.inr ⟨_, f, hf, he⟩))
        · exact hdurable.readable e (.inr (.inr ⟨_, f, hf, he⟩))
      obtain ⟨b, w', visited, -, hok, -, hcomp⟩ :=
        buildWhenCompaction_compacted crc32c m.store.fileno two hbase hread
      have hrm : 0 ∉ info.rmVlogFiles := htagged.zero_not_removed p
      have hnew : 0 ∉ b.newFiles.map (·.vlogFileNo) := by
        intro hzero
        obtain ⟨f, hf, hlog⟩ := List.mem_map.mp hzero
        have hstart : m.store.lastVlogFileNo ≤ f.vlogFileNo := (hcomp.owned f hf).1
        have hopen := hdurable.owned.open_lt
        omega
      refine ⟨⟨replaceFiles m.store.levels info b.newFiles, b.fileno, w', info.rmSstFiles,
        info.rmVlogFiles⟩, ?_⟩
      simp only [doCompactionWork, hdeep, decide_true, Bool.true_eq_false, false_and, and_false,
        if_false, hrm, hok, Outcome.ok_bind, true_and, hnew]
  obtain ⟨new, hcomp, hlevels⟩ := doCompactionWork_cases hr
  refine ⟨r, new, p, hcomp, hlevels, ?_⟩
  simp [Store.compactLevel, picked, hr]

/-! ## Tables of one entry -/

/-- The table has one entry, a value, whose key is as long as a table and allowed. -/
def SSTFile.Point (allowed : Bytes → Prop) (f : SSTFile VLogEntryInfo) : Prop :=
  ∃ e, f.entries = [e] ∧ f.smallest = e.key ∧ f.largest = e.key ∧ e.key.type = .kTypeValue ∧
    sstFileSize ≤ e.key.userKey.length ∧ allowed e.key.userKey

theorem SSTFile.Point.mono {allowed allowed' : Bytes → Prop} {f : SSTFile VLogEntryInfo}
    (h : f.Point allowed) (imp : ∀ u, allowed u → allowed' u) : f.Point allowed' := by
  obtain ⟨e, hentries, hsmall, hlarge, htype, hlong, hallowed⟩ := h
  exact ⟨e, hentries, hsmall, hlarge, htype, hlong, imp _ hallowed⟩

/-- No table is open, and the finished ones have one entry and its key as their range. -/
structure Build.Points {β : Type} (b : Build β) : Prop where
  smallest : b.smallest = none
  out : b.out = []
  tables : ∀ t ∈ b.newFiles, ∃ e, t.entries = [e] ∧ t.smallest = e.key ∧ t.largest = e.key

section Points

variable {β : Type}

theorem Build.Points.step {b : Build β} (h : b.Points) {e : Entry β}
    (big : sstFileSize ≤ e.key.userKey.length) : (b.step 0 e).Points := by
  have hcut : sstFileSize ≤ approximateSize ((b.see e.key).out ++ [e]) := by
    have hout : (b.see e.key).out = [] := h.out
    rw [hout, List.nil_append]
    exact big.trans (length_le_approximateSize e)
  rw [Build.step_live (Nat.not_lt_zero _), Build.add, if_pos hcut]
  refine ⟨rfl, rfl, fun t ht => ?_⟩
  rcases List.mem_append.mp ht with ht | ht
  · exact h.tables t ht
  · rw [List.mem_singleton.mp ht]
    exact ⟨e, by simp [Build.see, h.out], by simp [Build.see, h.smallest], rfl⟩

theorem Build.Points.run {b : Build β} (h : b.Points) {es : List (Entry β)}
    (big : ∀ e ∈ es, sstFileSize ≤ e.key.userKey.length) : (b.run 0 es).Points := by
  induction es generalizing b with
  | nil => exact h
  | cons e es ih =>
      exact ih (h.step (big e List.mem_cons_self)) fun d hd => big d (List.mem_cons_of_mem _ hd)

/-- **Long keys that have not expired get tables of their own**, with the key as range. -/
theorem buildWhenCompaction_points {buildVlog : Bool} {fileno : ℕ}
    {inputs : List (List (Entry VLogEntryInfo))} {b : Build VLogEntryInfo} {w w' : VLogWork}
    {visited : List (Entry VLogEntryInfo)}
    (order : LoserTree.visit (fun e => e.key.encode) inputs = some visited)
    (big : ∀ e ∈ visited, sstFileSize ≤ e.key.userKey.length)
    (h : buildWhenCompaction crc32c buildVlog 0 fileno w inputs = .ok (b, w')) :
    ∀ t ∈ b.newFiles, ∃ e, t.entries = [e] ∧ t.smallest = e.key ∧ t.largest = e.key := by
  have hstart : (Build.start fileno : Build VLogEntryInfo).Points := ⟨rfl, rfl, by simp [Build.start]⟩
  have hmerged : (mergedTables 0 fileno visited).Points := by
    have hrun := hstart.run big
    rw [mergedTables]
    cases visited.getLast?.map (·.key) with
    | none => exact hrun
    | some key =>
        rw [Build.finish, if_pos (by simp [hrun.out])]
        exact hrun
  have hshape := congrArg Build.newFiles (buildWhenCompaction_shape order h)
  intro t ht
  have hmem : t.view (fun _ => ()) ∈ (mergedTables 0 fileno visited).shape.newFiles := by
    rw [← hshape]
    exact List.mem_map_of_mem ht
  obtain ⟨t', ht', heq⟩ := List.mem_map.mp hmem
  obtain ⟨e', hentries, hsmall, hlarge⟩ := hmerged.tables t' ht'
  have hkeys := congrArg (fun t : SSTFile Unit => t.entries) heq
  simp only [SSTFile.view, hentries, List.map_cons, List.map_nil] at hkeys
  obtain ⟨e, he, hkey⟩ : ∃ e, t.entries = [e] ∧ e.key = e'.key := by
    cases hes : t.entries with
    | nil => simp [hes] at hkeys
    | cons e es =>
        simp only [hes, List.map_cons, List.cons.injEq] at hkeys
        have hnil : es = [] := by simpa using hkeys.2.symm
        exact ⟨e, by rw [hnil], (congrArg Entry.key hkeys.1).symm⟩
  have hs : t'.smallest = t.smallest := congrArg (fun t : SSTFile Unit => t.smallest) heq
  have hl : t'.largest = t.largest := congrArg (fun t : SSTFile Unit => t.largest) heq
  exact ⟨e, he, by rw [← hs, hsmall, hkey], by rw [← hl, hlarge, hkey]⟩

/-- **A compaction of tables of one entry each** gives as many of them. -/
theorem Compaction.points {fileno : ℕ} {w : VLogWork} {info : CompactInfo VLogEntryInfo}
    {r : CompactionResult} {new : List (SSTFile VLogEntryInfo)}
    (h : Compaction crc32c 0 fileno w info r new) (ne : info.oldFiles ≠ []) {allowed : Bytes → Prop}
    (inputs : ∀ f ∈ info.oldFiles ++ info.overlapFiles, f.Point allowed) :
    new.length = info.oldFiles.length + info.overlapFiles.length ∧ ∀ f ∈ new, f.Point allowed := by
  by_cases hmoves : info.Moves
  · cases h with
    | merge merges => exact absurd hmoves merges
    | move moves =>
        rw [moves.2.2, List.length_nil, Nat.add_zero]
        exact ⟨rfl, fun f hf => inputs f (List.mem_append_left _ hf)⟩
  · have hlong : LongTables (info.oldFiles ++ info.overlapFiles) := by
      intro f hf
      obtain ⟨e, hentries, -, -, -, hlong, -⟩ := inputs f hf
      exact ⟨e, hentries, hlong⟩
    refine ⟨(length_merged h ne hmoves rfl hlong).1, fun f hf => ?_⟩
    have hpoint : ∃ e, f.entries = [e] ∧ f.smallest = e.key ∧ f.largest = e.key := by
      cases h with
      | move moves => exact absurd moves hmoves
      | merge _ b built =>
          obtain ⟨-, visited, hvisit, hperm⟩ := visit_of_built ne built
          refine buildWhenCompaction_points hvisit (fun e he => ?_) built f hf
          obtain ⟨g, hg, he⟩ := mem_inputs.mp (hperm.mem_iff.mp he)
          obtain ⟨d, hd, -, -, -, hlong, -⟩ := inputs g hg
          rw [hd, List.mem_singleton] at he
          rwa [he]
    obtain ⟨e, hentries, hsmall, hlarge⟩ := hpoint
    obtain ⟨g, hg, d, hd, hkey, -⟩ := h.key_from ne hf (hentries ▸ List.mem_singleton_self e)
    obtain ⟨c, hc, -, -, htype, hlong, hallowed⟩ := inputs g hg
    rw [hc, List.mem_singleton] at hd
    rw [← hd, hkey] at htype hlong hallowed
    exact ⟨e, hentries, hsmall, hlarge, htype, hlong, hallowed⟩

end Points

/-! ## Towers -/

/-- A store at rest, with nothing expired and no file open, whose tables have one entry each:
`sizes i` of them in level `i`, with keys that are allowed there. -/
structure Machine.Tower (crc32c : Bytes → ℕ) (allowed : ℕ → Bytes → Prop) (sizes : ℕ → ℕ)
    (m : Machine) : Prop where
  reached : Machine.Reachable crc32c Machine.Regular m
  resting : m.Resting
  live : m.store.lastLivingSequence = 0
  handles : m.store.handles = []
  short : ∀ w ∈ m.history, w.key.length ≤ keptKeyLength
  size : ∀ i, m.store.levelSize i = sizes i
  points : ∀ i, ∀ f ∈ levelAt m.store.levels i, f.Point (allowed i)

/-- The write of a long key. -/
def longWrite (key : Bytes) : Write := ⟨key, .kTypeValue, [9]⟩

/-- The keys that are used: as long as a table, and not too long for one. -/
def IsLong (key : Bytes) : Prop := sstFileSize ≤ key.length ∧ key.length ≤ keptKeyLength

theorem isLong_longKey : IsLong longKey := by
  rw [IsLong, length_longKey]
  decide

theorem isLong_cons_longKey (b : Byte) : IsLong (b :: longKey) := by
  rw [IsLong, List.length_cons, length_longKey]
  decide

theorem IsLong.fills {key : Bytes} (h : IsLong key) : Machine.Fills (longWrite key) := by
  obtain ⟨hlong, hshort⟩ := h
  refine .of_long hlong hshort ?_
  simp only [Write.Fits, keptKeyLength, maxReadBytes, List.length_singleton] at hshort ⊢
  omega

/-- Writes and flushes open no file for reading. -/
theorem Machine.Run.handles {m m' : Machine} (run : Machine.Run crc32c Machine.Flushing m m') :
    m'.store.handles = m.store.handles := by
  induction run with
  | refl => rfl
  | tail _ taken ih =>
      obtain ⟨a, ⟨-, hflushes⟩, taken⟩ := taken
      rw [← ih]
      cases taken with
      | write ok => exact (Store.writeImpl_files ok).2.2
      | handOver ok => rw [(Store.handOver_cases ok).2]
      | flush idle full ok =>
          obtain ⟨e₀, es, -, rfl⟩ := Store.writeLevel0Table_cases ok
          rfl
      | clearImm => rfl
      | _ => exact absurd hflushes (by simp [FlushStep])

namespace Machine.Tower

variable {m : Machine} {allowed : ℕ → Bytes → Prop} {sizes : ℕ → ℕ}

theorem congr (h : Tower crc32c allowed sizes m) {sizes' : ℕ → ℕ} (eq : ∀ i, sizes i = sizes' i) :
    Tower crc32c allowed sizes' m :=
  { h with size := fun i => (h.size i).trans (eq i) }

theorem numbered (h : Tower crc32c allowed sizes m) : Numbered m.store.levels m.store.fileno :=
  (seqOrdered_of_reachable h.reached).numbered

/-- The tables of a tower are short enough for every compaction. -/
theorem fitting (h : Tower crc32c allowed sizes m) (level : ℕ) : m.Fitting (.compact level) :=
  h.reached.fitting_compact h.short level

/-- A long key is written and its memtable handed over. -/
theorem write (h : Tower crc32c allowed sizes m) (room : sizes 0 < kL0CompactionTrigger) {key : Bytes}
    (long : IsLong key) :
    ∃ s imm info, Machine.Reachable crc32c Regular ⟨s, false, m.history ++ [longWrite key]⟩ ∧
      s.mem = .new ∧ s.imm = some imm ∧
      imm.entries = [⟨.ofWrite key m.store.lastSequence .kTypeValue, info⟩] ∧
      s.lastLivingSequence = 0 ∧ s.handles = [] ∧ s.tasks = m.store.tasks ∧
      s.fileno = m.store.fileno ∧ s.levels = m.store.levels := by
  have hzero : (levelAt m.store.levels 0).length = sizes 0 := h.size 0
  obtain ⟨s, imm, info, hrun, hmem, himm, hentries, -, hlive, hfileno, htasks, hlevels⟩ :=
    h.resting.fill crc32c (vlogsOwned_of_reachable h.reached) (by rwa [hzero]) long.fills
  refine ⟨s, imm, info, h.reached.run (hrun.mono fun _ _ hm => hm.1), hmem, himm, hentries,
    hlive.trans h.live, ?_, htasks, hfileno, hlevels⟩
  exact hrun.handles.trans h.handles

/-- The tower after the flush. -/
theorem flushed (h : Tower crc32c allowed sizes m) {key : Bytes} (long : IsLong key)
    (allow : allowed 0 key) {s : Store} {imm : MemTable} {info : VLogEntryInfo}
    (reached : Machine.Reachable crc32c Regular ⟨s, false, m.history ++ [longWrite key]⟩)
    (mem : s.mem = .new) (pending : s.imm = some imm)
    (entries : imm.entries = [⟨.ofWrite key m.store.lastSequence .kTypeValue, info⟩])
    (live : s.lastLivingSequence = 0) (handles : s.handles = []) (levels : s.levels = m.store.levels) :
    Tower crc32c allowed (Function.update sizes 0 (sizes 0 + 1))
      ⟨s.flushed (.ofWrite key m.store.lastSequence .kTypeValue) info, false,
        m.history ++ [longWrite key]⟩ := by
  have hnumbered : Numbered s.levels s.fileno := (seqOrdered_of_reachable reached).numbered
  obtain ⟨m₁, hflush, hclear⟩ := Store.flush_steps crc32c (m.history ++ [longWrite key])
    pending entries long.2 hnumbered
  have hflushed : Machine.Reachable crc32c Regular m₁ :=
    reached.step (a := .flush) ⟨trivial, trivial⟩ hflush
  refine ⟨hflushed.step (a := .clearImm) ⟨trivial, trivial⟩ hclear, ⟨mem, rfl, rfl⟩,
    live, handles, fun w hw => ?_, fun i => ?_, fun i f hf => ?_⟩
  · rcases List.mem_append.mp hw with hw | hw
    · exact h.short w hw
    · rw [List.mem_singleton.mp hw]
      exact long.2
  · have hsize : (levelAt m.store.levels i).length = sizes i := h.size i
    simp only [Store.levelSize, Store.flushed, levelAt_setLevel, levels, Function.update_apply]
    split
    · rename_i hi
      subst hi
      rw [List.length_append, List.length_singleton, hsize]
    · exact hsize
  · simp only [Store.flushed, levelAt_setLevel, levels] at hf
    split at hf
    · rename_i hi
      subst hi
      rcases List.mem_append.mp hf with hf | hf
      · exact h.points 0 f hf
      · rw [List.mem_singleton.mp hf]
        exact ⟨_, rfl, rfl, rfl, InternalKey.type_ofWrite _ _ _, by simpa using long.1, by simpa using allow⟩
    · exact h.points i f hf

theorem mono (h : Tower crc32c allowed sizes m) {allowed' : ℕ → Bytes → Prop}
    (imp : ∀ i u, allowed i u → allowed' i u) : Tower crc32c allowed' sizes m :=
  { h with points := fun i f hf => (h.points i f hf).mono (imp i) }

/-- One more table in level 0. -/
theorem round (h : Tower crc32c allowed sizes m) (room : sizes 0 < kL0CompactionTrigger) {key : Bytes}
    (long : IsLong key) (allow : allowed 0 key) :
    ∃ m', Tower crc32c allowed (Function.update sizes 0 (sizes 0 + 1)) m' ∧
      m'.history = m.history ++ [longWrite key] := by
  obtain ⟨s, imm, info, hreached, hmem, himm, hentries, hlive, hhandles, -, -, hlevels⟩ :=
    h.write room long
  exact ⟨_, h.flushed long allow hreached hmem himm hentries hlive hhandles hlevels, rfl⟩

/-- A level from which all tables are picked. -/
def PicksAll (sizes : ℕ → ℕ) (i : ℕ) : Prop :=
  (i = 0 ∧ kL0CompactionTrigger ≤ sizes 0) ∨
    (1 ≤ i ∧ 10 ^ i + 3 ≤ sizes i ∧ sizes i ≤ 2 ^ 31)

theorem picked (h : Tower crc32c allowed sizes m) {i : ℕ} (all : PicksAll sizes i) :
    ∃ info, pickCompaction m.store.levels i = some info ∧ info.level = i ∧
      info.oldFiles = levelAt m.store.levels i := by
  have hsize : (levelAt m.store.levels i).length = sizes i := h.size i
  have htake : (levelAt m.store.levels i).take (pickSSTFileNum m.store.levels i)
      = levelAt m.store.levels i := by
    refine List.take_of_length_le ?_
    rcases all with ⟨rfl, -⟩ | ⟨hi, hmore, hless⟩
    · rw [pickSSTFileNum, if_pos rfl]
    · have hten := ten_le_pow hi
      obtain ⟨d, hd⟩ := Nat.exists_eq_add_of_le (Nat.le_of_add_right_le hmore)
      rw [pickSSTFileNum_of_ge hi (hsize.trans hd), hsize]
      omega
  have hne : levelAt m.store.levels i ≠ [] := by
    rw [ne_eq, ← List.length_eq_zero_iff, hsize]
    rcases all with ⟨rfl, hfull⟩ | ⟨-, hmore, -⟩
    · exact (lt_of_lt_of_le (by decide) hfull).ne'
    · exact (lt_of_lt_of_le (Nat.succ_pos _) hmore).ne'
  obtain ⟨info, hpicked⟩ : ∃ info, pickCompaction m.store.levels i = some info := by
    obtain ⟨f, fs, hlevel⟩ := List.exists_cons_of_ne_nil hne
    rw [pickCompaction, htake, hlevel]
    exact ⟨_, rfl⟩
  obtain ⟨hi, hold, -⟩ := pickCompaction_cases hpicked
  exact ⟨info, hpicked, hi, hold.trans htake⟩

/-- **The compaction of a level from which all is picked** moves its tables down. -/
theorem compact (h : Tower crc32c allowed sizes m) {i : ℕ} (all : PicksAll sizes i)
    (down : ∀ u, allowed i u → allowed (i + 1) u) :
    ∃ info r new, Picked m.store.levels m.store.fileno info ∧ info.level = i ∧
      info.oldFiles = levelAt m.store.levels i ∧
      Compaction crc32c 0 m.store.fileno ⟨m.store.lastVlogFileNo, m.store.vlogs, .new⟩ info r new ∧
      (m.store.compacted r).levels = replaceFiles m.store.levels info new ∧
      Machine.Step crc32c m (.compact i) { m with store := m.store.compacted r } ∧
      Tower crc32c allowed
        (Function.update (Function.update sizes i 0) (i + 1) (sizes i + sizes (i + 1)))
        { m with store := m.store.compacted r } := by
  obtain ⟨info, hpicked, rfl, hold⟩ := h.picked all
  have hnumbered := h.numbered
  have hsize : ∀ j, (levelAt m.store.levels j).length = sizes j := h.size
  have htwo : 2 ≤ info.inputs.length := by
    rw [CompactInfo.inputs, List.length_map, List.length_append, hold, hsize]
    rcases all with ⟨hzero, hfull⟩ | ⟨-, hmore, -⟩
    · rw [hzero]
      exact (show 2 ≤ kL0CompactionTrigger by decide).trans (hfull.trans (Nat.le_add_right _ _))
    · exact le_add_right (le_trans (Nat.le_add_left 2 (10 ^ info.level + 1)) hmore)
  obtain ⟨r, new, p, hcomp, hlevels, hok⟩ :=
    Machine.compactLevel_isOk (fun _ _ hm => hm.2.sized) h.reached hpicked htwo
  have hstep : Machine.Step crc32c m (.compact info.level) { m with store := m.store.compacted r } :=
    .compact h.resting.idle hok
  rw [h.live] at hcomp
  refine ⟨info, r, new, p, rfl, hold, hcomp, hlevels, hstep, ?_⟩
  -- all inputs are tables of one user key, and so are the outputs
  have hpoints : ∀ f ∈ info.oldFiles ++ info.overlapFiles, f.Point (allowed (info.level + 1)) := by
    intro f hf
    rcases List.mem_append.mp hf with hf | hf
    · exact (h.points _ f (p.mem_old hf)).mono down
    · exact h.points _ f (p.mem_overlap.mp hf).1
  obtain ⟨hcount, hnew⟩ := hcomp.points p.old_ne hpoints
  have hat : ∀ j, levelAt (m.store.compacted r).levels j =
      levelAt (replaceFiles m.store.levels info new) j := fun j => by rw [hlevels]
  refine ⟨h.reached.step (a := .compact info.level) ⟨fun hzero => ?_, h.fitting _⟩ hstep,
    ⟨h.resting.mem, h.resting.imm, h.resting.idle⟩, h.live, h.handles, h.short, fun j => ?_,
    fun j f hf => ?_⟩
  · rcases all with ⟨-, hfull⟩ | ⟨hone, -⟩
    · exact hfull.trans (hsize 0).ge
    · omega
  -- the level is emptied, and the next one has its tables and those moved down
  · have hgone := length_removeFiles (hnumbered.ascending info.level)
      (List.Sublist.refl (levelAt m.store.levels info.level))
    have hover : info.overlapFiles.Sublist (levelAt m.store.levels (info.level + 1)) := by
      rw [(pickCompaction_cases p.picked).2.2.2.2]
      exact List.filter_sublist
    have hstay := length_removeFiles (hnumbered.ascending (info.level + 1)) hover
    have hfresh : ∀ f ∈ new, ∀ g ∈ removeFiles info.overlapFiles
        (levelAt m.store.levels (info.level + 1)), f.fileNumber ≠ g.fileNumber :=
      fun f hf g hg => p.fresh hcomp hf (mem_removeFiles.mp hg).1
    have hsum := length_addFiles ((p.numbers hcomp).2.1.imp fun hlt => hlt.ne) hfresh
    rw [hold] at hcount
    rw [hsize] at hcount hstay
    show (levelAt (m.store.compacted r).levels j).length = _
    rw [hat, levelAt_replaceFiles, Function.update_apply, Function.update_apply]
    split
    · rw [hsum]
      omega
    · split
      · rw [hold]
        omega
      · exact hsize j
  · rw [hat] at hf
    rcases (p.mem_level hcomp).mp hf with ⟨rfl, hin⟩ | ⟨hin, -⟩
    · exact hnew f hin
    · exact h.points j f hin

end Machine.Tower

/-- Numbers of tables in the first four levels. -/
def tiers (a b c d : ℕ) : ℕ → ℕ
  | 0 => a
  | 1 => b
  | 2 => c
  | 3 => d
  | _ => 0

namespace Machine.Tower

variable {m : Machine} {allowed : ℕ → Bytes → Prop} {a b c d : ℕ}

/-- A number of tables in level 0 with the same key. -/
theorem fill (h : Tower crc32c allowed (tiers a b c d) m) {n : ℕ}
    (room : a + n ≤ kL0CompactionTrigger) {key : Bytes} (long : IsLong key) (allow : allowed 0 key) :
    ∃ m', Tower crc32c allowed (tiers (a + n) b c d) m' ∧
      m'.history = m.history ++ List.replicate n (longWrite key) := by
  induction n with
  | zero => exact ⟨m, h, by simp⟩
  | succ n ih =>
      obtain ⟨m₁, h₁, hhist₁⟩ := ih (Nat.le_of_succ_le room)
      obtain ⟨m₂, h₂, hhist₂⟩ := h₁.round room long allow
      refine ⟨m₂, h₂.congr fun i => ?_, ?_⟩
      · match i with
        | 0 | 1 | 2 | 3 | _ + 4 => rfl
      · rw [hhist₂, hhist₁, List.append_assoc, ← List.replicate_succ']

/-- Level 0 is compacted. -/
theorem compact0 (h : Tower crc32c allowed (tiers kL0CompactionTrigger b c d) m)
    (down : ∀ u, allowed 0 u → allowed 1 u) :
    ∃ s', Machine.Step crc32c m (.compact 0) { m with store := s' } ∧
      Tower crc32c allowed (tiers 0 (kL0CompactionTrigger + b) c d) { m with store := s' } ∧
      levelAt s'.levels 3 = levelAt m.store.levels 3 := by
  obtain ⟨info, r, new, -, hlevel, -, -, hlevels, hstep, h'⟩ := h.compact (.inl ⟨rfl, le_rfl⟩) down
  refine ⟨_, hstep, h'.congr fun i => ?_, ?_⟩
  · match i with
    | 0 | 1 | 2 | 3 | _ + 4 => rfl
  · rw [hlevels, levelAt_replaceFiles, hlevel]
    rfl

/-- Level 1 is compacted. -/
theorem compact1 (h : Tower crc32c allowed (tiers a b c d) m) (more : 13 ≤ b) (less : b ≤ 2 ^ 31)
    (down : ∀ u, allowed 1 u → allowed 2 u) :
    ∃ s', Machine.Step crc32c m (.compact 1) { m with store := s' } ∧
      Tower crc32c allowed (tiers a 0 (b + c) d) { m with store := s' } ∧
      levelAt s'.levels 3 = levelAt m.store.levels 3 := by
  obtain ⟨info, r, new, -, hlevel, -, -, hlevels, hstep, h'⟩ :=
    h.compact (i := 1) (.inr ⟨le_rfl, more, less⟩) down
  refine ⟨_, hstep, h'.congr fun i => ?_, ?_⟩
  · match i with
    | 0 | 1 | 2 | 3 | _ + 4 => rfl
  · rw [hlevels, levelAt_replaceFiles, hlevel]
    rfl

/-- Level 2 is compacted, and the tables of level 3 between two of its tables are deleted with their
value logs. -/
theorem compact2 (h : Tower crc32c allowed (tiers a b c d) m) (more : 103 ≤ c) (less : c ≤ 2 ^ 31)
    (down : ∀ u, allowed 2 u → allowed 3 u) :
    ∃ s', Machine.Step crc32c m (.compact 2) { m with store := s' } ∧
      Tower crc32c allowed (tiers a b 0 (c + d)) { m with store := s' } ∧
      ∀ f ∈ levelAt m.store.levels 3, f.smallest ≤ f.largest →
        (∃ g ∈ levelAt m.store.levels 2, g.smallest ≤ f.largest) →
        (∃ g ∈ levelAt m.store.levels 2, f.smallest ≤ g.largest) →
        ∃ task ∈ s'.tasks, f.fileNumber ∈ task.1 ∧ f.vlogFileNo ∈ task.2 := by
  obtain ⟨info, r, new, p, hlevel, hold, hcomp, -, hstep, h'⟩ :=
    h.compact (i := 2) (.inr ⟨by decide, more, less⟩) down
  refine ⟨_, hstep, h'.congr fun i => ?_, ?_⟩
  · match i with
    | 0 | 1 | 2 | 3 | _ + 4 => rfl
  · rintro f hf hrange ⟨g, hg, hsmall⟩ ⟨k, hk, hlarge⟩
    have hpoint : g.smallest = g.largest := by
      obtain ⟨e, -, hsmall, hlarge, -⟩ := h.points 2 g hg
      rw [hsmall, hlarge]
    have hcovers := (pickCompaction_cases p.picked).2.2.2.1
    rw [← hold] at hg hk
    have hover : f ∈ info.overlapFiles := by
      refine p.mem_overlap.mpr ⟨hlevel ▸ hf, ?_⟩
      simp only [SSTFile.inRange, decide_eq_true_eq, max_le_iff, le_min_iff]
      exact ⟨⟨hrange, (hcovers g hg).1.trans hsmall⟩, hlarge.trans (hcovers k hk).2,
        ((hcovers g hg).1.trans hpoint.le).trans (hcovers g hg).2⟩
    cases hcomp with
    | move moves => simp [moves.2.2] at hover
    | merge _ _ _ _ rm_sst rm_vlog =>
        have hmem : f.fileNumber ∈ info.rmSstFiles :=
          List.mem_map_of_mem (List.mem_append_right _ hover)
        have hlog : f.vlogFileNo ∈ info.rmVlogFiles := by
          refine List.mem_append_right _ ?_
          rw [if_pos (by rw [hlevel]; decide)]
          exact List.mem_map_of_mem hover
        refine ⟨(info.rmSstFiles, r.rmVlogFiles), ?_, hmem, rm_vlog ▸ hlog⟩
        rw [Store.compacted, rm_sst, if_neg (by simp [List.ne_nil_of_mem hmem])]
        exact List.mem_append_right _ (List.mem_singleton_self _)

/-- Rounds of four tables with the same key, brought to level 1. -/
theorem rounds (h : Tower crc32c allowed (tiers 0 b c d) m) (n : ℕ) {key : Bytes} (long : IsLong key)
    (allow : allowed 0 key) (down : ∀ u, allowed 0 u → allowed 1 u) :
    ∃ m', Tower crc32c allowed (tiers 0 (kL0CompactionTrigger * n + b) c d) m' ∧
      m'.history = m.history ++ List.replicate (kL0CompactionTrigger * n) (longWrite key) := by
  induction n with
  | zero => exact ⟨m, h.congr fun i => by rw [Nat.mul_zero, Nat.zero_add], by simp⟩
  | succ n ih =>
      obtain ⟨m₁, h₁, hhist₁⟩ := ih
      obtain ⟨m₂, h₂, hhist₂⟩ := h₁.fill (n := kL0CompactionTrigger) (Nat.zero_add _).le long allow
      rw [Nat.zero_add] at h₂
      obtain ⟨s₃, -, h₃, -⟩ := h₂.compact0 down
      refine ⟨_, h₃.congr fun i => ?_, ?_⟩
      · rw [Nat.mul_succ]
        congr 1
        omega
      · show m₂.history = _
        rw [hhist₂, hhist₁, List.append_assoc, ← List.replicate_add, Nat.mul_succ]

/-- Groups of sixteen tables with the same key, brought to level 2. -/
theorem groups (h : Tower crc32c allowed (tiers 0 0 c d) m) (n : ℕ) {key : Bytes} (long : IsLong key)
    (allow : allowed 0 key) (down : ∀ i < 2, ∀ u, allowed i u → allowed (i + 1) u) :
    ∃ m', Tower crc32c allowed (tiers 0 0 (16 * n + c) d) m' ∧
      m'.history = m.history ++ List.replicate (16 * n) (longWrite key) := by
  induction n with
  | zero => exact ⟨m, h.congr fun i => by rw [Nat.mul_zero, Nat.zero_add], by simp⟩
  | succ n ih =>
      obtain ⟨m₁, h₁, hhist₁⟩ := ih
      obtain ⟨m₂, h₂, hhist₂⟩ := h₁.rounds 4 long allow (down 0 (by decide))
      obtain ⟨s₃, -, h₃, -⟩ := h₂.compact1 (by decide) (by decide) (down 1 (by decide))
      refine ⟨_, h₃.congr fun i => ?_, ?_⟩
      · congr 1
        simp only [kL0CompactionTrigger]
        omega
      · show m₂.history = _
        rw [hhist₂, hhist₁, List.append_assoc, ← List.replicate_add, Nat.mul_succ]
        rfl

variable (crc32c) in
theorem new (allowed : ℕ → Bytes → Prop) : Tower crc32c allowed (tiers 0 0 0 0) .new where
  reached := .new
  resting := ⟨rfl, rfl, rfl⟩
  live := rfl
  handles := rfl
  short := fun w hw => by simp [Machine.new] at hw
  size i := by
    rw [Store.levelSize, Machine.new, Store.levelAt_new, List.length_nil]
    rcases i with _ | _ | _ | _ | i <;> rfl
  points := fun i f hf => by simp [Machine.new] at hf

/-- What was written is in one of the tables. -/
theorem mem_level (h : Tower crc32c allowed (tiers a b c d) m) {key : Bytes}
    (written : longWrite key ∈ m.history) :
    ∃ i, ∃ f ∈ levelAt m.store.levels i, ∃ e ∈ f.entries, e.key.userKey = key := by
  obtain ⟨n, hn⟩ := List.mem_iff_getElem?.mp written
  obtain ⟨e, he, hkey⟩ := (accounted_of_reachable h.reached).complete n _ hn (by simp [h.live])
  have huser : e.key.userKey = key := by
    rw [hkey]
    rfl
  rcases he with he | ⟨imm, himm, -⟩ | ⟨i, f, hf, he⟩
  · rw [h.resting.mem] at he
    exact absurd he List.not_mem_nil
  · simp [h.resting.imm] at himm
  · exact ⟨i, f, hf, e, he, huser⟩

variable (crc32c) in
/-- **Level 2 overflows**: a hundred and twelve tables with the same key in level 3. -/
theorem overflow {key : Bytes} (long : IsLong key) :
    ∃ m, Tower crc32c (fun _ u => u = key) (tiers 0 0 0 112) m ∧
      m.history = List.replicate 112 (longWrite key) := by
  obtain ⟨m₁, h₁, hhist⟩ := (new crc32c fun _ u => u = key).groups 7 long rfl fun _ _ _ hu => hu
  obtain ⟨s₂, -, h₂, -⟩ := h₁.compact2 (by decide) (by decide) fun _ hu => hu
  exact ⟨_, h₂, hhist⟩

/-- An empty level allows everything. -/
theorem relax (h : Tower crc32c allowed (tiers a b c d) m) {allowed' : ℕ → Bytes → Prop}
    (imp : ∀ i u, tiers a b c d i ≠ 0 → allowed i u → allowed' i u) :
    Tower crc32c allowed' (tiers a b c d) m := by
  refine { h with points := fun i f hf => (h.points i f hf).mono fun u => imp i u fun hzero => ?_ }
  have hempty : (levelAt m.store.levels i).length = 0 := (h.size i).trans hzero
  rw [List.length_eq_zero_iff.mp hempty] at hf
  exact absurd hf List.not_mem_nil

/-- The keys that are allowed in each level: one below, and two around it above. -/
def Around (low key high : Bytes) (i : ℕ) (u : Bytes) : Prop :=
  (i < 3 ∧ (u = low ∨ u = high)) ∨ (i = 3 ∧ u = key)

theorem around_down {low key high : Bytes} {i : ℕ} (above : i < 2) {u : Bytes}
    (h : Around low key high i u) : Around low key high (i + 1) u := by
  rcases h with ⟨-, hu⟩ | ⟨rfl, -⟩
  · exact .inl ⟨by omega, hu⟩
  · omega

variable (crc32c) in
/-- **The levels above level 3 are about to overflow**, with keys on both sides of the one that is
in level 3. -/
theorem around {low key high : Bytes} (longLow : IsLong low) (long : IsLong key)
    (longHigh : IsLong high) :
    ∃ m, Tower crc32c (Around low key high) (tiers 3 12 96 112) m ∧
      longWrite low ∈ m.history ∧ longWrite key ∈ m.history ∧ longWrite high ∈ m.history ∧
      ∀ w ∈ m.history, ∃ u, w = longWrite u := by
  obtain ⟨m₀, h₀, hhist₀⟩ := overflow crc32c long
  have hstart : Tower crc32c (Around low key high) (tiers 0 0 0 112) m₀ := by
    refine h₀.relax fun i u hne hu => ?_
    match i with
    | 3 => exact .inr ⟨rfl, hu⟩
    | 0 | 1 | 2 | _ + 4 => exact absurd rfl hne
  have hlow : Around low key high 0 low := .inl ⟨by decide, .inl rfl⟩
  have hhigh : Around low key high 0 high := .inl ⟨by decide, .inr rfl⟩
  have hdown : ∀ i < 2, ∀ u, Around low key high i u → Around low key high (i + 1) u :=
    fun _ hi _ => around_down hi
  obtain ⟨m₁, h₁, hhist₁⟩ := hstart.groups 1 longLow hlow hdown
  obtain ⟨m₂, h₂, hhist₂⟩ := h₁.groups 5 longHigh hhigh hdown
  obtain ⟨m₃, h₃, hhist₃⟩ := h₂.rounds 3 longHigh hhigh (hdown 0 (by decide))
  obtain ⟨m₄, h₄, hhist₄⟩ := h₃.fill (n := 3) (by decide) longHigh hhigh
  rw [hhist₃, hhist₂, hhist₁, hhist₀] at hhist₄
  refine ⟨m₄, h₄, ?_, ?_, ?_, fun w hw => ?_⟩
  · rw [hhist₄]
    simp only [List.mem_append, List.mem_replicate]
    tauto
  · rw [hhist₄]
    simp only [List.mem_append, List.mem_replicate]
    tauto
  · rw [hhist₄]
    simp only [List.mem_append, List.mem_replicate]
    tauto
  · rw [hhist₄] at hw
    simp only [List.mem_append, List.mem_replicate] at hw
    rcases hw with (((⟨-, hw⟩ | ⟨-, hw⟩) | ⟨-, hw⟩) | ⟨-, hw⟩) | ⟨-, hw⟩
    · exact ⟨_, hw⟩
    · exact ⟨_, hw⟩
    · exact ⟨_, hw⟩
    · exact ⟨_, hw⟩
    · exact ⟨_, hw⟩

end Machine.Tower

end Lsmkv
