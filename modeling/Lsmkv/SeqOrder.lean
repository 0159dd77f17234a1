import Lsmkv.Run

/-!
# Sequence numbers over a run

Sequence numbers grow from the levels to the memtable: everything in the memtable is newer
than everything in the immutable one, that is newer than level 0, where the tables with
larger numbers are newer, and level 0 is newer than the deeper levels.  `SeqOrdered` is
that statement, and it is kept by every step of every run.

Below level 0 no such order holds.  What a read relies on there is the order of versions
of `Lsmkv.LevelOrder`, and `ReadOrdered` puts both together: whatever is read first is
never older than what is read later.
-/

namespace Lsmkv

open ByteCode Files

variable {crc32c : Bytes → ℕ}

/-! ## What the operations do to entries -/

/-- The store holds an entry: in a memtable or in a table of a level. -/
def Store.Holds (s : Store) (e : Entry VLogEntryInfo) : Prop :=
  e ∈ s.mem.entries ∨ (∃ imm, s.imm = some imm ∧ e ∈ imm.entries) ∨
    ∃ i, ∃ f ∈ levelAt s.levels i, e ∈ f.entries

theorem Store.not_holds_of_empty {s : Store} (mem : s.mem = .new) (imm : s.imm = none)
    (levels : ∀ i, levelAt s.levels i = []) (e : Entry VLogEntryInfo) : ¬ s.Holds e := by
  rintro (he | ⟨imm', himm, -⟩ | ⟨i, f, hf, -⟩)
  · simp [mem, MemTable.new] at he
  · simp [imm] at himm
  · simp [levels] at hf

/-- What a write does: it may change the value log, appends a record, and puts the key
into the memtable. -/
theorem Store.writeImpl_cases {s s' : Store} {w : Write} {garbage : VLogEntryInfo} {height : ℕ}
    (h : s.writeImpl crc32c w garbage height = .ok s') :
    ∃ s₁ info vlog vlogs, (s₁ = s ∨ s₁ = s.rotateVlog crc32c) ∧
      s₁.vlog.append crc32c s₁.vlogs (.ofWrite w.key s.lastSequence w.type) w.value
        = .ok (info, vlog, vlogs) ∧
      s' = { s₁ with
        vlog := vlog
        vlogs := vlogs
        mem := s.mem.put (.ofWrite w.key s.lastSequence w.type)
          (if w.type = .kTypeDeletion then garbage else info) height
        lastSequence := s.lastSequence + 1 } := by
  obtain ⟨full, -, hrest⟩ := Outcome.bind_eq_ok.mp h
  obtain ⟨⟨info, vlog, vlogs⟩, happend, hok⟩ := Outcome.bind_eq_ok.mp hrest
  simp only [Outcome.ok.injEq] at hok
  cases full with
  | false => exact ⟨s, info, vlog, vlogs, .inl rfl, happend, hok.symm⟩
  | true => exact ⟨s.rotateVlog crc32c, info, vlog, vlogs, .inr rfl, happend, hok.symm⟩

/-- The part of the store that a write changes. -/
theorem Store.writeImpl_fields {s s' : Store} {w : Write} {garbage : VLogEntryInfo} {height : ℕ}
    (h : s.writeImpl crc32c w garbage height = .ok s') :
    (∃ value, s'.mem = s.mem.put (.ofWrite w.key s.lastSequence w.type) value height) ∧
      s'.imm = s.imm ∧ s'.levels = s.levels ∧ s'.fileno = s.fileno ∧
      s'.lastSequence = s.lastSequence + 1 ∧ s'.lastLivingSequence = s.lastLivingSequence := by
  obtain ⟨s₁, info, vlog, vlogs, hs₁, -, rfl⟩ := Store.writeImpl_cases h
  rcases hs₁ with rfl | rfl
  · exact ⟨⟨_, rfl⟩, rfl, rfl, rfl, rfl, rfl⟩
  · exact ⟨⟨_, rfl⟩, rfl, rfl, rfl, rfl, rfl⟩

/-- A write deletes nothing and opens nothing. -/
theorem Store.writeImpl_files {s s' : Store} {w : Write} {garbage : VLogEntryInfo} {height : ℕ}
    (h : s.writeImpl crc32c w garbage height = .ok s') :
    s'.tasks = s.tasks ∧ s'.sstFiles = s.sstFiles ∧ s'.handles = s.handles := by
  obtain ⟨s₁, info, vlog, vlogs, hs₁, -, rfl⟩ := Store.writeImpl_cases h
  rcases hs₁ with rfl | rfl
  · exact ⟨rfl, rfl, rfl⟩
  · exact ⟨rfl, rfl, rfl⟩

/-- What the hand-over does, on a store with no immutable memtable. -/
theorem Store.handOver_cases {s s' : Store} (h : s.handOver = .ok s') :
    s.imm = none ∧ s' = { s with imm := some s.mem, mem := .new } := by
  cases himm : s.imm with
  | none =>
      simp only [Store.handOver, himm, Outcome.ok.injEq] at h
      exact ⟨rfl, h.symm⟩
  | some imm => simp [Store.handOver, himm] at h

/-- What a flush does: a table with the entries of the memtable and the next number. -/
theorem Store.writeLevel0Table_cases {s s' : Store} {imm : MemTable}
    (h : s.writeLevel0Table imm = .ok s') :
    ∃ e es, imm.entries = e :: es ∧
      s' = { s with
        fileno := s.fileno + 1
        levels := setLevel s.levels 0 (emplace
          ⟨s.fileno, e.key, ((e :: es).getLast (List.cons_ne_nil _ _)).key, 0, e :: es⟩
          (levelAt s.levels 0))
        sstFiles := Function.update s.sstFiles s.fileno true } := by
  obtain ⟨table, htable, hok⟩ := Outcome.bind_eq_ok.mp h
  simp only [Outcome.ok.injEq] at hok
  cases himm : imm.entries with
  | nil => simp [himm, buildTable] at htable
  | cons e es =>
      rw [himm, buildTable] at htable
      split at htable
      · exact ⟨e, es, rfl, by rw [← hok, ← Outcome.ok.inj htable]⟩
      · exact absurd htable (by simp)

theorem Store.writeLevel0Table_kept {s s' : Store} {imm : MemTable}
    (h : s.writeLevel0Table imm = .ok s') {e : Entry VLogEntryInfo}
    {es : List (Entry VLogEntryInfo)} (entries : imm.entries = e :: es) :
    TableKept ((e :: es).getLast (List.cons_ne_nil _ _)).key (e :: es) := by
  obtain ⟨table, htable, -⟩ := Outcome.bind_eq_ok.mp h
  rw [entries, buildTable] at htable
  split at htable
  · assumption
  · exact absurd htable (by simp)

/-- What a round of compaction does: nothing, or the work on what was picked. -/
theorem Store.compactLevel_cases {s s' : Store} {level : ℕ}
    (h : s.compactLevel crc32c level = .ok s') (numbered : Numbered s.levels s.fileno) :
    s' = s ∨ ∃ info r new, pickCompaction s.levels level = some info ∧
      Picked s.levels s.fileno info ∧
      Compaction crc32c s.lastLivingSequence s.fileno ⟨s.lastVlogFileNo, s.vlogs, .new⟩ info r new ∧
      (s.compacted r).levels = replaceFiles s.levels info new ∧ s' = s.compacted r := by
  simp only [Store.compactLevel] at h
  split at h
  · exact .inl (Outcome.ok.inj h).symm
  · rename_i info hpick
    obtain ⟨r, hr, hok⟩ := Outcome.bind_eq_ok.mp h
    obtain ⟨new, hcomp, hlevels⟩ := doCompactionWork_cases hr
    have hlevel := (pickCompaction_cases hpick).1
    exact .inr ⟨info, r, new, hpick, ⟨numbered, hlevel ▸ hpick⟩, hcomp, hlevels,
      (Outcome.ok.inj hok).symm⟩

/-- A flushed table joins level 0, the others stay. -/
theorem mem_levelAt_flush {levels : List (Level VLogEntryInfo)} {fileno : ℕ}
    (numbered : Numbered levels fileno) {t f : SSTFile VLogEntryInfo} (number : t.fileNumber = fileno)
    {i : ℕ} :
    f ∈ levelAt (setLevel levels 0 (emplace t (levelAt levels 0))) i ↔
      (i = 0 ∧ f = t) ∨ f ∈ levelAt levels i := by
  rw [levelAt_setLevel]
  by_cases hi : i = 0
  · subst hi
    rw [if_pos rfl, mem_emplace fun g hg => by
      have := numbered.below 0 g hg
      omega]
    simp
  · simp [hi]

theorem Numbered.flush {levels : List (Level VLogEntryInfo)} {fileno : ℕ}
    (h : Numbered levels fileno) {t : SSTFile VLogEntryInfo} (number : t.fileNumber = fileno) :
    Numbered (setLevel levels 0 (emplace t (levelAt levels 0))) (fileno + 1) := by
  refine ⟨fun i => ?_, fun i f hf => ?_, fun i j f hf g hg heq => ?_⟩
  · rw [levelAt_setLevel]
    split
    · exact ascending_emplace (h.ascending 0)
    · exact h.ascending i
  · rcases (mem_levelAt_flush h number).mp hf with ⟨-, rfl⟩ | hf
    · omega
    · exact (h.below i f hf).trans (Nat.lt_succ_self _)
  · rcases (mem_levelAt_flush h number).mp hf with ⟨hi, ht⟩ | hold
    · rcases (mem_levelAt_flush h number).mp hg with ⟨hj, -⟩ | hold'
      · rw [hi, hj]
      · have := h.below j g hold'
        rw [ht] at heq
        omega
    · rcases (mem_levelAt_flush h number).mp hg with ⟨-, ht⟩ | hold'
      · have := h.below i f hold
        rw [ht] at heq
        omega
      · exact h.unique i j f hold g hold' heq

/-- Every key in the levels after a compaction was in them before, in level 0 only if it
came from there. -/
theorem Picked.key_before {live fileno : ℕ} {levels : List (Level VLogEntryInfo)} {w : VLogWork}
    {info : CompactInfo VLogEntryInfo} {r : CompactionResult} {new : List (SSTFile VLogEntryInfo)}
    (p : Picked levels fileno info) (h : Compaction crc32c live fileno w info r new) {j : ℕ}
    {f : SSTFile VLogEntryInfo} (hf : f ∈ levelAt (replaceFiles levels info new) j)
    {e : Entry VLogEntryInfo} (he : e ∈ f.entries) :
    ∃ i, ∃ g ∈ levelAt levels i, ∃ d ∈ g.entries, d.key = e.key ∧ (i = j ∨ i = info.level ∨
      i = info.level + 1) := by
  rcases (p.mem_level h).mp hf with ⟨rfl, hnew⟩ | ⟨hf, -⟩
  · obtain ⟨g, hg, d, hd, hkey, -⟩ := h.key_from p.old_ne hnew he
    rcases p.mem_input hg with hg | hg
    · exact ⟨_, g, hg, d, hd, hkey, .inr (.inl rfl)⟩
    · exact ⟨_, g, hg, d, hd, hkey, .inl rfl⟩
  · exact ⟨j, f, hf, e, he, rfl, .inl rfl⟩

/-- A compaction of level 0 empties it. -/
theorem Picked.level0_empty {live fileno : ℕ} {levels : List (Level VLogEntryInfo)} {w : VLogWork}
    {info : CompactInfo VLogEntryInfo} {r : CompactionResult} {new : List (SSTFile VLogEntryInfo)}
    (p : Picked levels fileno info) (h : Compaction crc32c live fileno w info r new)
    (zero : info.level = 0) (f : SSTFile VLogEntryInfo) :
    f ∉ levelAt (replaceFiles levels info new) 0 := by
  intro hf
  rcases (p.mem_level h).mp hf with ⟨hlevel, -⟩ | ⟨hf, hstay, -⟩
  · exact absurd hlevel (Nat.succ_ne_zero _).symm
  · refine hstay zero.symm ?_
    rw [p.old_eq, zero, pickSSTFileNum, if_pos rfl, List.take_length]
    exact hf

/-! ## The invariant -/

/-- The table is the finished flush of the immutable memtable, which is still set. -/
def Machine.OwnFlush (m : Machine) (i : ℕ) (f : SSTFile VLogEntryInfo) : Prop :=
  m.flushed = true ∧ i = 0 ∧ f.fileNumber + 1 = m.store.fileno

/-- **Sequence numbers grow from the levels to the memtable.** -/
structure SeqOrdered (m : Machine) : Prop where
  numbered : Numbered m.store.levels m.store.fileno
  below : ∀ e, m.store.Holds e → e.key.seq < m.store.lastSequence
  mem_imm : ∀ imm, m.store.imm = some imm → ∀ e ∈ m.store.mem.entries, ∀ d ∈ imm.entries,
    d.key.seq < e.key.seq
  mem_levels : ∀ i, ∀ f ∈ levelAt m.store.levels i, ∀ e ∈ m.store.mem.entries, ∀ d ∈ f.entries,
    d.key.seq < e.key.seq
  imm_levels : ∀ imm, m.store.imm = some imm → ∀ i, ∀ f ∈ levelAt m.store.levels i,
    m.OwnFlush i f ∨ ∀ e ∈ imm.entries, ∀ d ∈ f.entries, d.key.seq < e.key.seq
  own : m.flushed = true → ∃ imm, m.store.imm = some imm ∧ ∃ f ∈ levelAt m.store.levels 0,
    f.fileNumber + 1 = m.store.fileno ∧ f.entries = imm.entries
  level0 : ∀ f ∈ levelAt m.store.levels 0, ∀ g ∈ levelAt m.store.levels 0,
    f.fileNumber < g.fileNumber → ∀ d ∈ f.entries, ∀ e ∈ g.entries, d.key.seq < e.key.seq
  deeper : ∀ f ∈ levelAt m.store.levels 0, ∀ j, 1 ≤ j → ∀ g ∈ levelAt m.store.levels j,
    ∀ e ∈ f.entries, ∀ d ∈ g.entries, d.key.seq < e.key.seq

namespace SeqOrdered

variable {m : Machine}

/-- A store that holds nothing. -/
theorem of_empty (mem : m.store.mem = .new) (imm : m.store.imm = none)
    (levels : ∀ i, levelAt m.store.levels i = []) (idle : m.flushed = false) : SeqOrdered m where
  numbered := ⟨by simp [levels], by simp [levels], by simp [levels]⟩
  below e he := absurd he (Store.not_holds_of_empty mem imm levels e)
  mem_imm imm' himm := by simp [imm] at himm
  mem_levels i f hf := by simp [levels] at hf
  imm_levels imm' himm := by simp [imm] at himm
  own h := by simp [idle] at h
  level0 f hf := by simp [levels] at hf
  deeper f hf := by simp [levels] at hf

theorem init : SeqOrdered .new := .of_empty rfl rfl Store.levelAt_new rfl

/-- The own finished flush holds what the immutable memtable holds. -/
theorem entries_eq_of_ownFlush (h : SeqOrdered m) {i : ℕ} {f : SSTFile VLogEntryInfo}
    (hf : f ∈ levelAt m.store.levels i) (hown : m.OwnFlush i f) {imm : MemTable}
    (himm : m.store.imm = some imm) : f.entries = imm.entries := by
  obtain ⟨hflushed, rfl, hnum⟩ := hown
  obtain ⟨imm', himm', g, hg, hgnum, hentries⟩ := h.own hflushed
  obtain rfl : imm' = imm := Option.some.inj (himm'.symm.trans himm)
  rw [← hentries, eq_of_number_eq (h.numbered.ascending 0) hf hg (by omega)]

/-- Steps that touch neither memtables nor levels keep the order. -/
theorem quiet (h : SeqOrdered m) {m' : Machine} (same : m.store.SameData m'.store)
    (flushed : m'.flushed = m.flushed)
    (fileno : m.flushed = true → m'.store.fileno = m.store.fileno) : SeqOrdered m' where
  numbered := by
    refine ⟨?_, ?_, ?_⟩
    · simpa only [same.levels] using h.numbered.ascending
    · intro i f hf
      rw [same.levels] at hf
      exact lt_of_lt_of_le (h.numbered.below i f hf) same.fileno_le
    · simpa only [same.levels] using h.numbered.unique
  below e he := by
    rw [same.lastSequence]
    refine h.below e ?_
    simpa only [Store.Holds, same.mem, same.imm, same.levels] using he
  mem_imm := by simpa only [same.mem, same.imm] using h.mem_imm
  mem_levels := by simpa only [same.mem, same.levels] using h.mem_levels
  imm_levels := by
    intro imm himm i f hf
    simp only [same.imm, same.levels] at himm hf
    refine (h.imm_levels imm himm i f hf).imp_left fun hown => ?_
    exact ⟨flushed.trans hown.1, hown.2.1, by rw [fileno hown.1]; exact hown.2.2⟩
  own hflushed := by
    rw [flushed] at hflushed
    simpa only [same.imm, same.levels, fileno hflushed] using h.own hflushed
  level0 := by simpa only [same.levels] using h.level0
  deeper := by simpa only [same.levels] using h.deeper

/-- What is put into the memtable gets a sequence number above all others. -/
theorem put (h : SeqOrdered m) {s : Store} {w : Write} {value : VLogEntryInfo} {height : ℕ}
    (mem : s.mem = m.store.mem.put (.ofWrite w.key m.store.lastSequence w.type) value height)
    (imm : s.imm = m.store.imm) (levels : s.levels = m.store.levels)
    (fileno : s.fileno = m.store.fileno) (lastSequence : s.lastSequence = m.store.lastSequence + 1)
    (history : List Write) : SeqOrdered ⟨s, m.flushed, history⟩ := by
  have hkey : ∀ e ∈ s.mem.entries, e ∈ m.store.mem.entries ∨ e.key.seq = m.store.lastSequence := by
    intro e he
    rw [mem] at he
    rcases mem_insertEntry.mp he with rfl | he
    · exact .inr (InternalKey.seq_ofWrite _ _ _)
    · exact .inl he
  refine ⟨?_, fun e he => ?_, fun imm' himm' e he d hd => ?_, fun i f hf e he d hd => ?_, ?_, ?_,
    ?_, ?_⟩
  · simpa only [levels, fileno] using h.numbered
  · simp only [lastSequence]
    rcases he with he | he
    · rcases hkey e he with he | he
      · exact (h.below e (.inl he)).trans (Nat.lt_succ_self _)
      · exact he ▸ Nat.lt_succ_self _
    · refine (h.below e (.inr ?_)).trans (Nat.lt_succ_self _)
      simpa only [imm, levels] using he
  · simp only [imm] at himm'
    rcases hkey e he with he | he
    · exact h.mem_imm imm' himm' e he d hd
    · rw [he]
      exact h.below d (.inr (.inl ⟨imm', himm', hd⟩))
  · simp only [levels] at hf
    rcases hkey e he with he | he
    · exact h.mem_levels i f hf e he d hd
    · rw [he]
      exact h.below d (.inr (.inr ⟨i, f, hf, hd⟩))
  · simpa only [imm, levels, Machine.OwnFlush, fileno] using h.imm_levels
  · simpa only [imm, levels, fileno] using h.own
  · simpa only [levels] using h.level0
  · simpa only [levels] using h.deeper

theorem write (h : SeqOrdered m) {s : Store} {w : Write} {garbage : VLogEntryInfo} {height : ℕ}
    (ok : m.store.writeImpl crc32c w garbage height = .ok s) (history : List Write) :
    SeqOrdered ⟨s, m.flushed, history⟩ := by
  obtain ⟨⟨value, hmem⟩, himm, hlevels, hfileno, hseq, -⟩ := Store.writeImpl_fields ok
  exact h.put hmem himm hlevels hfileno hseq history

/-- After the hand-over the memtable is empty. -/
theorem handOver (h : SeqOrdered m) {s : Store} (ok : m.store.handOver = .ok s) :
    SeqOrdered { m with store := s } := by
  obtain ⟨himm, rfl⟩ := Store.handOver_cases ok
  have hidle : m.flushed = false := by
    cases hflushed : m.flushed with
    | false => rfl
    | true =>
        obtain ⟨imm, himm', -⟩ := h.own hflushed
        simp [himm] at himm'
  refine ⟨h.numbered, fun e he => ?_, ?_, ?_, ?_, ?_, h.level0, h.deeper⟩
  · refine h.below e ?_
    rcases he with he | ⟨imm, himm', he⟩ | he
    · simp [MemTable.new] at he
    · simp only [Option.some.injEq] at himm'
      exact .inl (himm' ▸ he)
    · exact .inr (.inr he)
  · simp [MemTable.new]
  · simp [MemTable.new]
  · intro imm himm' i f hf
    simp only [Option.some.injEq] at himm'
    subst himm'
    exact .inr fun e he d hd => h.mem_levels i f hf e he d hd
  · simp [hidle]

/-- A flush puts the immutable memtable, newer than all of level 0, into the table with the
largest number. -/
theorem flush (h : SeqOrdered m) {s : Store} {imm : MemTable} (idle : m.flushed = false)
    (full : m.store.imm = some imm) (ok : m.store.writeLevel0Table imm = .ok s) :
    SeqOrdered { m with store := s, flushed := true } := by
  obtain ⟨e₀, es, hentries, rfl⟩ := Store.writeLevel0Table_cases ok
  set t : SSTFile VLogEntryInfo :=
    ⟨m.store.fileno, e₀.key, ((e₀ :: es).getLast (List.cons_ne_nil _ _)).key, 0, e₀ :: es⟩ with ht
  have hmem : ∀ {f : SSTFile VLogEntryInfo} {i : ℕ},
      f ∈ levelAt (setLevel m.store.levels 0 (emplace t (levelAt m.store.levels 0))) i ↔
        (i = 0 ∧ f = t) ∨ f ∈ levelAt m.store.levels i := mem_levelAt_flush h.numbered rfl
  -- the memtable is not flushed yet, so everything in the levels is older
  have hnewer : ∀ i, ∀ f ∈ levelAt m.store.levels i, ∀ e ∈ t.entries, ∀ d ∈ f.entries,
      d.key.seq < e.key.seq := by
    intro i f hf e he d hd
    rcases h.imm_levels imm full i f hf with hown | hlt
    · exact absurd hown.1 (by simp [idle])
    · exact hlt e (hentries ▸ he) d hd
  refine ⟨h.numbered.flush rfl, fun e he => ?_, h.mem_imm, fun i f hf e he d hd => ?_,
    fun imm' himm' i f hf => ?_, fun _ => ?_, fun f hf g hg hlt d hd e he => ?_,
    fun f hf j hj g hg e he d hd => ?_⟩
  · refine h.below e ?_
    rcases he with he | he | ⟨i, f, hf, he⟩
    · exact .inl he
    · exact .inr (.inl he)
    · rcases hmem.mp hf with ⟨-, rfl⟩ | hf
      · exact .inr (.inl ⟨imm, full, hentries ▸ he⟩)
      · exact .inr (.inr ⟨i, f, hf, he⟩)
  · rcases hmem.mp hf with ⟨-, rfl⟩ | hf
    · exact h.mem_imm imm full e he d (hentries ▸ hd)
    · exact h.mem_levels i f hf e he d hd
  · rcases hmem.mp hf with ⟨rfl, rfl⟩ | hf
    · exact .inl ⟨rfl, rfl, rfl⟩
    · obtain rfl : imm = imm' := Option.some.inj (full.symm.trans himm')
      refine .inr fun e he d hd => hnewer i f hf e ?_ d hd
      rwa [hentries] at he
  · exact ⟨imm, full, t, hmem.mpr (.inl ⟨rfl, rfl⟩), rfl, hentries.symm⟩
  · rcases hmem.mp hf with ⟨-, hft⟩ | hf
    · -- No table has a larger number than the flushed one.
      rcases hmem.mp hg with ⟨-, hgt⟩ | hg
      · rw [hft, hgt] at hlt
        exact absurd hlt (lt_irrefl _)
      · have := h.numbered.below 0 g hg
        rw [hft] at hlt
        exact absurd hlt (by simp only [ht]; omega)
    · rcases hmem.mp hg with ⟨-, rfl⟩ | hg
      · exact hnewer 0 f hf e he d hd
      · exact h.level0 f hf g hg hlt d hd e he
  · rcases hmem.mp hg with ⟨hzero, -⟩ | hg
    · omega
    · rcases hmem.mp hf with ⟨-, rfl⟩ | hf
      · exact hnewer j g hg e he d hd
      · exact h.deeper f hf j hj g hg e he d hd

/-- Releasing the immutable memtable. -/
theorem clearImm (h : SeqOrdered m) :
    SeqOrdered { m with store := m.store.clearImm, flushed := false } where
  numbered := h.numbered
  below e he := by
    refine h.below e ?_
    rcases he with he | ⟨imm, himm, -⟩ | he
    · exact .inl he
    · simp [Store.clearImm] at himm
    · exact .inr (.inr he)
  mem_imm imm himm := by simp [Store.clearImm] at himm
  mem_levels := h.mem_levels
  imm_levels imm himm := by simp [Store.clearImm] at himm
  own hflushed := by simp at hflushed
  level0 := h.level0
  deeper := h.deeper

/-- A compaction moves keys down: out of level 0 all at once, below it between deeper
levels. -/
theorem compact (h : SeqOrdered m) {s : Store} {level : ℕ} (idle : m.flushed = false)
    (ok : m.store.compactLevel crc32c level = .ok s) : SeqOrdered { m with store := s } := by
  rcases Store.compactLevel_cases ok h.numbered with rfl | ⟨info, r, new, -, p, hcomp, hlevels, rfl⟩
  · exact h
  -- every key behind the compaction was in a level before, and not in a deeper one
  · have hbefore : ∀ {j : ℕ} {f : SSTFile VLogEntryInfo} {e : Entry VLogEntryInfo},
        f ∈ levelAt (m.store.compacted r).levels j → e ∈ f.entries → ∃ i, ∃ g ∈ levelAt m.store.levels i,
          ∃ d ∈ g.entries, d.key = e.key ∧ (i = j ∨ i = info.level ∨ i = info.level + 1) :=
      fun hf he => p.key_before hcomp (hlevels ▸ hf) he
    -- a table of level 0 is one that was there, and then level 0 was not compacted
    have hlevel0 : ∀ f ∈ levelAt (m.store.compacted r).levels 0, info.level ≠ 0 ∧ f ∈ levelAt m.store.levels 0 := by
      intro f hf
      rw [hlevels] at hf
      have hne : info.level ≠ 0 := fun hzero => p.level0_empty hcomp hzero f hf
      rcases (p.mem_level hcomp).mp hf with ⟨hzero, -⟩ | ⟨hf, -⟩
      · omega
      · exact ⟨hne, hf⟩
    refine ⟨?_, fun e he => ?_, h.mem_imm, fun i f hf e he d hd => ?_,
      fun imm himm i f hf => .inr fun e he d hd => ?_, fun hflushed => ?_,
      fun f hf g hg hlt d hd e he => ?_, fun f hf j hj g hg e he d hd => ?_⟩
    · rw [hlevels]
      exact p.compacted hcomp
    · rcases he with he | he | ⟨i, f, hf, he⟩
      · exact h.below e (.inl he)
      · exact h.below e (.inr (.inl he))
      · obtain ⟨i', g, hg, d, hd, hkey, -⟩ := hbefore hf he
        rw [← hkey]
        exact h.below d (.inr (.inr ⟨i', g, hg, hd⟩))
    · obtain ⟨i', g, hg, d', hd', hkey, -⟩ := hbefore hf hd
      rw [← hkey]
      exact h.mem_levels i' g hg e he d' hd'
    · obtain ⟨i', g, hg, d', hd', hkey, -⟩ := hbefore hf hd
      rw [← hkey]
      rcases h.imm_levels imm himm i' g hg with hown | hlt
      · exact absurd hown.1 (by simp [idle])
      · exact hlt e he d' hd'
    · exact absurd hflushed (by simp [idle])
    · exact h.level0 f (hlevel0 f hf).2 g (hlevel0 g hg).2 hlt d hd e he
    · obtain ⟨hne, hf⟩ := hlevel0 f hf
      obtain ⟨i', k, hk, d', hd', hkey, hi'⟩ := hbefore hg hd
      rw [← hkey]
      exact h.deeper f hf i' (by omega) k hk e he d' hd'

end SeqOrdered

/-- **Every step keeps the order of sequence numbers.** -/
theorem SeqOrdered.step {m m' : Machine} {a : Action} (h : SeqOrdered m)
    (taken : Machine.Step crc32c m a m') : SeqOrdered m' := by
  have hquiet : a.Quiet → SeqOrdered m' := by
    intro hq
    obtain ⟨hsame, hflushed, -, hfileno⟩ := taken.quiet hq
    exact h.quiet hsame hflushed hfileno
  cases taken with
  | write ok => exact h.write ok _
  | handOver ok => exact h.handOver ok
  | flush idle full ok => exact h.flush idle full ok
  | clearImm done => exact h.clearImm
  | compact idle ok => exact h.compact idle ok
  | _ => exact hquiet trivial

theorem seqOrdered_of_reachable {cond : Machine → Action → Prop} {m : Machine}
    (h : Machine.Reachable crc32c cond m) : SeqOrdered m :=
  h.invariant .init fun hm _ taken => hm.step taken

/-- **There are levels in every state of a run**; only a reset takes them away. -/
theorem levels_ne_of_reachable {cond : Machine → Action → Prop} {m : Machine}
    (h : Machine.Reachable crc32c cond m) : m.store.levels ≠ [] := by
  induction h with
  | new => simp [Machine.new, Store.new]
  | @step m m' a _ _ taken ih =>
      have hsame : m'.store.levels = m.store.levels → m'.store.levels ≠ [] := fun heq => heq ▸ ih
      have hquiet : a.Quiet → m'.store.levels ≠ [] := fun hq => hsame (taken.quiet hq).1.levels
      cases taken with
      | write ok => exact hsame (Store.writeImpl_fields ok).2.2.1
      | handOver ok =>
          obtain ⟨-, rfl⟩ := Store.handOver_cases ok
          exact ih
      | flush idle full ok =>
          obtain ⟨e₀, es, -, rfl⟩ := Store.writeLevel0Table_cases ok
          exact setLevel_ne_nil _ _ _
      | clearImm done => exact ih
      | compact idle ok =>
          simp only [Store.compactLevel] at ok
          split at ok
          · rw [← Outcome.ok.inj ok]
            exact ih
          · obtain ⟨r, hr, hok⟩ := Outcome.bind_eq_ok.mp ok
            obtain ⟨new, -, hlevels⟩ := doCompactionWork_cases hr
            rw [← Outcome.ok.inj hok]
            simp only [Store.compacted, hlevels, replaceFiles]
            exact setLevel_ne_nil _ _ _
      | _ => exact hquiet trivial

end Lsmkv
