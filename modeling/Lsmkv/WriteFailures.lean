import Lsmkv.Durability
import Lsmkv.FileFailures
import Lsmkv.VLogRun

/-!
# Writes that fail

`KVStore::WriteImpl` (`src/kvstore.cc`) again, on files whose system calls may fail: it changes the
value log when that is full, appends the record, and puts the location into the memtable.  Which
calls fail is an argument of the write, so a statement about every argument is one about a failure
at every point.

`PosixWritableFile` (`src/include/file.h`) is modelled with its buffer.  A file only grows, whatever
fails (`Posix.Grown`), so what could be read before can be read afterwards.  The builder of the
value log goes on being used after a failure: its status keeps it from the file, and every write
returns that status until the log is changed.

Two failures of a change are lost.  `Close` returns `Status::OK()` in any case, and the status of
`Open` is dropped: after an `Open` that failed the builder is null, and `Append` uses it.
`handled_iff` says that a write does what it should exactly when neither is the case, in every
state of every run.
-/

namespace Lsmkv.Fallible

open ByteCode Files

/-! ## Files with a buffer -/

/-- `kWritableFileBufferSize`. -/
def kWritableFileBufferSize : ℕ := 65536

/-- The files of value logs: what they hold, the buffers of those that are open, and how the system
calls to come will end.  `none` is success; a write that fails may have written a part. -/
structure Posix where
  vlogs : VLogDir
  buf : ℕ → Bytes
  answers : ℕ → Option ℕ

namespace Posix

/-- The end of the next system call. -/
def answer (p : Posix) : Option ℕ := p.answers 0

/-- A system call is made. -/
def called (p : Posix) : Posix := { p with answers := fun n => p.answers (n + 1) }

/-- Bytes reach the file. -/
def written (p : Posix) (i : ℕ) (data : Bytes) : Posix :=
  { p with vlogs := p.vlogs.write i (p.vlogs.data i ++ data) }

/-- The buffer of a file is set. -/
def setBuf (p : Posix) (i : ℕ) (data : Bytes) : Posix :=
  { p with buf := Function.update p.buf i data }

/-- `WriteUnbuffered(data, size)`: its loop over `::write`, which fails before the last byte. -/
def writeUnbuffered (i : ℕ) (data : Bytes) (p : Posix) : Bool × Posix :=
  if data.isEmpty then (true, p)
  else match p.answer with
    | none => (true, p.called.written i data)
    | some n => (false, p.called.written i (data.take (n % data.length)))

/-- `FlushBuffer`: the buffer is empty afterwards in any case. -/
def flushBuffer (i : ℕ) (p : Posix) : Bool × Posix :=
  let (ok, p) := writeUnbuffered i (p.buf i) p
  (ok, p.setBuf i [])

/-- `Append(data)`. -/
def append (i : ℕ) (data : Bytes) (p : Posix) : Bool × Posix :=
  let copySize := min data.length (kWritableFileBufferSize - (p.buf i).length)
  let p := p.setBuf i (p.buf i ++ data.take copySize)
  let rest := data.drop copySize
  if rest.isEmpty then (true, p)
  else
    let (ok, p) := flushBuffer i p
    if !ok then (false, p)
    else if rest.length < kWritableFileBufferSize then (true, p.setBuf i rest)
    else writeUnbuffered i rest p

/-- `Sync`. -/
def sync (i : ℕ) (p : Posix) : Bool × Posix :=
  let (ok, p) := flushBuffer i p
  if !ok then (false, p) else (p.answer.isNone, p.called)

/-- `Close`: the file is closed also when the buffer could not be written. -/
def close (i : ℕ) (p : Posix) : Bool × Posix :=
  let (flushed, p) := flushBuffer i p
  (flushed && p.answer.isNone, p.called)

/-- `NewPosixWritableFile` on the name of a value log. -/
def createVlog (n : ℕ) (p : Posix) : Option ℕ × Posix :=
  match p.answer with
  | some _ => (none, p.called)
  | none =>
      let (i, vlogs) := p.vlogs.create n
      (some i, { p.called with vlogs := vlogs }.setBuf i [])

/-- The file layer of value logs. -/
def layer : FileLayer Posix := ⟨createVlog, append, flushBuffer, sync, close⟩

/-! ## Files only grow -/

/-- Every file keeps its name and what it holds. -/
structure Grown (p p' : Posix) : Prop where
  inode : ∀ n i, p.vlogs.inode n = some i → p'.vlogs.inode n = some i
  data : ∀ i < p.vlogs.next, p.vlogs.data i <+: p'.vlogs.data i
  next : p.vlogs.next ≤ p'.vlogs.next

/-- No file is created. -/
structure SameNames (p p' : Posix) : Prop where
  inode : p'.vlogs.inode = p.vlogs.inode
  next : p'.vlogs.next = p.vlogs.next
  data : ∀ i, p.vlogs.data i <+: p'.vlogs.data i

variable {p p' p'' : Posix}

theorem Grown.trans (h : p.Grown p') (h' : p'.Grown p'') : p.Grown p'' where
  inode n i hi := h'.inode n i (h.inode n i hi)
  data i hi := (h.data i hi).trans (h'.data i (hi.trans_le h.next))
  next := h.next.trans h'.next

theorem SameNames.refl (p : Posix) : p.SameNames p := ⟨rfl, rfl, fun _ => List.prefix_rfl⟩

theorem SameNames.trans (h : p.SameNames p') (h' : p'.SameNames p'') : p.SameNames p'' where
  inode := h'.inode.trans h.inode
  next := h'.next.trans h.next
  data i := (h.data i).trans (h'.data i)

theorem SameNames.grown (h : p.SameNames p') : p.Grown p' where
  inode n i hi := by rwa [h.inode]
  data i _ := h.data i
  next := h.next.ge

theorem SameNames.wellFormed (h : p.SameNames p') (wf : p.vlogs.WellFormed) :
    p'.vlogs.WellFormed where
  lt_next hi := by
    rw [h.next]
    exact wf.lt_next (h.inode ▸ hi)
  injective hi hj := wf.injective (h.inode ▸ hi) (h.inode ▸ hj)

theorem sameNames_setBuf (i : ℕ) (data : Bytes) : p.SameNames (p.setBuf i data) :=
  ⟨rfl, rfl, fun _ => List.prefix_rfl⟩

theorem sameNames_called : p.SameNames p.called := ⟨rfl, rfl, fun _ => List.prefix_rfl⟩

theorem sameNames_written (i : ℕ) (data : Bytes) : p.SameNames (p.written i data) := by
  refine ⟨rfl, rfl, fun j => ?_⟩
  by_cases hj : j = i
  · subst hj
    simp [written]
  · simp [written, Dir.write, Function.update_of_ne hj]

theorem sameNames_writeUnbuffered (i : ℕ) (data : Bytes) (p : Posix) :
    p.SameNames (writeUnbuffered i data p).2 := by
  unfold writeUnbuffered
  split
  · exact .refl p
  · split
    · exact sameNames_called.trans (sameNames_written i data)
    · exact sameNames_called.trans (sameNames_written i _)

theorem sameNames_flushBuffer (i : ℕ) (p : Posix) : p.SameNames (flushBuffer i p).2 :=
  (sameNames_writeUnbuffered i (p.buf i) p).trans (sameNames_setBuf i [])

theorem sameNames_append (i : ℕ) (data : Bytes) (p : Posix) : p.SameNames (append i data p).2 := by
  let copySize := min data.length (kWritableFileBufferSize - (p.buf i).length)
  let p₁ := p.setBuf i (p.buf i ++ data.take copySize)
  have h₁ : p.SameNames p₁ := sameNames_setBuf i _
  have h₂ : p.SameNames (flushBuffer i p₁).2 := h₁.trans (sameNames_flushBuffer i p₁)
  show p.SameNames (if (data.drop copySize).isEmpty then (true, p₁)
    else if !(flushBuffer i p₁).1 then (false, (flushBuffer i p₁).2)
    else if (data.drop copySize).length < kWritableFileBufferSize then
      (true, (flushBuffer i p₁).2.setBuf i (data.drop copySize))
    else writeUnbuffered i (data.drop copySize) (flushBuffer i p₁).2).2
  split
  · exact h₁
  · split
    · exact h₂
    · split
      · exact h₂.trans (sameNames_setBuf i _)
      · exact h₂.trans (sameNames_writeUnbuffered i _ _)

theorem sameNames_close (i : ℕ) (p : Posix) : p.SameNames (close i p).2 :=
  (sameNames_flushBuffer i p).trans sameNames_called

/-- **Whatever a builder does to its file, every file keeps what it holds.** -/
theorem sameNames_of_acts {t t' : TableBuilder} {i : ℕ} (handle : t.handle = some i)
    (acts : TableBuilder.Acts layer t p t' p') : p.SameNames p' := by
  cases hstatus : t.status with
  | true =>
      exact (acts.live hstatus i handle).preserves
        (fun data q hq => hq.trans (sameNames_append i data q))
        (fun q hq => hq.trans (sameNames_flushBuffer i q)) (.refl p)
  | false => rw [(acts.stuck hstatus).1]; exact .refl p

/-! ## System calls that all end the same way -/

section Constant

variable {c : Option ℕ}

theorem constant_writeUnbuffered (same : p.answers = fun _ => c) (i : ℕ) (data : Bytes) :
    (writeUnbuffered i data p).2.answers = (fun _ => c) ∧
      (c = none → (writeUnbuffered i data p).1 = true) := by
  have hanswer : p.answer = c := congrFun same 0
  have hcalled : p.called.answers = fun _ => c := funext fun n => congrFun same (n + 1)
  unfold writeUnbuffered
  split
  · exact ⟨same, fun _ => rfl⟩
  · rw [hanswer]
    cases c with
    | none => exact ⟨hcalled, fun _ => rfl⟩
    | some n => exact ⟨hcalled, fun h => absurd h (by simp)⟩

theorem constant_flushBuffer (same : p.answers = fun _ => c) (i : ℕ) :
    (flushBuffer i p).2.answers = (fun _ => c) ∧ (c = none → (flushBuffer i p).1 = true) :=
  constant_writeUnbuffered same i (p.buf i)

theorem constant_append (same : p.answers = fun _ => c) (i : ℕ) (data : Bytes) :
    (append i data p).2.answers = (fun _ => c) ∧ (c = none → (append i data p).1 = true) := by
  let copySize := min data.length (kWritableFileBufferSize - (p.buf i).length)
  let p₁ := p.setBuf i (p.buf i ++ data.take copySize)
  have h₁ : p₁.answers = fun _ => c := same
  obtain ⟨h₂, hok⟩ := constant_flushBuffer h₁ i
  obtain ⟨h₃, hok₃⟩ := constant_writeUnbuffered h₂ i (data.drop copySize)
  have happend : append i data p = if (data.drop copySize).isEmpty then (true, p₁)
    else if !(flushBuffer i p₁).1 then (false, (flushBuffer i p₁).2)
    else if (data.drop copySize).length < kWritableFileBufferSize then
      (true, (flushBuffer i p₁).2.setBuf i (data.drop copySize))
    else writeUnbuffered i (data.drop copySize) (flushBuffer i p₁).2 := rfl
  rw [happend]
  split
  · exact ⟨h₁, fun _ => rfl⟩
  · split
    · rename_i hfail
      exact ⟨h₂, fun hc => by simp [hok hc] at hfail⟩
    · split
      · exact ⟨h₂, fun _ => rfl⟩
      · exact ⟨h₃, hok₃⟩

/-- Operations on files whose system calls all end the same way. -/
theorem constant_calls {i : ℕ} {ok : Bool} (calls : layer.Calls i p ok p')
    (same : p.answers = fun _ => c) :
    p'.answers = (fun _ => c) ∧ (c = none → ok = true) := by
  induction calls with
  | start => exact ⟨same, fun _ => rfl⟩
  | append _ data ih => exact constant_append ih.1 i data
  | flush _ ih => exact constant_flushBuffer ih.1 i

theorem constant_acts {t t' : TableBuilder} {i : ℕ} (handle : t.handle = some i)
    (acts : TableBuilder.Acts layer t p t' p') (same : p.answers = fun _ => c) :
    p'.answers = fun _ => c := by
  cases hstatus : t.status with
  | true => exact (constant_calls (acts.live hstatus i handle) same).1
  | false => rw [(acts.stuck hstatus).1]; exact same

end Constant

/-- A value log under a new number leaves the others alone. -/
theorem createVlog_cases (n : ℕ) (fresh : p.vlogs.inode n = none) :
    ((createVlog n p).1 = none ∧ p.SameNames (createVlog n p).2) ∨
      ((createVlog n p).1 = some p.vlogs.next ∧
        (createVlog n p).2.vlogs = (p.vlogs.create n).2) := by
  unfold createVlog
  split
  · exact .inl ⟨rfl, sameNames_called⟩
  · exact .inr ⟨by simp [Dir.create, fresh], rfl⟩

theorem grown_createVlog (wf : p.vlogs.WellFormed) (n : ℕ) (fresh : p.vlogs.inode n = none) :
    p.Grown (createVlog n p).2 := by
  rcases createVlog_cases n fresh with ⟨-, hsame⟩ | ⟨-, hvlogs⟩
  · exact hsame.grown
  · refine ⟨fun m i hi => ?_, fun i hi => ?_, ?_⟩
    · rw [hvlogs]
      exact (wf.grows_create fresh m i hi).1
    · rw [hvlogs, Dir.create_snd fresh]
      simp [Function.update_of_ne hi.ne]
    · rw [hvlogs, Dir.create_snd fresh]
      exact Nat.le_succ _

end Posix

/-! ## The store -/

/-- The store with the state that failures leave in its value log: the builder, and the buffers of
the files.  The field `vlog` of the underlying store is not used. -/
structure Store where
  data : Lsmkv.Store
  log : VLogBuilder
  buf : ℕ → Bytes

namespace Store

/-- The files, before the system calls that a write makes. -/
def os (s : Store) (answers : ℕ → Option ℕ) : Posix := ⟨s.data.vlogs, s.buf, answers⟩

/-- The store with the value log and the files as a write left them. -/
def withLog (s : Store) (log : VLogBuilder) (p : Posix) : Store :=
  { data := { s.data with vlogs := p.vlogs }, log := log, buf := p.buf }

section WriteImpl

variable (crc32c : Bytes → ℕ)

/-- The change of the value log in `WriteImpl`: `Close`, `NewVLogFileNumber`, `Open`.  The status
of `Close` is OK, so the branch that gives the number back is never taken; the status of `Open` is
dropped.  The answers say whether everything in `Close` succeeded, and whether `Open` did. -/
def rotateVlog (s : Store) (p : Posix) : Outcome (Bool × Bool × Store × Posix) := do
  let (closed, log, p) ← s.log.close Posix.layer crc32c p
  let vlogNo := s.data.lastVlogFileNo
  let (opened, log, p) := log.openFile Posix.layer vlogNo p
  .ok (closed, opened, { s with data := { s.data with lastVlogFileNo := vlogNo + 1 }, log := log }, p)

/-- The part of `WriteImpl` before the record is appended. -/
def makeRoom (s : Store) (valueSz : ℕ) (p : Posix) : Outcome (Bool × Bool × Store × Posix) := do
  let full ← s.log.full valueSz
  if full then s.rotateVlog crc32c p else .ok (true, true, s, p)

/-- The end of `WriteImpl`: the memtable and `LastSequence`, behind an append that succeeded. -/
def insert (s : Store) (w : Write) (value : VLogEntryInfo) (height : ℕ) : Store :=
  { s with data := { s.data with
      mem := s.data.mem.put (.ofWrite w.key s.data.lastSequence w.type) value height
      lastSequence := s.data.lastSequence + 1 } }

/-- `WriteImpl(key, val, type)`, with whether the status is OK.  `answers` says how the system
calls end. -/
def writeImpl (s : Store) (w : Write) (garbage : VLogEntryInfo) (height : ℕ)
    (answers : ℕ → Option ℕ) : Outcome (Bool × Store) := do
  let (_, _, s, p) ← s.makeRoom crc32c w.value.length (s.os answers)
  let key := InternalKey.ofWrite w.key s.data.lastSequence w.type
  let (info, ok, log, p) ← s.log.append Posix.layer crc32c key w.value p
  let s := s.withLog log p
  if ok then .ok (true, s.insert w (if w.type = .kTypeDeletion then garbage else info) height)
  else .ok (false, s)

/-- Closing the full log fails. -/
def CloseFails (s : Store) (w : Write) (answers : ℕ → Option ℕ) : Prop :=
  ∃ opened s₁ p, s.makeRoom crc32c w.value.length (s.os answers) = .ok (false, opened, s₁, p)

/-- Opening the next log fails. -/
def OpenFails (s : Store) (w : Write) (answers : ℕ → Option ℕ) : Prop :=
  ∃ closed s₁ p, s.makeRoom crc32c w.value.length (s.os answers) = .ok (closed, false, s₁, p)

/-- Appending the record fails. -/
def AppendFails (s : Store) (w : Write) (answers : ℕ → Option ℕ) : Prop :=
  ∃ closed opened s₁ p info log p', s.makeRoom crc32c w.value.length (s.os answers)
      = .ok (closed, opened, s₁, p) ∧
    s₁.log.append Posix.layer crc32c (.ofWrite w.key s₁.data.lastSequence w.type) w.value p
      = .ok (info, false, log, p')

/-- **What a write should do**: it returns; and if one of its steps fails, then with a status that
is not OK, with memtables and `LastSequence` as before, and so that everything that could be read
can be read. -/
def Handled (s : Store) (w : Write) (garbage : VLogEntryInfo) (height : ℕ)
    (answers : ℕ → Option ℕ) : Prop :=
  ∃ ok s', s.writeImpl crc32c w garbage height answers = .ok (ok, s') ∧
    (s.CloseFails crc32c w answers ∨ s.OpenFails crc32c w answers ∨ s.AppendFails crc32c w answers →
      ok = false ∧ s'.data.mem = s.data.mem ∧ s'.data.imm = s.data.imm ∧
      s'.data.lastSequence = s.data.lastSequence ∧
      ∀ key v, (s.data.getImpl crc32c key).1 = .ok v → (s'.data.getImpl crc32c key).1 = .ok v)

end WriteImpl

end Store

/-! ## What could be read can be read -/

section Read

variable {crc32c : Bytes → ℕ}

/-- A record that was read is read from the longer file. -/
theorem vlogRead_of_prefix {live : Option ℕ} {data data' : Bytes} {info : VLogEntryInfo} {v : Bytes}
    (grows : data <+: data') (h : vlogRead crc32c live data info = .ok v) :
    vlogRead crc32c live data' info = .ok v := by
  obtain ⟨rest, rfl⟩ := grows
  have hlen : (pread data info.offset (fetchSize info)).length = fetchSize info := by
    by_contra hne
    rw [vlogRead, checkRecord, if_pos hne] at h
    exact absurd h (by simp)
  have hsame : pread (data ++ rest) info.offset (fetchSize info)
      = pread data info.offset (fetchSize info) := by
    simp only [pread, readAt, List.length_take, List.length_drop] at hlen ⊢
    rw [List.drop_append, List.take_append_of_le_length (by rw [List.length_drop]; omega)]
  rw [vlogRead, hsame]
  exact h

/-- The open files of the reader exist. -/
def HandlesBelow (s : Lsmkv.Store) : Prop := ∀ h ∈ s.handles, h.2 < s.vlogs.next

/-- **A value that could be read can be read** while files only grow. -/
theorem readValue_of_grown {s s' : Lsmkv.Store} {p p' : Posix} (grown : p.Grown p')
    (vlogs : s.vlogs = p.vlogs) (vlogs' : s'.vlogs = p'.vlogs) (handles : s'.handles = s.handles)
    (live : s'.lastLivingSequence = s.lastLivingSequence) (wf : s.vlogs.WellFormed)
    (below : HandlesBelow s) {info : VLogEntryInfo} {v : Bytes}
    (h : (s.readValue crc32c info).1 = .ok v) : (s'.readValue crc32c info).1 = .ok v := by
  unfold Lsmkv.Store.readValue at h ⊢
  rw [handles, live, vlogs']
  rw [vlogs] at h wf
  cases hfind : s.handles.find? fun h => h.1 == info.fileNo with
  | some x =>
      have hlt : x.2 < p.vlogs.next := vlogs ▸ below x (List.mem_of_find?_eq_some hfind)
      simp only [hfind] at h ⊢
      exact vlogRead_of_prefix (grown.data x.2 hlt) h
  | none =>
      cases hinode : p.vlogs.inode info.fileNo with
      | none => simp [hfind, hinode] at h
      | some i =>
          simp only [hfind, hinode, grown.inode _ _ hinode] at h ⊢
          exact vlogRead_of_prefix (grown.data i (wf.lt_next hinode)) h

/-- A lookup finds its location as before, and reads it. -/
theorem getImpl_of_reads {s s' : Lsmkv.Store} (mem : s'.mem = s.mem) (imm : s'.imm = s.imm)
    (levels : s'.levels = s.levels) (sstFiles : s'.sstFiles = s.sstFiles)
    (lastSequence : s'.lastSequence = s.lastSequence)
    (reads : ∀ info v, (s.readValue crc32c info).1 = .ok v → (s'.readValue crc32c info).1 = .ok v)
    {key v : Bytes} (h : (s.getImpl crc32c key).1 = .ok v) : (s'.getImpl crc32c key).1 = .ok v := by
  have hresolve : ∀ found, (s.resolve crc32c found).1 = .ok v → (s'.resolve crc32c found).1 = .ok v := by
    intro found hfound
    cases found with
    | ok info =>
        simp only [Lsmkv.Store.resolve] at hfound ⊢
        split
        · rename_i hzero
          rwa [if_pos hzero] at hfound
        · rename_i hpos
          rw [if_neg hpos] at hfound
          exact reads info v hfound
    | fail c => exact hfound
    | fault => exact hfound
  unfold Lsmkv.Store.getImpl at h ⊢
  rw [mem, imm, levels, sstFiles, lastSequence]
  cases hmem : s.mem.get (queryKey s.lastSequence key) with
  | some found =>
      simp only [hmem] at h ⊢
      exact hresolve found h
  | none =>
      simp only [hmem] at h ⊢
      cases himm : s.imm.bind fun imm => imm.get (queryKey s.lastSequence key) with
      | some found =>
          simp only [himm] at h ⊢
          exact h
      | none =>
          simp only [himm] at h ⊢
          split
          · rename_i hempty
            rwa [if_pos hempty] at h
          · rename_i hne
            rw [if_neg hne] at h
            exact hresolve _ h

end Read

/-! ## One write -/

/-- **What a write relies on.**  The value log is open, and the numbers from the counter on are
free. -/
structure Store.Ready (s : Store) : Prop where
  isOpen : ∃ h t, s.log.IsOpen h t
  wf : s.data.vlogs.WellFormed
  fresh : ∀ n, s.data.lastVlogFileNo ≤ n → s.data.vlogs.inode n = none
  handles : HandlesBelow s.data

namespace Store

variable {crc32c : Bytes → ℕ} {s : Store}

/-- What `makeRoom` leaves for the append. -/
structure Room (s : Store) (p : Posix) (s₁ : Store) (p₁ : Posix) : Prop where
  same : s₁.data = { s.data with lastVlogFileNo := s₁.data.lastVlogFileNo }
  grown : p.Grown p₁
  wf : p₁.vlogs.WellFormed
  fresh : ∀ n, s₁.data.lastVlogFileNo ≤ n → p₁.vlogs.inode n = none

/-- `Open` under a new number. -/
theorem openFile_cases {p : Posix} (wf : p.vlogs.WellFormed) {n : ℕ} (fresh : p.vlogs.inode n = none)
    {b : VLogBuilder} (closed : b.builder = none) :
    ∃ opened b' p', b.openFile Posix.layer n p = (opened, b', p') ∧ p.Grown p' ∧
      p'.vlogs.WellFormed ∧ (∀ m ≠ n, p'.vlogs.inode m = p.vlogs.inode m) ∧
      (opened = true → ∃ i t, b'.IsOpen i t) ∧ (opened = false → b'.builder = none) := by
  have hgrown : p.Grown (Posix.createVlog n p).2 := Posix.grown_createVlog wf n fresh
  unfold VLogBuilder.openFile
  rcases hcreate : Posix.layer.createVlog n p with ⟨_ | i, p'⟩
  all_goals
    have hp' : (Posix.createVlog n p).2 = p' := congrArg Prod.snd hcreate
    have hi := congrArg Prod.fst hcreate
    rw [hp'] at hgrown
  · rcases Posix.createVlog_cases n fresh with ⟨-, hsame⟩ | ⟨hsome, -⟩
    · rw [hp'] at hsame
      exact ⟨false, _, p', rfl, hgrown, hsame.wellFormed wf, fun m _ => by rw [hsame.inode],
        fun h => absurd h (by simp), fun _ => closed⟩
    · exact absurd (hsome.symm.trans hi) (by simp)
  · rcases Posix.createVlog_cases n fresh with ⟨hnone, -⟩ | ⟨-, hvlogs⟩
    · exact absurd (hnone.symm.trans hi) (by simp)
    · rw [hp'] at hvlogs
      refine ⟨true, _, p', rfl, hgrown, hvlogs ▸ wf.create fresh, fun m hm => ?_,
        fun _ => ⟨i, .new (some i), ⟨rfl, rfl, rfl, rfl⟩⟩, fun h => absurd h (by simp)⟩
      rw [hvlogs, Dir.create_snd fresh]
      exact Function.update_of_ne hm _ _

/-- **Before the append**, the log is open, or its file could not be created and the builder is
null. -/
theorem Ready.makeRoom (h : s.Ready) (crc32c : Bytes → ℕ) (valueSz : ℕ) (answers : ℕ → Option ℕ) :
    ∃ closed opened s₁ p₁, s.makeRoom crc32c valueSz (s.os answers) = .ok (closed, opened, s₁, p₁) ∧
      s.Room (s.os answers) s₁ p₁ ∧ (opened = true → ∃ i t, s₁.log.IsOpen i t) ∧
      (opened = false → s₁.log.builder = none) := by
  obtain ⟨i, t, hopen⟩ := h.isOpen
  let p := s.os answers
  have hfull : ∃ full, s.log.full valueSz = .ok full := by
    rw [VLogBuilder.full, hopen.builder]
    exact ⟨_, rfl⟩
  obtain ⟨full, hfull⟩ := hfull
  rw [Store.makeRoom, hfull, Outcome.ok_bind]
  cases full with
  | false =>
      exact ⟨true, true, s, p, rfl, ⟨rfl, (Posix.SameNames.refl p).grown, h.wf, h.fresh⟩,
        fun _ => ⟨i, t, hopen⟩, fun hfalse => absurd hfalse (by simp)⟩
  | true =>
      obtain ⟨t₁, p₁, hclose, hacts⟩ := hopen.close_acts Posix.layer crc32c p
      let p₂ := (Posix.close i p₁).2
      have hsame : p.SameNames p₂ :=
        (Posix.sameNames_of_acts hopen.file hacts).trans (Posix.sameNames_close i p₁)
      let n := s.data.lastVlogFileNo
      have hfresh : p₂.vlogs.inode n = none := by
        rw [hsame.inode]
        exact h.fresh n le_rfl
      obtain ⟨opened, log, p₃, hopened, hgrown, hwf, hnames, htrue, hfalse⟩ :=
        openFile_cases (hsame.wellFormed h.wf) hfresh (b := ⟨0, s.log.offset, none, none⟩) rfl
      let s₁ : Store := { s with data := { s.data with lastVlogFileNo := n + 1 }, log := log }
      have hrotate : s.rotateVlog crc32c p = .ok ((!t.status || t₁.status) && (Posix.close i p₁).1,
          opened, s₁, p₃) := by
        have hopened' : VLogBuilder.openFile Posix.layer ⟨0, s.log.offset, none, none⟩
            s.data.lastVlogFileNo (Posix.layer.close i p₁).2 = (opened, log, p₃) := hopened
        simp only [Store.rotateVlog, hclose, Outcome.ok_bind, hopened']
        rfl
      refine ⟨_, opened, s₁, p₃, hrotate, ⟨rfl, hsame.grown.trans hgrown, hwf, fun m hm => ?_⟩,
        htrue, hfalse⟩
      have hlt : n < m := hm
      rw [hnames m hlt.ne', hsame.inode]
      exact h.fresh m hlt.le

/-- **The failures of a write that it handles**: the next log is opened, and when the full one
could not be closed the record is not appended. -/
def Meets (crc32c : Bytes → ℕ) (s : Store) (w : Write) (answers : ℕ → Option ℕ) : Prop :=
  ¬ s.OpenFails crc32c w answers ∧ (s.CloseFails crc32c w answers → s.AppendFails crc32c w answers)

/-- **What a write does**, by whether the log is open when the record is appended. -/
theorem Ready.writeImpl_cases (h : s.Ready) (crc32c : Bytes → ℕ) (w : Write) (garbage : VLogEntryInfo)
    (height : ℕ) (answers : ℕ → Option ℕ) :
    (s.OpenFails crc32c w answers ∧ s.writeImpl crc32c w garbage height answers = .fault) ∨
      ∃ ok s₁ s', ¬ s.OpenFails crc32c w answers ∧ (s.AppendFails crc32c w answers ↔ ok = false) ∧
        s.writeImpl crc32c w garbage height answers = .ok (ok, s') ∧ s₁.Ready ∧
        (s.os answers).Grown (s₁.os answers) ∧
        s₁.data = { s.data with
          lastVlogFileNo := s₁.data.lastVlogFileNo
          vlogs := s₁.data.vlogs } ∧
        (ok = false → s' = s₁) ∧ (ok = true → ∃ value, s' = s₁.insert w value height) := by
  obtain ⟨closed, opened, s₁, p₁, hroom, room, htrue, hfalse⟩ :=
    h.makeRoom crc32c w.value.length answers
  cases opened with
  -- the log could not be opened: `Append` goes through a null builder
  | false =>
      refine .inl ⟨⟨closed, s₁, p₁, hroom⟩, ?_⟩
      simp [Store.writeImpl, hroom, VLogBuilder.append, hfalse rfl]
  | true =>
      obtain ⟨i, t, hopen⟩ := htrue rfl
      obtain ⟨info, b', t', p', happend, hopen', -, hacts⟩ :=
        hopen.append_acts Posix.layer crc32c p₁ (.ofWrite w.key s₁.data.lastSequence w.type) w.value
      have hsame := Posix.sameNames_of_acts hopen.file hacts
      have hgrown : (s.os answers).Grown p' := room.grown.trans hsame.grown
      -- what was appended leaves the log open and the names of the directory as they were
      have hready : (s₁.withLog b' p').Ready := by
        refine ⟨⟨i, t', hopen'⟩, hsame.wellFormed room.wf, fun n hn => ?_, fun x hx => ?_⟩
        · show p'.vlogs.inode n = none
          rw [hsame.inode]
          exact room.fresh n hn
        · have hx : x ∈ s.data.handles := by
            have hhandles : s₁.data.handles = s.data.handles := by rw [room.same]
            exact hhandles ▸ hx
          exact (h.handles x hx).trans_le hgrown.next
      -- the status of the append decides whether the memtable is touched
      have hwrite : s.writeImpl crc32c w garbage height answers =
          if t'.status then .ok (true, (s₁.withLog b' p').insert w
            (if w.type = .kTypeDeletion then garbage else info) height)
          else .ok (false, s₁.withLog b' p') := by
        rw [Store.writeImpl, hroom, Outcome.ok_bind]
        show (s₁.log.append Posix.layer crc32c (.ofWrite w.key s₁.data.lastSequence w.type) w.value p₁
          >>= _) = _
        rw [happend]
        rfl
      refine .inr ⟨t'.status, s₁.withLog b' p', if t'.status then (s₁.withLog b' p').insert w
        (if w.type = .kTypeDeletion then garbage else info) height else s₁.withLog b' p',
        ?_, ?_, ?_, hready, ⟨hgrown.inode, hgrown.data, hgrown.next⟩, ?_, fun hok => ?_, fun hok => ?_⟩
      · rintro ⟨closed', s₁', p₁', hroom'⟩
        simp [hroom] at hroom'
      · constructor
        · rintro ⟨closed', opened', s₁', p₁', info', log', p'', hroom', happend'⟩
          obtain ⟨rfl, rfl, rfl, rfl⟩ : closed = closed' ∧ true = opened' ∧ s₁ = s₁' ∧ p₁ = p₁' := by
            simpa [hroom] using hroom'
          rw [happend] at happend'
          exact congrArg (fun r => r.2.1) (Outcome.ok.inj happend')
        · intro hok
          exact ⟨closed, true, s₁, p₁, info, b', p', hroom, hok ▸ happend⟩
      · rw [hwrite]
        split
        · rename_i hok
          rw [hok]
        · rename_i hok
          rw [Bool.eq_false_iff.mpr hok]
      · show { s₁.data with vlogs := p'.vlogs } = _
        rw [room.same]
        rfl
      · rw [hok]
        rfl
      · rw [hok]
        exact ⟨_, rfl⟩

/-- **A write whose status is OK** does to the memtable, the counters and the builder what the write
of `Lsmkv.Store` does, whose files do not fail. -/
theorem writeImpl_core {w : Write} {garbage : VLogEntryInfo} {height : ℕ} {answers : ℕ → Option ℕ}
    {s' : Store} (returns : s.writeImpl crc32c w garbage height answers = .ok (true, s')) (i : ℕ) :
    ∃ c i', ({ s.data with vlog := s.log.core i } : Lsmkv.Store).writeImpl crc32c w garbage height
        = .ok c ∧ c.mem = s'.data.mem ∧ c.lastSequence = s'.data.lastSequence ∧
      c.lastVlogFileNo = s'.data.lastVlogFileNo ∧ c.vlog = s'.log.core i' := by
  obtain ⟨⟨closed, opened, s₁, p₁⟩, hroom, hrest⟩ := Outcome.bind_eq_ok.mp returns
  obtain ⟨⟨info, ok, log, p₂⟩, happend, hput⟩ := Outcome.bind_eq_ok.mp hrest
  obtain ⟨full, hfull, hroom⟩ := Outcome.bind_eq_ok.mp hroom
  have hfull' : (s.log.core i).full w.value.length = .ok full := by
    rw [VLogBuilder.full_core, hfull]
  cases ok with
  | false => simp at hput
  | true =>
      obtain rfl : (s₁.withLog log p₂).insert w
          (if w.type = .kTypeDeletion then garbage else info) height = s' := by
        simpa using hput
      -- the log has room, or is closed and the next one opened
      cases full with
      | false =>
          obtain ⟨-, -, rfl, rfl⟩ : true = closed ∧ true = opened ∧ s = s₁ ∧ s.os answers = p₁ := by
            simpa using hroom
          obtain ⟨t', -, hcore⟩ := VLogBuilder.append_core happend i s.data.vlogs
          refine ⟨{ (s.insert w (if w.type = .kTypeDeletion then garbage else info) height).data with
            vlog := log.core i
            vlogs := s.data.vlogs.write i t'.file }, i, ?_, rfl, rfl, rfl, rfl⟩
          simp only [Lsmkv.Store.writeImpl, hfull', Outcome.ok_bind, Bool.false_eq_true, if_false,
            hcore]
          rfl
      | true =>
          rw [if_pos rfl] at hroom
          obtain ⟨⟨closed', log₁, p'⟩, hclose, hopen⟩ := Outcome.bind_eq_ok.mp hroom
          obtain rfl := VLogBuilder.eq_of_close hclose
          simp only [VLogBuilder.openFile] at hopen
          -- a log that could not be opened has no append that returns
          rcases hcreate : Posix.layer.createVlog s.data.lastVlogFileNo p' with ⟨_ | j, p''⟩
          · simp only [hcreate, Outcome.ok.injEq, Prod.mk.injEq] at hopen
            obtain ⟨-, -, rfl, -⟩ := hopen
            simp [VLogBuilder.append] at happend
          · simp only [hcreate, Outcome.ok.injEq, Prod.mk.injEq] at hopen
            obtain ⟨-, -, rfl, rfl⟩ := hopen
            let c : Lsmkv.Store := { s.data with vlog := s.log.core i }
            let inode := (c.rotateVlog crc32c).vlog.inode
            obtain ⟨t', -, hcore⟩ := VLogBuilder.append_core happend inode (c.rotateVlog crc32c).vlogs
            refine ⟨{ (s.insert w (if w.type = .kTypeDeletion then garbage else info) height).data with
              lastVlogFileNo := s.data.lastVlogFileNo + 1
              vlog := log.core inode
              vlogs := (c.rotateVlog crc32c).vlogs.write inode t'.file }, inode, ?_, rfl, rfl, rfl, rfl⟩
            simp only [Lsmkv.Store.writeImpl, hfull', Outcome.ok_bind, if_true]
            show ((c.rotateVlog crc32c).vlog.append crc32c (c.rotateVlog crc32c).vlogs
              (.ofWrite w.key s.data.lastSequence w.type) w.value >>= _) = _
            rw [show (c.rotateVlog crc32c).vlog.append crc32c (c.rotateVlog crc32c).vlogs
              (.ofWrite w.key s.data.lastSequence w.type) w.value = _ from hcore]
            rfl

/-- A lookup finds in the store what it found before an append that failed. -/
theorem Ready.getImpl_kept (h : s.Ready) {answers : ℕ → Option ℕ} {s₁ : Store}
    (grown : (s.os answers).Grown (s₁.os answers))
    (same : s₁.data = { s.data with
      lastVlogFileNo := s₁.data.lastVlogFileNo
      vlogs := s₁.data.vlogs }) {key v : Bytes} (found : (s.data.getImpl crc32c key).1 = .ok v) :
    (s₁.data.getImpl crc32c key).1 = .ok v := by
  refine getImpl_of_reads ?_ ?_ ?_ ?_ ?_ (fun info v hread => ?_) found
  · rw [same]
  · rw [same]
  · rw [same]
  · rw [same]
  · rw [same]
  · refine readValue_of_grown grown rfl rfl ?_ ?_ h.wf h.handles hread
    · rw [same]
    · rw [same]

theorem Ready.handled_iff (h : s.Ready) (crc32c : Bytes → ℕ) (w : Write) (garbage : VLogEntryInfo)
    (height : ℕ) (answers : ℕ → Option ℕ) :
    s.Handled crc32c w garbage height answers ↔ s.Meets crc32c w answers := by
  rcases h.writeImpl_cases crc32c w garbage height answers with
    ⟨hopen, hfault⟩ | ⟨ok, s₁, s', hopen, happend, hwrite, -, hgrown, hsame, hfail, -⟩
  · constructor
    · rintro ⟨ok, s', hok, -⟩
      simp [hfault] at hok
    · exact fun hmeets => absurd hopen hmeets.1
  · constructor
    · rintro ⟨ok', s'', hwrite', hhandled⟩
      obtain ⟨rfl, rfl⟩ : ok = ok' ∧ s' = s'' := by simpa [hwrite] using hwrite'
      exact ⟨hopen, fun hclose => happend.mpr (hhandled (.inl hclose)).1⟩
    · rintro ⟨-, hmeets⟩
      refine ⟨ok, s', hwrite, fun hfails => ?_⟩
      have hok : ok = false := by
        rcases hfails with hclose | hopen' | hlast
        · exact happend.mp (hmeets hclose)
        · exact absurd hopen' hopen
        · exact happend.mp hlast
      rw [hfail hok]
      refine ⟨hok, ?_, ?_, ?_, fun key v hfound => h.getImpl_kept hgrown hsame hfound⟩
      · rw [hsame]
      · rw [hsame]
      · rw [hsame]

end Store

/-! ## Runs -/

/-- A run of the store, with the state that failures leave. -/
structure Machine where
  store : Store
  flushed : Bool
  history : List Write

namespace Machine

/-- The machine without that state. -/
def base (m : Machine) : Lsmkv.Machine := ⟨m.store.data, m.flushed, m.history⟩

/-- A store that was opened, with value log 0. -/
def new : Machine where
  store := ⟨.new, (VLogBuilder.new.openFile Posix.layer 0 ⟨Dir.empty, fun _ => [], fun _ => none⟩).2.1, fun _ => []⟩
  flushed := false
  history := []

/-- The steps: writes with the ends of their system calls, and the steps of readers and of the
background thread. -/
inductive Action
  | write (w : Write) (garbage : VLogEntryInfo) (height : ℕ) (answers : ℕ → Option ℕ)
  | other (a : Lsmkv.Action)

/-- One step of a run.  A write that uses a null builder is none: the run ends there.  The inodes
of files are not used again. -/
inductive Step (crc32c : Bytes → ℕ) : Machine → Action → Machine → Prop
  | write {m : Machine} {w : Write} {garbage : VLogEntryInfo} {height : ℕ}
      {answers : ℕ → Option ℕ} {ok : Bool} {s : Store}
      (returns : m.store.writeImpl crc32c w garbage height answers = .ok (ok, s)) :
      Step crc32c m (.write w garbage height answers)
        ⟨s, m.flushed, if ok then m.history ++ [w] else m.history⟩
  | other {m : Machine} {a : Lsmkv.Action} {m' : Lsmkv.Machine}
      (notWrite : ∀ w garbage height, a ≠ .write w garbage height)
      (taken : Lsmkv.Machine.Step crc32c m.base a m')
      (next : m.store.data.vlogs.next ≤ m'.store.vlogs.next) :
      Step crc32c m (.other a) ⟨{ m.store with data := m'.store }, m'.flushed, m'.history⟩

/-- The condition on the writes of a run. -/
def Meets (crc32c : Bytes → ℕ) (m : Machine) : Action → Prop
  | .write w _ _ answers => m.store.Meets crc32c w answers
  | .other _ => True

/-- **The machines that a run can reach** when its writes meet the condition. -/
inductive Reachable (crc32c : Bytes → ℕ) : Machine → Prop
  | new : Reachable crc32c .new
  | step {m m' : Machine} {a : Action} (reached : Reachable crc32c m) (meets : m.Meets crc32c a)
      (taken : Step crc32c m a m') : Reachable crc32c m'

variable {crc32c : Bytes → ℕ} {m m' : Machine}

/-- The invariant of runs. -/
structure Sound (m : Machine) : Prop where
  ready : m.store.Ready
  ordered : SeqOrdered m.base

theorem sound_new : Sound .new where
  ready := by
    refine ⟨⟨0, .new (some 0), ⟨rfl, rfl, rfl, rfl⟩⟩, ?_, fun n hn => ?_, fun x hx => ?_⟩
    · exact Dir.wellFormed_empty.create rfl
    · show ((Dir.empty : VLogDir).create 0).2.inode n = none
      rw [Dir.create_snd rfl]
      exact Function.update_of_ne (Nat.ne_of_gt hn) _ _
    · exact absurd hx List.not_mem_nil
  ordered := SeqOrdered.init

/-- A write that returns. -/
theorem Sound.write (h : Sound m) {w : Write} {garbage : VLogEntryInfo} {height : ℕ}
    {answers : ℕ → Option ℕ} {ok : Bool} {s : Store}
    (returns : m.store.writeImpl crc32c w garbage height answers = .ok (ok, s)) (history : List Write) :
    Sound ⟨s, m.flushed, history⟩ := by
  rcases h.ready.writeImpl_cases crc32c w garbage height answers with
    ⟨-, hfault⟩ | ⟨ok', s₁, s', -, -, hwrite, hready, -, hsame, hfail, hput⟩
  · simp [hfault] at returns
  · obtain ⟨rfl, rfl⟩ : ok' = ok ∧ s' = s := by simpa [hwrite] using returns
    have hquiet : SeqOrdered ⟨s₁.data, m.flushed, history⟩ := by
      rw [hsame]
      exact h.ordered.quiet ⟨rfl, rfl, rfl, rfl, le_rfl, le_rfl⟩ rfl fun _ => rfl
    cases ok' with
    | false =>
        rw [hfail rfl]
        exact ⟨hready, hquiet⟩
    | true =>
        obtain ⟨value, rfl⟩ := hput rfl
        exact ⟨⟨hready.isOpen, hready.wf, hready.fresh, hready.handles⟩,
          hquiet.put (s := (s₁.insert w value height).data) rfl rfl rfl rfl rfl history⟩

/-- A value that is read opens files that exist. -/
theorem handlesBelow_readValue {s : Lsmkv.Store} (wf : s.vlogs.WellFormed) (below : HandlesBelow s)
    (info : VLogEntryInfo) : HandlesBelow (s.readValue crc32c info).2 := by
  unfold Lsmkv.Store.readValue
  split
  · rename_i n i hfind
    intro x hx
    rcases mem_lruTouch hx with rfl | hx
    · exact below (n, i) (List.mem_of_find?_eq_some hfind)
    · exact below x hx
  · split
    · exact below
    · rename_i i hinode
      intro x hx
      rcases mem_lruPut hx with rfl | hx
      · exact wf.lt_next hinode
      · exact below x hx

/-- A deletion task removes names. -/
theorem runTask_keeps {s : Lsmkv.Store} (wf : s.vlogs.WellFormed)
    (fresh : ∀ n, s.lastVlogFileNo ≤ n → s.vlogs.inode n = none) (i : ℕ) :
    (s.runTask i).vlogs.WellFormed ∧
      (∀ n, (s.runTask i).lastVlogFileNo ≤ n → (s.runTask i).vlogs.inode n = none) ∧
      (s.runTask i).handles = s.handles := by
  unfold Lsmkv.Store.runTask
  split
  · exact ⟨wf, fresh, rfl⟩
  · rename_i task htask
    obtain ⟨hwf, -, hinode⟩ := Lsmkv.Store.unlinkList_spec wf task.2
    refine ⟨hwf, fun n hn => ?_, rfl⟩
    show (task.2.foldl Dir.unlink s.vlogs).inode n = none
    rw [hinode, fresh n hn, ite_self]

/-- The steps beside the writes take fresh numbers and delete names. -/
theorem Sound.other (h : Sound m) {a : Lsmkv.Action} {m' : Lsmkv.Machine}
    (notWrite : ∀ w garbage height, a ≠ .write w garbage height)
    (taken : Lsmkv.Machine.Step crc32c m.base a m')
    (next : m.store.data.vlogs.next ≤ m'.store.vlogs.next) :
    Sound ⟨{ m.store with data := m'.store }, m'.flushed, m'.history⟩ := by
  obtain ⟨⟨isOpen, wf, fresh, handles⟩, ordered⟩ := h
  have hordered : SeqOrdered m' := ordered.step taken
  refine ⟨?_, hordered⟩
  cases taken with
  | write ok => exact absurd rfl (notWrite _ _ _)
  -- a read may open logs, whose handles name files that exist
  | @read info =>
      have hbelow : HandlesBelow (m.store.data.readValue crc32c info).2 :=
        handlesBelow_readValue wf handles info
      obtain ⟨opened, hs⟩ := m.store.data.readValue_handles crc32c info
      refine ⟨isOpen, ?_, ?_, hbelow⟩
      · show ((m.store.data.readValue crc32c info).2).vlogs.WellFormed
        rw [hs]
        exact wf
      · show ∀ n, ((m.store.data.readValue crc32c info).2).lastVlogFileNo ≤ n →
          ((m.store.data.readValue crc32c info).2).vlogs.inode n = none
        rw [hs]
        exact fresh
  | handOver ok =>
      rw [(Lsmkv.Store.handOver_cases ok).2]
      exact ⟨isOpen, wf, fresh, handles⟩
  | flush idle full ok =>
      obtain ⟨e₀, es, -, rfl⟩ := Lsmkv.Store.writeLevel0Table_cases ok
      exact ⟨isOpen, wf, fresh, handles⟩
  | flushFail => exact ⟨isOpen, wf, fresh, handles⟩
  | clearImm => exact ⟨isOpen, wf, fresh, handles⟩
  | compact idle ok =>
      rcases Lsmkv.Store.compactLevel_cases ok ordered.numbered with
        rfl | ⟨info, r, new, -, p, hcomp, -, rfl⟩
      · exact ⟨isOpen, wf, fresh, handles⟩
      -- a compaction takes numbers and files from the counters on
      · have hbase := (hcomp.owners p.old_ne (.init wf fresh)).1
        exact ⟨isOpen, hbase.wf, hbase.fresh, fun x hx => (handles x hx).trans_le next⟩
  | compactFail idle left =>
      refine ⟨isOpen, left.wellFormed wf, left.inode_none, fun x hx => ?_⟩
      refine (handles x ?_).trans_le next
      have hsame := congrArg Lsmkv.Store.handles left.same
      exact hsame ▸ hx
  | expireAt ok =>
      obtain ⟨live, rfl, -⟩ := Lsmkv.Store.expireAt_cases ok
      exact ⟨isOpen, wf, fresh, handles⟩
  | @runTask i =>
      obtain ⟨hwf, hfresh, hhandles⟩ := runTask_keeps wf fresh i
      exact ⟨isOpen, hwf, hfresh, fun x hx => (handles x (hhandles ▸ hx)).trans_le next⟩

theorem Reachable.sound (h : Reachable crc32c m) : Sound m := by
  induction h with
  | new => exact sound_new
  | step _ _ taken ih =>
      cases taken with
      | write returns => exact ih.write returns _
      | other notWrite taken next => exact ih.other notWrite taken next

/-- **The writes that handle the failures of their steps**, in every state of every run: those in
which the next value log is opened, and in which nothing is appended when the full log could not be
closed.  A run in which every write meets the condition never uses a log builder that is not open,
and in all of its states every later write returns. -/
theorem write_handled_iff (reached : Reachable crc32c m) (w : Write) (garbage : VLogEntryInfo)
    (height : ℕ) (answers : ℕ → Option ℕ) :
    m.store.Handled crc32c w garbage height answers ↔ m.store.Meets crc32c w answers :=
  reached.sound.ready.handled_iff crc32c w garbage height answers

theorem isOpen_new : new.store.log.IsOpen 0 (.new (some 0)) := ⟨rfl, rfl, rfl, rfl⟩

theorem full_new (valueSz : ℕ) : new.store.log.full valueSz = .ok false := by
  have hsize : (TableBuilder.new (some 0)).approximateFileSize < kMaxVLogSize / 2 := by
    simp only [TableBuilder.new, Lsmkv.TableBuilder.new, Lsmkv.TableBuilder.approximateFileSize,
      FilterBlockBuilder.new, List.length_replicate, List.length_nil]
    decide
  have hless : ¬ kMaxVLogSize ≤ (TableBuilder.new (some 0)).approximateFileSize := by omega
  rw [VLogBuilder.full, isOpen_new.builder]
  simp [hless, hsize.not_gt]

theorem makeRoom_new (crc32c : Bytes → ℕ) (valueSz : ℕ) (p : Posix) :
    new.store.makeRoom crc32c valueSz p = .ok (true, true, new.store, p) := by
  rw [Store.makeRoom, full_new]
  rfl

/-- A first write, none of whose system calls succeeds. -/
theorem write_handled_first :
    Machine.new.store.Handled crc32cCastagnoli ⟨[1], .kTypeValue, [9]⟩ .zero 1 (fun _ => some 0) := by
  refine (write_handled_iff .new _ _ _ _).mpr ⟨?_, ?_⟩
  · rintro ⟨closed, s₁, p, h⟩
    simp [makeRoom_new] at h
  · rintro ⟨opened, s₁, p, h⟩
    simp [makeRoom_new] at h

/-- A full log that is changed when no system call succeeds. -/
theorem openFails_of_constant {s : Store} {h : ℕ} {t : TableBuilder} (isOpen : s.log.IsOpen h t)
    {w : Write} (full : s.log.full w.value.length = .ok true) (n : ℕ) :
    s.OpenFails crc32c w (fun _ => some n) := by
  obtain ⟨t₁, p₁, hclose, hacts⟩ := isOpen.close_acts Posix.layer crc32c (s.os fun _ => some n)
  have h₁ : p₁.answers = fun _ => some n := Posix.constant_acts isOpen.file hacts rfl
  have h₂ : (Posix.layer.close h p₁).2.answers = fun _ => some n :=
    funext fun k => congrFun (Posix.constant_flushBuffer h₁ h).1 (k + 1)
  have hcreate : Posix.layer.createVlog s.data.lastVlogFileNo (Posix.layer.close h p₁).2
      = (none, (Posix.layer.close h p₁).2.called) := by
    show Posix.createVlog s.data.lastVlogFileNo (Posix.layer.close h p₁).2 = _
    rw [Posix.createVlog, show (Posix.layer.close h p₁).2.answer = some n from congrFun h₂ 0]
  refine ⟨(!t.status || t₁.status) && (Posix.layer.close h p₁).1,
    { s with
      data := { s.data with lastVlogFileNo := s.data.lastVlogFileNo + 1 }
      log := ⟨s.data.lastVlogFileNo, s.log.offset, none, none⟩ },
    (Posix.layer.close h p₁).2.called, ?_⟩
  rw [Store.makeRoom, full, Outcome.ok_bind, if_pos rfl]
  simp only [Store.rotateVlog, hclose, Outcome.ok_bind, VLogBuilder.openFile, hcreate]

/-- A first write of a value as long as a log, none of whose system calls fails. -/
theorem write_first_full (w : Write) (type : w.type = .kTypeValue)
    (long : kMaxVLogSize ≤ w.value.length) (fits : w.key.length + w.value.length < 2 ^ 31) :
    ∃ s h t, new.store.writeImpl crc32c w .zero 1 (fun _ => none) = .ok (true, s) ∧
      s.log.IsOpen h t ∧ ∀ n, s.log.full n = .ok true := by
  let key : InternalKey := .ofWrite w.key new.store.data.lastSequence w.type
  obtain ⟨info, log, t, p, happend, hopen, -, hacts⟩ :=
    isOpen_new.append_acts Posix.layer crc32c (new.store.os fun _ => none) key w.value
  have hok : t.status = true := (Posix.constant_calls (hacts.live rfl 0 rfl) rfl).2 rfl
  rw [hok] at happend
  refine ⟨(new.store.withLog log p).insert w info 1, 0, t, ?_, hopen, fun n => ?_⟩
  · rw [Store.writeImpl, makeRoom_new, Outcome.ok_bind]
    show (new.store.log.append Posix.layer crc32c key w.value _ >>= _) = _
    rw [happend]
    simp [type]
  · -- The log is as long as the record.
    obtain ⟨t', ht', hcore⟩ := VLogBuilder.append_core happend 0 new.store.data.vlogs
    obtain rfl : t = t' := Option.some.inj (hopen.builder.symm.trans ht')
    have hempty : (new.store.log.core 0).IsOpen new.store.data.vlogs .new := ⟨rfl, rfl, rfl, rfl, rfl⟩
    obtain ⟨info', b', d', t₁, happend', hopen', -, -, -, -, -, hrecorded⟩ :=
      hempty.append crc32c key w.value
    rw [hcore] at happend'
    simp only [Outcome.ok.injEq, Prod.mk.injEq] at happend'
    obtain ⟨rfl, rfl, rfl⟩ := happend'
    have hsize : recordLength key w.value = w.key.length + w.value.length + 16 := rfl
    obtain ⟨i, pre, hi, -, hrecord⟩ := (hrecorded (by
      rw [hsize, kBlockTrailerSize]
      omega)).record
    obtain rfl : i = 0 := Nat.lt_one_iff.mp (sound_new.ready.wf.lt_next hi)
    have hcore' : t.toTableBuilder = t₁ := by
      have hbuilder := hopen'.builder
      rw [VLogBuilder.core, hopen.builder] at hbuilder
      exact Option.some.inj hbuilder
    have hlength : kMaxVLogSize ≤ t.offset := by
      have hfile := hrecord.length_le
      rw [List.length_append, length_recordBytes, hsize] at hfile
      rw [hcore', hopen'.offset, ← hopen'.data]
      exact le_trans (by omega) hfile
    have hreached : kMaxVLogSize ≤ t.approximateFileSize := by
      rw [Lsmkv.TableBuilder.approximateFileSize]
      omega
    show log.full n = .ok true
    rw [VLogBuilder.full, hopen.builder]
    simp [hreached]

/-- A full log whose successor cannot be opened. -/
theorem exists_null_builder (crc32c : Bytes → ℕ) (w : Write) (type : w.type = .kTypeValue)
    (long : kMaxVLogSize ≤ w.value.length) (fits : w.key.length + w.value.length < 2 ^ 31)
    (w' : Write) :
    ∃ s, Reachable crc32c ⟨s, false, [w]⟩ ∧ ¬ s.Handled crc32c w' .zero 1 (fun _ => some 0) ∧
      s.writeImpl crc32c w' .zero 1 (fun _ => some 0) = .fault := by
  obtain ⟨s, h, t, (hwrite : Store.writeImpl crc32c _ w _ _ _ = _), hopen, hfull⟩ :=
    write_first_full w type long fits
  have hreached : Reachable crc32c ⟨s, false, [w]⟩ := by
    refine .step .new (a := .write w .zero 1 fun _ => none) ⟨?_, ?_⟩ (.write hwrite)
    · rintro ⟨closed, s₁, p, h⟩
      simp [makeRoom_new] at h
    · rintro ⟨opened, s₁, p, h⟩
      simp [makeRoom_new] at h
  have hfails : s.OpenFails crc32c w' (fun _ => some 0) := openFails_of_constant hopen (hfull _) 0
  refine ⟨s, hreached, fun hhandled => ?_, ?_⟩
  · exact ((hreached.sound.ready.handled_iff _ _ _ _ _).mp hhandled).1 hfails
  · rcases hreached.sound.ready.writeImpl_cases crc32c w' .zero 1 (fun _ => some 0) with
      ⟨-, hfault⟩ | ⟨_, _, _, hnot, -⟩
    · exact hfault
    · exact absurd hfails hnot

/-- **A write that uses a null builder**: the log is full, and its successor cannot be opened. -/
theorem write_null_builder :
    ∃ s w, Reachable crc32cCastagnoli ⟨s, false, [w]⟩ ∧
      ¬ s.Handled crc32cCastagnoli ⟨[2], .kTypeValue, [9]⟩ .zero 1 (fun _ => some 0) ∧
      s.writeImpl crc32cCastagnoli ⟨[2], .kTypeValue, [9]⟩ .zero 1 (fun _ => some 0) = .fault := by
  obtain ⟨value, hlength⟩ : ∃ value : Bytes, value.length = kMaxVLogSize :=
    ⟨List.replicate kMaxVLogSize 0, List.length_replicate⟩
  obtain ⟨s, hs⟩ := exists_null_builder crc32cCastagnoli ⟨[1], .kTypeValue, value⟩ rfl hlength.ge
    (by simp only [hlength]; decide) ⟨[2], .kTypeValue, [9]⟩
  exact ⟨s, _, hs⟩

end Machine

end Lsmkv.Fallible
