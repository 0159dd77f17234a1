import Lsmkv.Lib.Sums
import Lsmkv.LevelGet

/-!
# Batch reads and what they answer

`ReadBatch` (`src/include/reader.h`) reads a single table with `ReadOne`, and several with
`ReadAsyncBatch`: a coroutine `Async_ReadOne` for each table asks for the footer, the filter, the
index and a block in turn, and is suspended until the ring has completed its read.  The completions
come in any order, and `process_completions` resumes whatever is there.

A coroutine shares nothing with the others but the counter `active_tasks`, so what it comes to does
not depend on the order (`Leads`); the loop ends because every completion uses up one of the four
reads of a coroutine, and the answers are looked through in the order of the tables
(`readBatch_returns`).  `BatchRead` has the same loop with failing reads and with other callers.
-/

namespace Lsmkv

open ByteCode LevelCache

namespace AsyncBatch

/-! ## The coroutine -/

/-- A table as a reader sees it: `file_size_`, and the file under its number if there is one. -/
structure Table where
  fileSize : ℕ
  file : Option Bytes

/-- `buffer.resize(n)`. -/
def resize (buffer : Bytes) (n : ℕ) : Bytes := buffer.take n ++ List.replicate (n - buffer.length) 0

/-- What a suspended `Async_ReadOne` has asked for. -/
inductive Awaits
  | footer
  | filter (footer : Footer)
  | index
  | block

/-- A suspended `Async_ReadOne`: the read that it has submitted fills its buffer from the
offset. -/
structure Suspended where
  awaits : Awaits
  buffer : Bytes
  offset : ℕ

/-- The buffer when the read is completed.  The length of a read has 32 bits; a read that ends
early leaves the rest of the buffer as it was. -/
def Suspended.filled (s : Suspended) (file : Bytes) : Bytes :=
  let read := readAt file s.offset (s.buffer.length % 2 ^ 32)
  read ++ s.buffer.drop read.length

/-- From one suspension to the next, or to the result.  A success comes with `info`, which is zero
for a tombstone; an assertion on the size of a key is a fault. -/
def Suspended.resume (key : Bytes) (s : Suspended) (buffer : Bytes) : Outcome (Suspended ⊕ VLogEntryInfo) :=
  match s.awaits with
  | .footer => do
      let footer ← Footer.decode buffer
      .ok (.inl ⟨.filter footer, resize buffer footer.metaindexHandle.size,
        footer.metaindexHandle.offset⟩)
  | .filter footer => do
      let internalKey ← Outcome.ofOption (InternalKey.decode key)
      if keyMayMatch internalKey.userKey buffer then
        .ok (.inl ⟨.index, resize buffer footer.indexHandle.size, footer.indexHandle.offset⟩)
      else .fail .kNotFound
  | .index => do
      let internalKey ← Outcome.ofOption (InternalKey.decode key)
      let info ← filterInIndex buffer internalKey
      .ok (.inl ⟨.block, resize buffer info.size, info.offset⟩)
  | .block => do
      let internalKey ← Outcome.ofOption (InternalKey.decode key)
      let info ← findInBlock buffer internalKey .zero
      .ok (.inr info)

/-- A task of the batch: suspended, with the file that it has opened, or done. -/
inductive Task
  | suspended (file : Bytes) (s : Suspended)
  | done (answer : Answer)

/-- `Async_ReadOne` up to its first suspension. -/
def launch (t : Table) : Task :=
  match t.file with
  | none => .done (.error .kIOError)
  | some file => .suspended file ⟨.footer, resize [] Footer.kEncodedLength,
      (2 ^ 64 + t.fileSize - Footer.kEncodedLength) % 2 ^ 64⟩

/-- The task behind a resumption: `return_value` keeps the status, and the location of a
success. -/
def Task.resumed (file : Bytes) : Outcome (Suspended ⊕ VLogEntryInfo) → Outcome Task
  | .ok (.inl s) => .ok (.suspended file s)
  | .ok (.inr info) => .ok (.done (.ok info))
  | .fail c => .ok (.done (.error c))
  | .fault => .fault

/-! ## The batch -/

/-- The state of `ReadAsyncBatch`: `active_tasks`, and the tasks in the order of the tables. -/
structure Batch where
  active : ℕ
  tasks : List Task

/-- A task that returns destroys its guard twice, by hand and at the end of its scope. -/
def settle (active : ℕ) : Task → ℕ
  | .suspended _ _ => active
  | .done _ => (active + 2 * (2 ^ 32 - 1)) % 2 ^ 32

/-- The loop that calls `Async_ReadOne`, each of which makes a guard. -/
def Batch.launchAll (b : Batch) : List Table → Batch
  | [] => b
  | t :: tables =>
      Batch.launchAll ⟨settle ((b.active + 1) % 2 ^ 32) (launch t), b.tasks ++ [launch t]⟩ tables

/-- `ReadAsyncBatch` up to its loop, with no other caller. -/
def Batch.start (tables : List Table) : Batch := Batch.launchAll ⟨tables.length % 2 ^ 32, []⟩ tables

/-- A completed read resumes its task; `none` if the task has no read. -/
def Batch.resume (key : Bytes) (b : Batch) (k : ℕ) : Option (Outcome Batch) :=
  match b.tasks[k]? with
  | some (.suspended file s) => some do
      let task ← Task.resumed file (s.resume key (s.filled file))
      .ok ⟨settle b.active task, b.tasks.set k task⟩
  | _ => none

/-- `process_completions_w_call_back` over the completions that it finds, in their order. -/
def Batch.processCompletions (key : Bytes) (b : Batch) : List ℕ → Option (Outcome Batch)
  | [] => some (.ok b)
  | k :: order =>
      match b.resume key k with
      | some (.ok b') => b'.processCompletions key order
      | r => r

/-- The loop over the finished tasks, with its assertion. -/
def collect : List Task → Outcome VLogEntryInfo
  | [] => .fail .kNotFound
  | .suspended _ _ :: _ => .fault
  | .done (.ok info) :: _ => .ok info
  | .done (.error c) :: tasks => if c ≠ .kNotFound then .fail c else collect tasks

/-- **The loop of `ReadAsyncBatch` returns, whatever the order in which the reads complete.**  While
`active_tasks` is positive some read is under way; a call of `process_completions` takes one or more
completions, and whichever they are, no assertion fails and the loop goes on to return. -/
inductive Returns (key : Bytes) (r : Outcome VLogEntryInfo) : Batch → Prop
  | ends {b : Batch} (zero : b.active = 0) (collected : collect b.tasks = r) : Returns key r b
  | round {b : Batch} (busy : b.active ≠ 0) (ready : ∃ k, (b.resume key k).isSome)
      (passes : ∀ order o, b.processCompletions key order = some o → o ≠ .fault)
      (goesOn : ∀ order b', order ≠ [] → b.processCompletions key order = some (.ok b') →
        Returns key r b') : Returns key r b

/-- `ReadOne` with the opening of the file, into a location that is zero. -/
def Table.readOne (findByModel : Bytes → InternalKey → Outcome (ℕ × ℕ)) (key : Bytes) (t : Table) :
    Outcome VLogEntryInfo :=
  match t.file with
  | none => .fail .kIOError
  | some file => Lsmkv.readOne findByModel file t.fileSize key .zero

/-- **`ReadBatch` returns**, for a single table what `ReadOne` does.  The executor needs a ring. -/
inductive ReadBatchReturns (queueInit : ℕ → Bool)
    (findByModel : Bytes → InternalKey → Outcome (ℕ × ℕ)) (key : Bytes) (r : Outcome VLogEntryInfo) :
    List Table → Prop
  | one {t : Table} (read : t.readOne findByModel key = r) :
      ReadBatchReturns queueInit findByModel key r [t]
  | many {tables : List Table} (several : tables.length ≠ 1) (ring : queueInit tables.length = true)
      (loop : Returns key r (.start tables)) : ReadBatchReturns queueInit findByModel key r tables

/-- **The tables one by one**: the first result that is not `NotFound`. -/
def firstFound : List (Outcome VLogEntryInfo) → Outcome VLogEntryInfo
  | [] => .fail .kNotFound
  | .fail .kNotFound :: rs => firstFound rs
  | r :: _ => r

/-- **A well-formed table**: the file that `TableBuilder` writes for some entries in order, all below
the query.  Lengths in a ring have 32 bits. -/
structure Table.Holds (crc32c : Bytes → ℕ) (t : Table) (q : ℕ) (es : List (Entry Bytes)) : Prop where
  nonempty : es ≠ []
  sorted : StrictlySorted es
  values : ∀ e ∈ es, e.key.type = .kTypeValue → e.value.length = 16
  fits : TableFits crc32c es
  newer : ∀ e ∈ es, e.key.seq < q
  small : (tableFile crc32c es).length < 2 ^ 32
  file : t.file = some (tableFile crc32c es)
  fileSize : t.fileSize = (tableFile crc32c es).length

/-! ## One coroutine -/

variable {crc32c : Bytes → ℕ} {key file : Bytes}

theorem length_resize (buffer : Bytes) (n : ℕ) : (resize buffer n).length = n := by
  rw [resize, List.length_append, List.length_take, List.length_replicate]
  omega

/-- A read that fills the buffer. -/
theorem filled_resize {buffer raw : Bytes} {awaits : Awaits} {offset n : ℕ}
    (read : readAt file offset n = raw) (whole : raw.length = n) (small : n < 2 ^ 32) :
    Suspended.filled ⟨awaits, resize buffer n, offset⟩ file = raw := by
  have hrest : (resize buffer n).drop raw.length = [] :=
    List.drop_eq_nil_of_le (by rw [length_resize, whole])
  simp only [Suspended.filled, length_resize, Nat.mod_eq_of_lt small, read, hrest, List.append_nil]

/-- The reads that a suspended coroutine has to come. -/
def Suspended.left (s : Suspended) : ℕ :=
  match s.awaits with
  | .footer => 4
  | .filter _ => 3
  | .index => 2
  | .block => 1

theorem Suspended.left_pos (s : Suspended) : 0 < s.left := by
  unfold Suspended.left
  split <;> decide

/-- A resumption uses up a read. -/
theorem Suspended.left_resume {s s' : Suspended} {buffer : Bytes}
    (h : s.resume key buffer = .ok (.inl s')) : s'.left + 1 = s.left := by
  obtain ⟨awaits, buf, offset⟩ := s
  cases awaits with
  | footer =>
      obtain ⟨footer, -, hok⟩ := Outcome.bind_eq_ok.mp h
      rw [← Sum.inl.inj (Outcome.ok.inj hok)]
      rfl
  | filter footer =>
      obtain ⟨ik, -, hok⟩ := Outcome.bind_eq_ok.mp h
      split at hok
      · rw [← Sum.inl.inj (Outcome.ok.inj hok)]
        rfl
      · cases hok
  | index =>
      obtain ⟨ik, -, hok⟩ := Outcome.bind_eq_ok.mp h
      obtain ⟨info, -, hok⟩ := Outcome.bind_eq_ok.mp hok
      rw [← Sum.inl.inj (Outcome.ok.inj hok)]
      rfl
  | block =>
      obtain ⟨ik, -, hok⟩ := Outcome.bind_eq_ok.mp h
      obtain ⟨info, -, hok⟩ := Outcome.bind_eq_ok.mp hok
      cases hok

/-- What a coroutine returns when its reads complete one after the other. -/
def drive (key file : Bytes) : ℕ → Suspended → Outcome VLogEntryInfo
  | 0, _ => .fault
  | n + 1, s =>
      match s.resume key (s.filled file) with
      | .ok (.inl s') => drive key file n s'
      | .ok (.inr info) => .ok info
      | .fail c => .fail c
      | .fault => .fault

/-- **What a task comes to.** -/
def Leads (key : Bytes) (r : Outcome VLogEntryInfo) : Task → Prop
  | .suspended file s => drive key file s.left s = r
  | .done answer => Outcome.ofExcept answer = r

/-- The reads that a task has to come. -/
def Task.left : Task → ℕ
  | .suspended _ s => s.left
  | .done _ => 0

/-- **A resumption leads where the coroutine led.** -/
theorem Leads.resume {r : Outcome VLogEntryInfo} {s : Suspended} (h : Leads key r (.suspended file s))
    (sound : r ≠ .fault) :
    ∃ task, Task.resumed file (s.resume key (s.filled file)) = .ok task ∧ Leads key r task ∧
      task.left < s.left := by
  obtain ⟨n, hn⟩ := Nat.exists_eq_succ_of_ne_zero s.left_pos.ne'
  simp only [Leads, hn, drive] at h
  cases hres : s.resume key (s.filled file) with
  | ok next =>
      rw [hres] at h
      cases next with
      | inl s' =>
          have hleft := s.left_resume hres
          have hn' : s'.left = n := by omega
          exact ⟨_, rfl, by simpa only [Leads, hn'] using h, by simp only [Task.left]; omega⟩
      | inr info => exact ⟨_, rfl, h, s.left_pos⟩
  | fail c =>
      rw [hres] at h
      exact ⟨_, rfl, h, s.left_pos⟩
  | fault =>
      rw [hres] at h
      exact absurd h.symm sound

/-! ## A well-formed table -/

section Layout

variable {blocks : List (List (Entry Bytes))} {filter : Bytes} {ik : InternalKey}

/-- What the index of a file gives: nothing, or the place of one of its blocks. -/
theorem filterInIndex_layout (crc32c : Bytes → ℕ) (nonempty : ∀ blk ∈ blocks, blk ≠ [])
    (sizes : ∀ e ∈ blocks.flatten, e.key.userKey.length + 32 < 2 ^ 32)
    (tags : ∀ e ∈ blocks.flatten, e.key.tag < 2 ^ 64) (ik : InternalKey)
    (small : (dataBytes crc32c blocks).length < 2 ^ 64) :
    filterInIndex (blockBytes (indexEntries 0 blocks)) ik = .fail .kNotFound ∨
      ∃ pre blk post, blocks = pre ++ blk :: post ∧
        filterInIndex (blockBytes (indexEntries 0 blocks)) ik
          = .ok ⟨(dataBytes crc32c pre).length, (blockContents blk).length⟩ := by
  have hscan : filterInIndex (blockBytes (indexEntries 0 blocks)) ik
      = scanEntries (fun p => filterEntry ik (entryBytes p)) (.fail .kNotFound)
          (indexEntries 0 blocks) :=
    scanBlock_blockBytes (indexEntries_fit nonempty sizes) (fun _ _ => rfl) (length_le_blockBytes _)
  rw [hscan]
  have hsmall : 0 + (dataBytes crc32c blocks).length < 2 ^ 64 := by omega
  rcases scanEntries_indexEntries crc32c nonempty sizes tags ik hsmall with
    ⟨hres, -⟩ | ⟨pre, blk, post, e, hblocks, -, -, -, hres⟩
  · exact .inl hres
  · rw [Nat.zero_add] at hres
    exact .inr ⟨pre, blk, post, hblocks, hres⟩

/-- **The four reads of a coroutine** on a file of the table format. -/
theorem drive_layoutFile (nonempty : ∀ blk ∈ blocks, blk ≠ [])
    (sizes : ∀ e ∈ blocks.flatten, e.key.userKey.length + 32 < 2 ^ 32)
    (tags : ∀ e ∈ blocks.flatten, e.key.tag < 2 ^ 64) (tag : ik.tag < 2 ^ 64)
    (small : (layoutFile crc32c blocks filter).length < 2 ^ 32) :
    drive ik.encode (layoutFile crc32c blocks filter) 4 ⟨.footer, resize [] Footer.kEncodedLength,
        (layoutFile crc32c blocks filter).length - Footer.kEncodedLength⟩ =
      if keyMayMatch ik.userKey filter then do
        let handle ← filterInIndex (blockBytes (indexEntries 0 blocks)) ik
        findInBlock (readAt (layoutFile crc32c blocks filter) handle.offset handle.size) ik .zero
      else .fail .kNotFound := by
  have hlen := length_layoutFile crc32c blocks filter
  have hkey : InternalKey.decode ik.encode = some ik := InternalKey.decode_encode ik tag
  have hfits : (layoutFooter crc32c blocks filter).Fits := by
    simp only [Footer.Fits, layoutFooter, List.mem_cons, List.not_mem_nil, or_false,
      forall_eq_or_imp, forall_eq]
    omega
  -- The footer.
  have hfooter : Suspended.filled ⟨.footer, resize [] Footer.kEncodedLength,
      (layoutFile crc32c blocks filter).length - Footer.kEncodedLength⟩
      (layoutFile crc32c blocks filter) = (layoutFooter crc32c blocks filter).encode :=
    filled_resize readAt_footer (Footer.length_encode _) (by decide)
  rw [drive, hfooter, Suspended.resume]
  simp only [Footer.decode_encode hfits, Outcome.ok_bind]
  -- The filter.
  have hfilter : ∀ buffer awaits, Suspended.filled ⟨awaits, resize buffer filter.length,
      (dataBytes crc32c blocks).length⟩ (layoutFile crc32c blocks filter) = filter :=
    fun buffer awaits => filled_resize readAt_filter rfl (by omega)
  rw [drive, show (layoutFooter crc32c blocks filter).metaindexHandle
    = ⟨(dataBytes crc32c blocks).length, filter.length⟩ from rfl, hfilter, Suspended.resume]
  simp only [hkey, Outcome.ofOption_some, Outcome.ok_bind]
  by_cases hmay : keyMayMatch ik.userKey filter = true
  · rw [if_pos hmay, if_pos hmay]
    -- The index.
    have hindex : ∀ buffer awaits, Suspended.filled
        ⟨awaits, resize buffer (blockBytes (indexEntries 0 blocks)).length,
          (dataBytes crc32c blocks).length + (filter.length + kBlockTrailerSize)⟩
        (layoutFile crc32c blocks filter) = blockBytes (indexEntries 0 blocks) :=
      fun buffer awaits => filled_resize readAt_index rfl (by omega)
    simp only
    rw [drive, show (layoutFooter crc32c blocks filter).indexHandle
      = ⟨(dataBytes crc32c blocks).length + (filter.length + kBlockTrailerSize),
        (blockBytes (indexEntries 0 blocks)).length⟩ from rfl, hindex, Suspended.resume]
    simp only [hkey, Outcome.ofOption_some, Outcome.ok_bind]
    rcases filterInIndex_layout crc32c nonempty sizes tags ik (by omega) with
      hnone | ⟨pre, blk, post, rfl, hplace⟩
    · rw [hnone]
      rfl
    · -- The block.
      have hblock : (blockContents blk).length < 2 ^ 32 := by
        rw [dataBytes_append, dataBytes_cons] at hlen
        simp only [List.length_append, TableBuilder.length_rawBlock] at hlen
        omega
      have hread : ∀ buffer awaits, Suspended.filled
          ⟨awaits, resize buffer (blockContents blk).length, (dataBytes crc32c pre).length⟩
          (layoutFile crc32c (pre ++ blk :: post) filter) = blockContents blk :=
        fun buffer awaits => filled_resize readAt_data rfl hblock
      rw [hplace]
      simp only [Outcome.ok_bind]
      rw [drive, hread, Suspended.resume, readAt_data]
      simp only [hkey, Outcome.ofOption_some, Outcome.ok_bind]
      cases findInBlock (blockContents blk) ik .zero <;> rfl
  · rw [if_neg hmay, if_neg hmay]

end Layout

variable {q : ℕ} {u : Bytes} {t : Table} {es : List (Entry Bytes)}

/-- **A coroutine on a well-formed table leads to what `ReadOne` returns.** -/
theorem Table.Holds.leads (h : t.Holds crc32c q es) (q_le : q ≤ kMaxSequenceNumber)
    (findByModel : Bytes → InternalKey → Outcome (ℕ × ℕ)) (u : Bytes) :
    Leads (queryKey q u).encode (t.readOne findByModel (queryKey q u).encode) (launch t) := by
  obtain ⟨blocks, filter, hflat, hnonempty, -, -, hfile⟩ := tableFile_layout crc32c h.nonempty
  have htag : (queryKey q u).tag < 2 ^ 64 := by
    simp only [queryKey, kMaxSequenceNumber] at q_le ⊢
    omega
  have htags : ∀ e ∈ blocks.flatten, e.key.tag < 2 ^ 64 := by
    intro e he
    have hnewer := h.newer e (hflat ▸ he)
    simp only [InternalKey.seq, kMaxSequenceNumber] at hnewer q_le
    omega
  have hsizes : ∀ e ∈ blocks.flatten, e.key.userKey.length + 32 < 2 ^ 32 := by
    intro e he
    have hfits := h.fits.entry e (hflat ▸ he)
    omega
  have hsmall := h.small
  have hlen := length_layoutFile crc32c blocks filter
  rw [hfile] at hsmall
  have hoffset : (2 ^ 64 + t.fileSize - Footer.kEncodedLength) % 2 ^ 64
      = (layoutFile crc32c blocks filter).length - Footer.kEncodedLength := by
    rw [h.fileSize, hfile]
    omega
  simp only [launch, Table.readOne, h.file, Leads]
  rw [hoffset, h.fileSize, hfile, readOne_layoutFile findByModel (by omega) htag]
  exact drive_layoutFile hnonempty hsizes htags htag hsmall

/-- Reading a well-formed table fails no assertion. -/
theorem Table.Holds.readOne_ne_fault (h : t.Holds crc32c q es) (q_le : q ≤ kMaxSequenceNumber)
    (findByModel : Bytes → InternalKey → Outcome (ℕ × ℕ)) (u : Bytes) :
    t.readOne findByModel (queryKey q u).encode ≠ .fault := by
  simp only [Table.readOne, h.file]
  rw [h.fileSize, readOne_eq_lookup findByModel h.nonempty h.sorted h.fits q_le h.newer]
  cases hfound : lookup es u with
  | none => simp [tableAnswer]
  | some e =>
      rw [tableAnswer]
      split
      · rename_i htype
        obtain ⟨info, hinfo⟩ := VLogEntryInfo.decode_isOk (h.values e (lookup_mem hfound) htype)
        rw [hinfo]
        simp
      · simp

/-! ## The loop -/

/-- What a task has put on the counter. -/
def Task.owed : Task → ℕ
  | .suspended _ _ => 2
  | .done _ => 0

/-- The reads to come of all tasks. -/
def Batch.left (b : Batch) : ℕ := (b.tasks.map Task.left).sum

/-- **What holds of a batch**: its tasks lead to their answers, and the counter shows what they have
put on it. -/
structure Sound (key : Bytes) (rs : List (Outcome VLogEntryInfo)) (b : Batch) : Prop where
  leads : List.Forall₂ (fun task r => Leads key r task) b.tasks rs
  counter : b.active = (b.tasks.map Task.owed).sum
  fits : 2 * b.tasks.length < 2 ^ 32

variable {rs : List (Outcome VLogEntryInfo)} {b : Batch}

theorem owed_le (tasks : List Task) : (tasks.map Task.owed).sum ≤ 2 * tasks.length := by
  induction tasks with
  | nil => exact le_rfl
  | cons task tasks ih =>
      have htask : task.owed ≤ 2 := by
        cases task with
        | suspended file s => exact le_rfl
        | done answer => exact Nat.zero_le 2
      simp only [List.map_cons, List.sum_cons, List.length_cons]
      omega

/-- A counter takes off what a task that returns has put on it. -/
theorem settle_eq {active : ℕ} (task : Task) (more : 2 ≤ active) (small : active < 2 ^ 32) :
    settle active task + 2 = active + task.owed := by
  cases task with
  | suspended file s => rfl
  | done answer =>
      simp only [settle, Task.owed]
      omega

/-- **One completion**: no assertion fails, and a read is used up. -/
theorem Sound.resume (h : Sound key rs b) (sound : ∀ r ∈ rs, r ≠ .fault) {k : ℕ} {o : Outcome Batch}
    (resumed : b.resume key k = some o) :
    ∃ b', o = .ok b' ∧ Sound key rs b' ∧ b'.left < b.left := by
  unfold Batch.resume at resumed
  split at resumed
  · rename_i file s hk
    obtain ⟨hlt, hget⟩ := List.getElem?_eq_some_iff.mp hk
    have hlen := h.leads.length_eq
    have hleads : Leads key rs[k] (.suspended file s) := by
      have hat := h.leads.get hlt (hlen ▸ hlt)
      simpa only [List.get_eq_getElem, hget] using hat
    obtain ⟨task, htask, hleads', hleft⟩ := hleads.resume (sound _ (List.getElem_mem _))
    have htwo : Task.owed (.suspended file s) = 2 := rfl
    have howed := Sums.sum_map_set Task.owed hk task
    have hsum := Sums.sum_map_set Task.left hk task
    have hbound := owed_le b.tasks
    have hfits := h.fits
    have hcounter := h.counter
    have hmem : Task.owed (.suspended file s) ≤ (b.tasks.map Task.owed).sum :=
      List.single_le_sum (fun _ _ => Nat.zero_le _) _
        (List.mem_map_of_mem (List.mem_of_getElem? hk))
    rw [htwo] at howed hmem
    have hsettle : settle b.active task + 2 = b.active + task.owed :=
      settle_eq task (by omega) (by omega)
    refine ⟨⟨settle b.active task, b.tasks.set k task⟩, ?_, ⟨?_, ?_, ?_⟩, ?_⟩
    · rw [← Option.some.inj resumed, htask]
      rfl
    · refine List.forall₂_iff_get.mpr ⟨by simpa using hlen, fun j hj hj' => ?_⟩
      simp only [List.get_eq_getElem, List.getElem_set]
      split
      · rename_i heq
        subst heq
        exact hleads'
      · exact h.leads.get (by simpa using hj) hj'
    · show settle b.active task = ((b.tasks.set k task).map Task.owed).sum
      omega
    · rwa [List.length_set]
    · show ((b.tasks.set k task).map Task.left).sum < (b.tasks.map Task.left).sum
      have hs : Task.left (.suspended file s) = s.left := rfl
      omega
  · cases resumed

/-- **A call of `process_completions`.** -/
theorem Sound.processCompletions (h : Sound key rs b) (sound : ∀ r ∈ rs, r ≠ .fault)
    {order : List ℕ} {o : Outcome Batch} (processed : b.processCompletions key order = some o) :
    ∃ b', o = .ok b' ∧ Sound key rs b' ∧ (order ≠ [] → b'.left < b.left) ∧ b'.left ≤ b.left := by
  induction order generalizing b with
  | nil => exact ⟨b, (Option.some.inj processed).symm, h, fun hne => absurd rfl hne, le_rfl⟩
  | cons k order ih =>
      rw [Batch.processCompletions] at processed
      cases hres : b.resume key k with
      | none =>
          rw [hres] at processed
          cases processed
      | some o' =>
          obtain ⟨b₁, rfl, hsound, hless⟩ := h.resume sound hres
          rw [hres] at processed
          obtain ⟨b', rfl, hsound', -, hle⟩ := ih hsound processed
          exact ⟨b', rfl, hsound', fun _ => lt_of_le_of_lt hle hless, (lt_of_le_of_lt hle hless).le⟩

/-- While the counter is positive some task is suspended. -/
theorem Sound.ready (h : Sound key rs b) (busy : b.active ≠ 0) :
    ∃ k, (b.resume key k).isSome := by
  have hsum : (b.tasks.map Task.owed).sum ≠ 0 := h.counter ▸ busy
  obtain ⟨task, htask, howed⟩ : ∃ task ∈ b.tasks, task.owed ≠ 0 := by
    by_contra hnone
    refine hsum (List.sum_eq_zero fun n hn => ?_)
    obtain ⟨task, htask, rfl⟩ := List.mem_map.mp hn
    by_contra hne
    exact hnone ⟨task, htask, hne⟩
  obtain ⟨k, hk⟩ := List.mem_iff_getElem?.mp htask
  cases task with
  | suspended file s => exact ⟨k, by rw [Batch.resume, hk]; rfl⟩
  | done answer => exact absurd rfl howed

/-- The answers are looked through in the order of the tables. -/
theorem collect_eq_firstFound {tasks : List Task}
    (leads : List.Forall₂ (fun task r => Leads key r task) tasks rs)
    (done : ∀ task ∈ tasks, task.owed = 0) : collect tasks = firstFound rs := by
  induction leads with
  | nil => rfl
  | @cons task r tasks rs hlead _ ih =>
      cases task with
      | suspended file s => exact absurd (done _ List.mem_cons_self) (Nat.succ_ne_zero 1)
      | done answer =>
          obtain rfl : Outcome.ofExcept answer = r := hlead
          cases answer with
          | ok info => rfl
          | error c =>
              have ih := ih fun task htask => done task (List.mem_cons_of_mem _ htask)
              cases c <;> first | exact ih | rfl

/-- **The loop returns**, by induction on the reads to come. -/
theorem Sound.returns (h : Sound key rs b) (sound : ∀ r ∈ rs, r ≠ .fault) :
    Returns key (firstFound rs) b := by
  induction hn : b.left using Nat.strong_induction_on generalizing b with
  | _ n ih =>
      by_cases hzero : b.active = 0
      · refine .ends hzero (collect_eq_firstFound h.leads fun task htask => ?_)
        have hle : task.owed ≤ (b.tasks.map Task.owed).sum :=
          List.single_le_sum (fun _ _ => Nat.zero_le _) _ (List.mem_map_of_mem htask)
        rw [← h.counter, hzero] at hle
        exact Nat.le_zero.mp hle
      · refine .round hzero (h.ready hzero) (fun order o ho => ?_) (fun order b' hne ho => ?_)
        · obtain ⟨b', rfl, -⟩ := h.processCompletions sound ho
          exact nofun
        · obtain ⟨b₁, hb₁, hsound, hless, -⟩ := h.processCompletions sound ho
          obtain rfl := Outcome.ok.inj hb₁
          exact ih _ (hn ▸ hless hne) hsound rfl

/-! ## The start -/

/-- What the loop that makes the coroutines leaves: each has put two on the counter, or none. -/
theorem launchAll_eq (tables : List Table) (b : Batch)
    (counter : b.active = (b.tasks.map Task.owed).sum + tables.length)
    (small : 2 * (b.tasks.length + tables.length) < 2 ^ 32) :
    (b.launchAll tables).tasks = b.tasks ++ tables.map launch ∧
      (b.launchAll tables).active = ((b.tasks ++ tables.map launch).map Task.owed).sum := by
  induction tables generalizing b with
  | nil =>
      refine ⟨(List.append_nil _).symm, ?_⟩
      rw [List.map_nil, List.append_nil]
      exact counter
  | cons t tables ih =>
      have hbound := owed_le b.tasks
      rw [List.length_cons] at counter small
      have hsettle : settle ((b.active + 1) % 2 ^ 32) (launch t) + 2
          = (b.active + 1) % 2 ^ 32 + (launch t).owed := settle_eq _ (by omega) (by omega)
      have hnext := ih ⟨settle ((b.active + 1) % 2 ^ 32) (launch t), b.tasks ++ [launch t]⟩
        (by
          rw [List.map_append, List.sum_append, List.map_singleton, List.sum_singleton]
          show settle ((b.active + 1) % 2 ^ 32) (launch t) = _
          omega)
        (by
          rw [List.length_append, List.length_singleton]
          omega)
      simpa only [Batch.launchAll, List.map_cons, List.append_assoc, List.singleton_append]
        using hnext

/-- A batch starts sound. -/
theorem sound_start {tables : List Table} {r : Table → Outcome VLogEntryInfo}
    (leads : ∀ t ∈ tables, Leads key (r t) (launch t)) (small : 2 * tables.length < 2 ^ 32) :
    Sound key (tables.map r) (.start tables) := by
  obtain ⟨htasks, hactive⟩ := launchAll_eq tables ⟨tables.length % 2 ^ 32, []⟩
    (by simp only [List.map_nil, List.sum_nil]; omega)
    (by simpa only [List.length_nil, Nat.zero_add] using small)
  rw [List.nil_append] at htasks hactive
  refine ⟨?_, ?_, ?_⟩
  · rw [Batch.start, htasks, List.forall₂_map_left_iff, List.forall₂_map_right_iff]
    exact List.forall₂_same.mpr leads
  · rw [Batch.start, hactive, htasks]
  · rw [Batch.start, htasks, List.length_map]
    exact small

/-- Reads that lead to their results, in whatever order they complete. -/
theorem readBatchReturns_of_leads {queueInit : ℕ → Bool}
    {findByModel : Bytes → InternalKey → Outcome (ℕ × ℕ)} {tables : List Table}
    (nonempty : tables ≠ [])
    (leads : ∀ t ∈ tables, Leads key (t.readOne findByModel key) (launch t))
    (sound : ∀ t ∈ tables, t.readOne findByModel key ≠ .fault)
    (limit : ∀ n, queueInit n = true → n ≤ 32768)
    (ring : 1 < tables.length → queueInit tables.length = true) :
    ReadBatchReturns queueInit findByModel key
      (firstFound (tables.map fun t => t.readOne findByModel key)) tables := by
  have hlength : 0 < tables.length := List.length_pos_iff.mpr nonempty
  by_cases hone : tables.length = 1
  · obtain ⟨t, rfl⟩ := List.length_eq_one_iff.mp hone
    refine .one ?_
    have hne := sound t List.mem_cons_self
    rw [List.map_singleton]
    cases hread : t.readOne findByModel key with
    | ok info => rfl
    | fail c => cases c <;> rfl
    | fault => exact absurd hread hne
  · have hring := ring (by omega)
    have hsmall := limit _ hring
    refine .many hone hring (Sound.returns (sound_start leads (by omega)) fun r hr => ?_)
    obtain ⟨t, ht, rfl⟩ := List.mem_map.mp hr
    exact sound t ht

/-- **`ReadBatch` gives what `ReadOne` gives on the tables in their order**: the first result that
is not `NotFound`, with its location, whatever the order in which the reads complete.  A ring takes
at most 32768 entries. -/
theorem readBatch_returns {queueInit : ℕ → Bool}
    {findByModel : Bytes → InternalKey → Outcome (ℕ × ℕ)} {tables : List Table}
    (nonempty : tables ≠ []) (wellFormed : ∀ t ∈ tables, ∃ es, t.Holds crc32c q es)
    (q_le : q ≤ kMaxSequenceNumber) (limit : ∀ n, queueInit n = true → n ≤ 32768)
    (ring : 1 < tables.length → queueInit tables.length = true) (u : Bytes) :
    ReadBatchReturns queueInit findByModel (queryKey q u).encode
      (firstFound (tables.map fun t => t.readOne findByModel (queryKey q u).encode)) tables := by
  refine readBatchReturns_of_leads nonempty (fun t ht => ?_) (fun t ht => ?_) limit ring
  · obtain ⟨es, hes⟩ := wellFormed t ht
    exact hes.leads q_le findByModel u
  · obtain ⟨es, hes⟩ := wellFormed t ht
    exact hes.readOne_ne_fault q_le findByModel u

/-- A deleted key in the newer of two tables hides the value in the older one. -/
theorem readBatch_returns_two :
    let older : List (Entry Bytes) := [⟨.ofWrite [1] 2 .kTypeValue, (VLogEntryInfo.mk 0 0 30).encode⟩]
    let newer : List (Entry Bytes) := [⟨.ofWrite [1] 5 .kTypeDeletion, List.replicate 16 0⟩]
    let table es : Table :=
      ⟨(tableFile crc32cCastagnoli es).length, some (tableFile crc32cCastagnoli es)⟩
    ReadBatchReturns (fun n => decide (1 ≤ n ∧ n ≤ 32768)) (fun _ _ => .fault)
      (queryKey 6 [1]).encode (.ok .zero) [table newer, table older] := by
  intro older newer table
  have hsize : ∀ es, (es = newer ∨ es = older) → (tableFile crc32cCastagnoli es).length < 2 ^ 32 := by
    rintro es (rfl | rfl) <;> refine lt_of_le_of_lt (length_tableFile_le (List.cons_ne_nil _ _)) ?_ <;>
      simp [older, newer, blockContents, Entry.toBlock, InternalKey.ofWrite]
  have hholds : ∀ es, (es = newer ∨ es = older) → (table es).Holds crc32cCastagnoli 6 es := by
    intro es hes
    have hsmall := hsize es hes
    refine ⟨?_, ?_, ?_, ⟨?_, hsmall.trans (by decide)⟩, ?_, hsmall, rfl, rfl⟩ <;>
      rcases hes with rfl | rfl <;> simp [older, newer, StrictlySorted]
  have hread : (table newer).readOne (fun _ _ => .fault) (queryKey 6 [1]).encode = .ok .zero := by
    have hnewer := hholds newer (.inl rfl)
    exact (readOne_eq_lookup (fun _ _ => .fault) hnewer.nonempty hnewer.sorted hnewer.fits (by decide)
      hnewer.newer [1] .zero).trans rfl
  have hboth : ∀ t ∈ [table newer, table older], ∃ es, t.Holds crc32cCastagnoli 6 es := by
    intro t ht
    rcases List.mem_pair.mp ht with rfl | rfl
    · exact ⟨newer, hholds newer (.inl rfl)⟩
    · exact ⟨older, hholds older (.inr rfl)⟩
  have hbatch : ReadBatchReturns (fun n => decide (1 ≤ n ∧ n ≤ 32768)) (fun _ _ => .fault)
      (queryKey 6 [1]).encode (firstFound ([table newer, table older].map fun t =>
        t.readOne (fun _ _ => .fault) (queryKey 6 [1]).encode)) [table newer, table older] :=
    readBatch_returns (List.cons_ne_nil _ _) hboth (by decide)
      (fun n hn => (of_decide_eq_true hn).2) (fun _ => rfl) [1]
  rwa [List.map_cons, hread] at hbatch

/-! ## The store -/

end AsyncBatch

end Lsmkv
