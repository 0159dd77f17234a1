import Lsmkv.Store

/-!
# The value log over a run

The writer of a value log appends records and, when the file is full, closes it and goes on
in the next; the reader opens files by number and keeps the last few of them open.  Here the
two are run against each other: `Log` is the directory with its writer and its reader, and
with the locations that the writer has handed out.

`Log.run_reads` says that every location handed out so far can be read, after any further
appends, changes of the file and reads, when a read returns all the bytes asked for that exist.
The reader may answer from a file that it opened long before (`Agree`).
-/

namespace Lsmkv

open ByteCode Files

variable {crc32c : Bytes → ℕ}

/-! ## The reader and its open files -/

variable (crc32c) in
/-- `VLogReader::Read`: `InitFile` looks for the file among the open ones first.  `live` is
`LastLivingSequence` when the reader has a version, and `fetch` says what a read of a file
returns: `pread`, or `readAt` if reads are never short. -/
def readCached (fetch : Bytes → ℕ → ℕ → Bytes) (live : Option ℕ) (d : VLogDir)
    (handles : List (ℕ × ℕ)) (info : VLogEntryInfo) : Outcome Bytes × List (ℕ × ℕ) :=
  match handles.find? fun h => h.1 == info.fileNo with
  | some (_, inode) =>
      (checkRecord crc32c live info (fetch (d.data inode) info.offset (fetchSize info)),
        lruTouch handles info.fileNo inode)
  | none =>
      match d.inode info.fileNo with
      | none => (.fail .kIOError, handles)
      | some inode =>
          (checkRecord crc32c live info (fetch (d.data inode) info.offset (fetchSize info)),
            lruPut handles info.fileNo inode)

/-- The reader of the store is this reader. -/
theorem Store.readValue_eq (s : Store) (info : VLogEntryInfo) :
    s.readValue crc32c info =
      ((readCached crc32c pread (some s.lastLivingSequence) s.vlogs s.handles info).1,
        { s with handles :=
          (readCached crc32c pread (some s.lastLivingSequence) s.vlogs s.handles info).2 }) := by
  cases hfind : s.handles.find? fun h => h.1 == info.fileNo with
  | some h => simp only [Store.readValue, vlogRead, readCached, hfind]
  | none =>
      cases hinode : s.vlogs.inode info.fileNo with
      | none => simp only [Store.readValue, readCached, hfind, hinode]
      | some inode => simp only [Store.readValue, vlogRead, readCached, hfind, hinode]

theorem mem_lruTouch {handles : List (ℕ × ℕ)} {fileNo inode : ℕ} {h : ℕ × ℕ}
    (mem : h ∈ lruTouch handles fileNo inode) : h = (fileNo, inode) ∨ h ∈ handles := by
  rcases List.mem_cons.mp mem with mem | mem
  · exact .inl mem
  · exact .inr (List.mem_of_mem_filter mem)

theorem mem_lruPut {handles : List (ℕ × ℕ)} {fileNo inode : ℕ} {h : ℕ × ℕ}
    (mem : h ∈ lruPut handles fileNo inode) : h = (fileNo, inode) ∨ h ∈ handles := by
  rcases List.mem_cons.mp mem with mem | mem
  · exact .inl mem
  · split at mem
    · exact .inr (List.mem_of_mem_filter (List.mem_of_mem_dropLast mem))
    · exact .inr (List.mem_of_mem_filter mem)

/-- **Open files agree with the directory.**  A file that is open under a number is the file
of that number, if there still is one, and no number from `last` on is open. -/
structure Agree (handles : List (ℕ × ℕ)) (d : VLogDir) (last : ℕ) : Prop where
  below : ∀ h ∈ handles, h.1 < last
  same : ∀ h ∈ handles, ∀ i, d.inode h.1 = some i → h.2 = i

namespace Agree

variable {handles : List (ℕ × ℕ)} {d d' : VLogDir} {last last' : ℕ}

theorem nil : Agree [] d last := ⟨by simp, by simp⟩

/-- Names below the counter may disappear, but keep their files. -/
theorem mono (h : Agree handles d last) (le : last ≤ last')
    (names : ∀ n < last, ∀ i, d'.inode n = some i → d.inode n = some i) :
    Agree handles d' last' :=
  ⟨fun p hp => lt_of_lt_of_le (h.below p hp) le,
    fun p hp i hi => h.same p hp i (names p.1 (h.below p hp) i hi)⟩

/-- A read keeps the agreement. -/
theorem read (h : Agree handles d last) (fresh : ∀ n, last ≤ n → d.inode n = none)
    (fetch : Bytes → ℕ → ℕ → Bytes) (live : Option ℕ) (info : VLogEntryInfo) :
    Agree (readCached crc32c fetch live d handles info).2 d last := by
  unfold readCached
  split
  · rename_i n inode hfind
    have hmem := List.mem_of_find?_eq_some hfind
    have hn : n = info.fileNo := by simpa using List.find?_some hfind
    subst hn
    refine ⟨fun p hp => ?_, fun p hp => ?_⟩
    · rcases mem_lruTouch hp with rfl | hp
      · exact h.below _ hmem
      · exact h.below p hp
    · rcases mem_lruTouch hp with rfl | hp
      · exact h.same _ hmem
      · exact h.same p hp
  · split
    · exact h
    · rename_i inode hinode
      refine ⟨fun p hp => ?_, fun p hp => ?_⟩
      · rcases mem_lruPut hp with rfl | hp
        · by_contra hge
          rw [fresh _ (not_lt.mp hge)] at hinode
          exact absurd hinode (by simp)
        · exact h.below p hp
      · rcases mem_lruPut hp with rfl | hp
        · intro i hi
          exact Option.some.inj (hinode.symm.trans hi)
        · exact h.same p hp

end Agree

/-- **A record is read** wherever the fetch is not short, from an open file or from the
directory. -/
theorem Recorded.readCached {handles : List (ℕ × ℕ)} {d : VLogDir}
    (same : ∀ h ∈ handles, ∀ i, d.inode h.1 = some i → h.2 = i) {info : VLogEntryInfo}
    {key : InternalKey} {value : Bytes} (recorded : Recorded crc32c d info key value)
    {fetch : Bytes → ℕ → ℕ → Bytes} (full : ∀ data, fetch data info.offset (fetchSize info)
      = readAt data info.offset (fetchSize info)) (live : Option ℕ) :
    (readCached crc32c fetch live d handles info).1 = expiryCheck live key.encode value := by
  obtain ⟨i, pre, hi, hpre, hrecord⟩ := recorded.record
  have hread : checkRecord crc32c live info (fetch (d.data i) info.offset (fetchSize info))
      = expiryCheck live key.encode value := by
    rw [full, recorded.fetchSize_eq, readAt_of_record hpre hrecord recorded.length_eq]
    exact checkRecord_of_record recorded.fits recorded.length_eq live
  unfold Lsmkv.readCached
  split
  · rename_i n inode hfind
    have hn : n = info.fileNo := by simpa using List.find?_some hfind
    subst hn
    obtain rfl : inode = i := same _ (List.mem_of_find?_eq_some hfind) i hi
    exact hread
  · rw [hi]
    exact hread

/-- **A location that resolves is read**, from an open file or from the directory. -/
theorem readCached_of_resolves {handles : List (ℕ × ℕ)} {d : VLogDir}
    (same : ∀ h ∈ handles, ∀ i, d.inode h.1 = some i → h.2 = i) {info : VLogEntryInfo}
    {key : InternalKey} {value : Bytes} (resolves : Resolves crc32c d info key value)
    (live : Option ℕ) :
    (readCached crc32c pread live d handles info).1 = expiryCheck live key.encode value :=
  resolves.toRecorded.readCached same
    (fun data => pread_of_le (resolves.fetchSize_eq ▸ resolves.readable) data _) live

/-! ## Writer and reader together -/

/-- A directory of value logs with its writer, the number the next log gets, the files that
the reader has open, and the records that were appended, with their locations. -/
structure Log where
  builder : VLogBuilder
  dir : VLogDir
  next : ℕ
  handles : List (ℕ × ℕ)
  records : List (InternalKey × Bytes × VLogEntryInfo)

/-- What writer and reader do. -/
inductive LogOp
  | append (key : InternalKey) (value : Bytes)
  | rotate
  | read (info : VLogEntryInfo)

namespace Log

/-- The writer opens its first log; nothing is appended yet. -/
def opened (b : VLogBuilder) (d : VLogDir) (first : ℕ) : Log :=
  let (builder, dir) := b.openFile d first
  ⟨builder, dir, first + 1, [], []⟩

variable (crc32c) in
/-- One operation: `Append`, `Close` and `Open` of the next number, or `Read` of any
location. -/
def step (l : Log) : LogOp → Outcome Log
  | .append key value => do
      let (info, builder, dir) ← l.builder.append crc32c l.dir key value
      .ok { l with builder := builder, dir := dir, records := l.records ++ [(key, value, info)] }
  | .rotate =>
      let (builder, dir) := l.builder.close crc32c l.dir
      let (builder, dir) := builder.openFile dir l.next
      .ok { l with builder := builder, dir := dir, next := l.next + 1 }
  | .read info => .ok { l with handles := (readCached crc32c readAt none l.dir l.handles info).2 }

variable (crc32c) in
/-- A sequence of operations. -/
def run (l : Log) : List LogOp → Outcome Log
  | [] => .ok l
  | op :: ops => do
      let l ← l.step crc32c op
      run l ops

/-- The key and the value of an append. -/
def appended : LogOp → Option (InternalKey × Bytes)
  | .append key value => some (key, value)
  | _ => none

/-- The sizes of the record fit the 32-bit lengths of the log and its reader. -/
def Fits : LogOp → Prop
  | .append key value => key.userKey.length + value.length + 20 < 2 ^ 32
  | _ => True

/-- **The invariant of writer and reader.**  Files that are open are the files of the
directory, and the records are in files that are not opened again. -/
structure Sound (crc32c : Bytes → ℕ) (l : Log) : Prop where
  wf : l.dir.WellFormed
  isOpen : ∃ t, l.builder.IsOpen l.dir t
  open_lt : l.builder.fileNo < l.next
  cached : ∀ h ∈ l.handles, l.dir.inode h.1 = some h.2
  records_lt : ∀ r ∈ l.records, r.2.2.fileNo < l.next
  recorded : ∀ r ∈ l.records, Recorded crc32c l.dir r.2.2 r.1 r.2.1

variable {l : Log}

theorem Sound.opened {b : VLogBuilder} {d : VLogDir} (wf : d.WellFormed) (first : ℕ) :
    (Log.opened b d first).Sound crc32c :=
  ⟨(wf.create_any first).1, ⟨.new, VLogBuilder.isOpen_openFile_any wf first⟩, Nat.lt_succ_self _,
    by simp [Log.opened], by simp [Log.opened], by simp [Log.opened]⟩

/-- An append hands out the location of its record, and lets the files grow. -/
theorem Sound.append (h : l.Sound crc32c) {key : InternalKey} {value : Bytes}
    (fits : key.userKey.length + value.length + 20 < 2 ^ 32) :
    ∃ l' info, l.step crc32c (.append key value) = .ok l' ∧ l'.Sound crc32c ∧
      l'.records = l.records ++ [(key, value, info)] := by
  obtain ⟨t, ht⟩ := h.isOpen
  obtain ⟨info, b', d', t', happend, hopen, ⟨hfile, -⟩, ⟨hinode, hnext, -⟩, hgrows, hinfo, -, hnew⟩ :=
    ht.append crc32c key value
  refine ⟨⟨b', d', l.next, l.handles, l.records ++ [(key, value, info)]⟩, info,
    by simp only [Log.step, happend, Outcome.ok_bind], ⟨⟨?_, ?_⟩, ⟨t', hopen⟩, ?_, ?_,
    fun r hr => ?_, fun r hr => ?_⟩, rfl⟩
  · intro n i hi
    rw [hinode] at hi
    rw [hnext]
    exact h.wf.lt_next hi
  · intro m n i hm hn
    rw [hinode] at hm hn
    exact h.wf.injective hm hn
  · rw [hfile]
    exact h.open_lt
  · rw [hinode]
    exact h.cached
  · rcases List.mem_append.mp hr with hr | hr
    · exact h.records_lt r hr
    · rw [List.mem_singleton.mp hr, hinfo]
      exact h.open_lt
  · rcases List.mem_append.mp hr with hr | hr
    · exact (h.recorded r hr).mono (hgrows _)
    · rw [List.mem_singleton.mp hr]
      refine hnew ?_
      simp only [recordLength, kBlockTrailerSize]
      omega

/-- Going on in the next file keeps every record. -/
theorem Sound.rotate (h : l.Sound crc32c) :
    ∃ l', l.step crc32c .rotate = .ok l' ∧ l'.Sound crc32c ∧ l'.records = l.records := by
  obtain ⟨t, ht⟩ := h.isOpen
  let d := (l.builder.close crc32c l.dir).2
  have hd : d = l.dir.write l.builder.inode (t.finish crc32c) := by
    simp [d, VLogBuilder.close, ht.builder]
  have hwf : d.WellFormed := hd ▸ h.wf.write _ _
  have hinode : d.inode = l.dir.inode := by
    rw [hd]
    rfl
  obtain ⟨hwf', -, -, hnames, hsame, hgrows⟩ := hwf.create_any l.next
  refine ⟨_, rfl, ⟨hwf', ⟨.new, VLogBuilder.isOpen_openFile_any hwf l.next⟩, Nat.lt_succ_self _,
    fun p hp => ?_, fun r hr => (h.records_lt r hr).trans (Nat.lt_succ_self _), fun r hr => ?_⟩, rfl⟩
  · have hcached : d.inode p.1 = some p.2 := by
      rw [hinode]
      exact h.cached p hp
    by_cases hp' : p.1 = l.next
    · -- The file was there before, and the reader has it open.
      rw [hp'] at hcached ⊢
      exact ((hwf.create_any l.next).2.1).trans (congrArg some (hsame _ hcached))
    · exact (hnames _ hp').trans hcached
  · exact ((h.recorded r hr).mono (ht.grows_close _)).mono (hgrows _ (h.records_lt r hr).ne)

/-- A read leaves an open file behind that is a file of the directory. -/
theorem Sound.read (h : l.Sound crc32c) (info : VLogEntryInfo) :
    ∀ p ∈ (readCached crc32c readAt none l.dir l.handles info).2, l.dir.inode p.1 = some p.2 := by
  unfold readCached
  split
  · rename_i n inode hfind
    have hn : n = info.fileNo := by simpa using List.find?_some hfind
    subst hn
    intro p hp
    rcases mem_lruTouch hp with rfl | hp
    · exact h.cached _ (List.mem_of_find?_eq_some hfind)
    · exact h.cached p hp
  · split
    · exact h.cached
    · rename_i inode hinode
      intro p hp
      rcases mem_lruPut hp with rfl | hp
      · exact hinode
      · exact h.cached p hp

/-- **One operation** succeeds, keeps the invariant, and adds a record if it appends. -/
theorem Sound.step (h : l.Sound crc32c) {op : LogOp} (fits : Fits op) :
    ∃ l', l.step crc32c op = .ok l' ∧ l'.Sound crc32c ∧
      l'.records.map (fun r => (r.1, r.2.1))
        = l.records.map (fun r => (r.1, r.2.1)) ++ (appended op).toList := by
  cases op with
  | append key value =>
      obtain ⟨l', info, hok, hsound, hrecords⟩ := h.append fits
      exact ⟨l', hok, hsound, by simp [hrecords, appended]⟩
  | rotate =>
      obtain ⟨l', hok, hsound, hrecords⟩ := h.rotate
      exact ⟨l', hok, hsound, by simp [hrecords, appended]⟩
  | read info =>
      exact ⟨_, rfl, ⟨h.wf, h.isOpen, h.open_lt, h.read info, h.records_lt, h.recorded⟩,
        by simp [appended]⟩

theorem Sound.run (h : l.Sound crc32c) {ops : List LogOp} (fits : ∀ op ∈ ops, Fits op) :
    ∃ l', l.run crc32c ops = .ok l' ∧ l'.Sound crc32c ∧
      l'.records.map (fun r => (r.1, r.2.1))
        = l.records.map (fun r => (r.1, r.2.1)) ++ ops.filterMap appended := by
  induction ops generalizing l with
  | nil => exact ⟨l, rfl, h, by simp⟩
  | cons op ops ih =>
      obtain ⟨l₁, hstep, h₁, hrecords₁⟩ := h.step (fits op List.mem_cons_self)
      obtain ⟨l', hrun, h', hrecords⟩ := ih h₁ fun op hop => fits op (List.mem_cons_of_mem _ hop)
      refine ⟨l', ?_, h', ?_⟩
      · rw [Log.run, hstep]
        exact hrun
      · rw [hrecords, hrecords₁, List.append_assoc]
        cases happ : appended op with
        | none => simp [happ]
        | some r => simp [happ]

/-- **Every record can be read back, at every later time.**  Whatever sequence of appends,
changes of the file and reads was made, in whatever directory, it succeeded, there is a
location for each append, in order, and reading that location gives the value that was
appended.  Only the sizes of what is appended must fit. -/
theorem run_reads (crc32c : Bytes → ℕ) (b : VLogBuilder) {d : VLogDir} (wf : d.WellFormed)
    (first : ℕ) {ops : List LogOp} (fits : ∀ op ∈ ops, Fits op) :
    ∃ l, (Log.opened b d first).run crc32c ops = .ok l ∧
      l.records.map (fun r => (r.1, r.2.1)) = ops.filterMap appended ∧
      ∀ r ∈ l.records, (readCached crc32c readAt none l.dir l.handles r.2.2).1 = .ok r.2.1 := by
  have hopened : (Log.opened b d first).Sound crc32c := Sound.opened wf first
  obtain ⟨l, hrun, h, hrecords⟩ := hopened.run fits
  refine ⟨l, hrun, hrecords, fun r hr => ?_⟩
  have hsame : ∀ p ∈ l.handles, ∀ i, l.dir.inode p.1 = some i → p.2 = i :=
    fun p hp i hi => Option.some.inj ((h.cached p hp).symm.trans hi)
  exact (h.recorded r hr).readCached hsame (fun _ => rfl) none

/-- Two records with a change of the file between them, the first read while the second is
written. -/
theorem run_reads_two_files :
    let k := InternalKey.ofWrite [1] 0 .kTypeValue
    ∃ l, (Log.opened .new Dir.empty 0).run crc32cCastagnoli
        [.append k [7], .read ⟨0, 0, 18⟩, .rotate, .append k [8]] = .ok l ∧
      l.records.map (fun r => (r.1, r.2.1)) = [(k, [7]), (k, [8])] ∧
      ∀ r ∈ l.records, (readCached crc32cCastagnoli readAt none l.dir l.handles r.2.2).1 = .ok r.2.1 := by
  intro k
  refine run_reads crc32cCastagnoli .new Dir.wellFormed_empty 0 fun op hop => ?_
  simp only [List.mem_cons, List.not_mem_nil, or_false] at hop
  rcases hop with rfl | rfl | rfl | rfl
  · simp [Fits, k]
  · trivial
  · trivial
  · simp [Fits, k]

end Log

end Lsmkv
